import Aout.Symbol
import Aout.Symbol.AddressIndex
import Std.Data.ExtTreeMap
/-!
The symbol table: named symbols in the order in which they were added, the place of each name, and
the address index over the defined ones. Relocation records give symbols by position, so entries are
added at the end or changed in place, never moved. Where a name occurs twice, the later entry is the
one that the name finds (`SymbolTable.position?_eq`).
-/

set_option autoImplicit false
set_option relaxedAutoImplicit false

namespace Aout

structure SymbolEntry where
  name : String
  symbol : Symbol
  deriving DecidableEq

namespace SymbolEntry

/-- The label that the entry puts on an address: only defined symbols of a segment have one. -/
def label? (entry : SymbolEntry) : Option Label :=
  if entry.symbol.isDefined then
    entry.symbol.segment?.map fun segment ↦ ⟨segment, entry.symbol.value, entry.name⟩
  else none

/-- The position of the last entry with a name. -/
def position? (name : String) : List SymbolEntry → Option Nat
  | [] => none
  | entry :: rest =>
    match position? name rest with
    | some position => some (position + 1)
    | none => if entry.name = name then some 0 else none

theorem position?_append_singleton (name : String) (entries : List SymbolEntry)
    (entry : SymbolEntry) : position? name (entries ++ [entry]) =
      if entry.name = name then some entries.length else position? name entries := by
  induction entries with
  | nil => rfl
  | cons first rest ih =>
    simp only [List.cons_append, position?, ih]
    by_cases hname : entry.name = name <;> simp [hname]

/-- Only the names of the entries count. -/
theorem position?_congr {entries others : List SymbolEntry}
    (hnames : entries.map (·.name) = others.map (·.name)) (name : String) :
    position? name entries = position? name others := by
  induction entries generalizing others with
  | nil => simp_all
  | cons entry rest ih =>
    cases others with
    | nil => simp at hnames
    | cons other left =>
      simp only [List.map_cons, List.cons.injEq] at hnames
      simp [position?, ih hnames.2, hnames.1]

/-- An entry that is changed keeps its name, so all names stay where they are. -/
theorem position?_set {entries : List SymbolEntry} {position : Nat} {entry changed : SymbolEntry}
    (hentry : entries[position]? = some entry) (hname : changed.name = entry.name)
    (name : String) : position? name (entries.set position changed) = position? name entries := by
  refine position?_congr ?_ name
  rw [List.map_set, hname]
  apply List.ext_getElem?
  intro other
  by_cases hother : other = position
  · obtain rfl := hother
    obtain ⟨hinside, rfl⟩ := List.getElem?_eq_some_iff.mp hentry
    simp [hinside]
  · simp [List.getElem?_set_ne (Ne.symm hother)]

theorem getElem?_of_position? {name : String} {entries : List SymbolEntry} {position : Nat}
    (hfound : position? name entries = some position) :
    ∃ entry, entries[position]? = some entry ∧ entry.name = name := by
  induction entries generalizing position with
  | nil => simp [position?] at hfound
  | cons entry rest ih =>
    cases hrest : position? name rest with
    | some found =>
      simp only [position?, hrest, Option.some.injEq] at hfound
      obtain rfl := hfound
      simpa using ih hrest
    | none =>
      simp only [position?, hrest] at hfound
      split at hfound
      · rename_i hname
        obtain rfl := Option.some.inj hfound
        exact ⟨entry, rfl, hname⟩
      · simp at hfound

/-- A name is not found exactly where no entry carries it. -/
theorem position?_eq_none_iff {name : String} {entries : List SymbolEntry} :
    position? name entries = none ↔ ∀ entry ∈ entries, entry.name ≠ name := by
  induction entries with
  | nil => simp [position?]
  | cons entry rest ih =>
    cases hrest : position? name rest with
    | some found =>
      have hnot := mt ih.mpr (by simp [hrest])
      simp only [position?, hrest, reduceCtorEq, List.forall_mem_cons, false_iff]
      exact fun hall ↦ hnot hall.2
    | none => simp [position?, hrest, ← ih]

end SymbolEntry

structure SymbolTable where
  entries : Array SymbolEntry
  /-- Where the last entry of each name stands. -/
  places : Std.ExtTreeMap String Nat
  index : AddressIndex
  places_eq : ∀ name, places[name]? = SymbolEntry.position? name entries.toList

namespace SymbolTable

def empty : SymbolTable where
  entries := #[]
  places := {}
  index := .empty
  places_eq := by simp [SymbolEntry.position?]

def size (table : SymbolTable) : Nat :=
  table.entries.size

def entryAt? (table : SymbolTable) (position : Nat) : Option SymbolEntry :=
  table.entries[position]?

def position? (table : SymbolTable) (name : String) : Option Nat :=
  table.places[name]?

/-- The entry that a name finds: its position and its symbol. -/
def locate? (table : SymbolTable) (name : String) : Option (Nat × Symbol) := do
  let position ← table.position? name
  return (position, (← table.entryAt? position).symbol)

def find? (table : SymbolTable) (name : String) : Option Symbol :=
  (table.locate? name).map (·.2)

/-- Index the address of an entry, if it has one. -/
def label (index : AddressIndex) (entry : SymbolEntry) : AddressIndex :=
  match entry.label? with
  | some label => index.claim label
  | none => index

/-- Add an entry at the end. -/
def push (table : SymbolTable) (entry : SymbolEntry) : SymbolTable :=
  let ⟨entries, places, index, hplaces⟩ := table
  let position := entries.size
  { entries := entries.push entry
    places := places.insert entry.name position
    index := label index entry
    places_eq := fun name ↦ by
      simp [Std.ExtTreeMap.getElem?_insert, SymbolEntry.position?_append_singleton, hplaces,
        position] }

/-- The table with the given entries, in this order. -/
def ofEntries (entries : List SymbolEntry) : SymbolTable :=
  entries.foldl push empty

/-- Give the entry at a position another kind and value; its name and name offset stay. -/
def redefine (table : SymbolTable) (position : Nat) (kind : SymbolKind) (value : UInt32) :
    SymbolTable :=
  match hentry : table.entryAt? position with
  | none => table
  | some entry =>
    let released := match entry.symbol.segment? with
      | some segment => table.index.release ⟨segment, entry.symbol.value, entry.name⟩
      | none => table.index
    let changed : SymbolEntry := { entry with symbol := { entry.symbol with kind, value } }
    { entries := table.entries.setIfInBounds position changed
      places := table.places
      index := label released changed
      places_eq := fun name ↦ by
        rw [table.places_eq, Array.toList_setIfInBounds]
        rw [entryAt?, ← Array.getElem?_toList] at hentry
        exact (SymbolEntry.position?_set hentry (rfl : changed.name = entry.name) name).symm }

/-- Give every symbol the value that `valueOf` computes for it, and index the addresses anew in
table order. -/
def mapValues (table : SymbolTable) (valueOf : Symbol → UInt32) : SymbolTable :=
  let entries := table.entries.toList.map fun entry ↦
    { entry with symbol := { entry.symbol with value := valueOf entry.symbol } }
  { entries := entries.toArray
    places := table.places
    index := entries.foldl label .empty
    places_eq := fun name ↦ by
      rw [table.places_eq]
      exact SymbolEntry.position?_congr (by simp [entries, Function.comp_def]) name }

theorem position?_eq (table : SymbolTable) (name : String) :
    table.position? name = SymbolEntry.position? name table.entries.toList :=
  table.places_eq name

/-- Tables with the same entries and labels are the same. -/
@[ext]
theorem ext {table other : SymbolTable} (hentries : table.entries = other.entries)
    (hindex : table.index = other.index) : table = other := by
  obtain ⟨entries, places, index, hplaces⟩ := table
  obtain ⟨otherEntries, otherPlaces, otherIndex, hotherPlaces⟩ := other
  obtain rfl := hentries
  obtain rfl := hindex
  obtain rfl : places = otherPlaces :=
    Std.ExtTreeMap.ext_getElem? fun name ↦ (hplaces name).trans (hotherPlaces name).symm
  rfl

/-- What a name finds is an entry with this name. -/
theorem entryAt?_of_locate? {table : SymbolTable} {name : String} {position : Nat} {symbol : Symbol}
    (hfound : table.locate? name = some (position, symbol)) :
    table.entryAt? position = some ⟨name, symbol⟩ := by
  simp only [locate?, Option.bind_eq_bind, Option.bind_eq_some_iff, Option.pure_def,
    Option.some.injEq, Prod.mk.injEq] at hfound
  obtain ⟨place, hplace, entry, hentry, rfl, rfl⟩ := hfound
  rw [position?_eq] at hplace
  obtain ⟨other, hother, rfl⟩ := SymbolEntry.getElem?_of_position? hplace
  rw [entryAt?, ← Array.getElem?_toList, hother] at hentry
  rw [entryAt?, ← Array.getElem?_toList, hother, Option.some.inj hentry]

/-- A name finds nothing exactly where no entry carries it. -/
theorem locate?_eq_none_iff {table : SymbolTable} {name : String} :
    table.locate? name = none ↔ ∀ entry ∈ table.entries, entry.name ≠ name := by
  simp only [← Array.mem_toList_iff, ← SymbolEntry.position?_eq_none_iff, ← position?_eq, locate?,
    Option.bind_eq_bind]
  cases hplace : table.position? name with
  | none => simp
  | some place =>
    obtain ⟨entry, hentry, -⟩ := SymbolEntry.getElem?_of_position? (position?_eq .. ▸ hplace)
    simp [entryAt?, ← Array.getElem?_toList, hentry]

@[simp] theorem entries_push (table : SymbolTable) (entry : SymbolEntry) :
    (table.push entry).entries = table.entries.push entry := rfl

theorem size_redefine (table : SymbolTable) (position : Nat) (kind : SymbolKind) (value : UInt32) :
    (table.redefine position kind value).size = table.size := by
  unfold redefine
  split <;> simp [size]

theorem size_mapValues (table : SymbolTable) (valueOf : Symbol → UInt32) :
    (table.mapValues valueOf).size = table.size := by
  simp [mapValues, size]

/-- A table grows entry by entry. -/
theorem ofEntries_append_singleton (entries : List SymbolEntry) (entry : SymbolEntry) :
    ofEntries (entries ++ [entry]) = (ofEntries entries).push entry := by
  simp [ofEntries, List.foldl_append]

end SymbolTable

end Aout
