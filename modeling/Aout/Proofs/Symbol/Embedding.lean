import Mathlib.Data.List.Nodup
import Aout.Proofs.Symbol.Growth
/-!
A symbol table inside a larger one. The entries of the small table stand in the large one as well,
though at other positions (`SymbolTable.Embeds`). What the large table has besides is a single entry
that awaits a given name, as long as the small table does not know this name. Adding the same entry
to both tables, or changing the same entry in both, keeps this up. When the name is added to the
small table at last, the large one has its position already (`SymbolTable.Embeds.claim`).

Names need not be distinct: a name finds corresponding positions in both tables.
-/

set_option autoImplicit false
set_option relaxedAutoImplicit false

namespace Aout

/-- The same kind and value. The places of the names in the name tables may differ. -/
structure Symbol.Alike (symbol other : Symbol) : Prop where
  kind : other.kind = symbol.kind
  value : other.value = symbol.value

namespace Symbol.Alike

variable {symbol other : Symbol}

theorem refl (symbol : Symbol) : Alike symbol symbol :=
  ⟨rfl, rfl⟩

theorem isDefined (halike : Alike symbol other) : other.isDefined = symbol.isDefined := by
  rw [Symbol.isDefined, halike.kind, Symbol.isDefined]

theorem segment? (halike : Alike symbol other) : other.segment? = symbol.segment? := by
  rw [Symbol.segment?, halike.kind, Symbol.segment?]

end Symbol.Alike

/-- The same name, kind and value. -/
structure SymbolEntry.Alike (entry other : SymbolEntry) : Prop where
  name : other.name = entry.name
  symbol : entry.symbol.Alike other.symbol

theorem SymbolEntry.Alike.refl (entry : SymbolEntry) : Alike entry entry :=
  ⟨rfl, .refl _⟩

/-- Positions that were assigned stay assigned when more are. -/
theorem getElem?_of_front {Value : Type} {places more : List Value} (hmore : places <+: more)
    {position : Nat} {value : Value} (hplace : places[position]? = some value) :
    more[position]? = some value := by
  obtain ⟨rest, rfl⟩ := hmore
  rwa [List.getElem?_append_left (List.getElem?_eq_some_iff.mp hplace).1]

theorem getElem?_concat_eq_some_iff {Value : Type} {places : List Value} {last value : Value}
    {position : Nat} : (places ++ [last])[position]? = some value ↔
      places[position]? = some value ∨ position = places.length ∧ value = last := by
  rw [List.getElem?_append]
  split
  · rename_i hlt
    simp [Nat.ne_of_lt hlt]
  · rename_i hle
    rw [List.getElem?_eq_none (Nat.le_of_not_lt hle), List.getElem?_singleton]
    simp only [Option.ite_none_right_eq_some, Option.some.injEq, reduceCtorEq, false_or]
    refine and_congr ?_ eq_comm
    omega

namespace SymbolTable

variable {table small large after : SymbolTable} {name key : String} {places : List Nat}
  {position moved : Nat} {entry other : SymbolEntry}

/-! ### Positions of names -/

theorem position?_push (table : SymbolTable) (entry : SymbolEntry) (key : String) :
    (table.push entry).position? key =
      if entry.name = key then some table.size else table.position? key := by
  rw [position?_eq, position?_eq, entries_push, Array.toList_push,
    SymbolEntry.position?_append_singleton]
  rfl

theorem position?_redefine (table : SymbolTable) (position : Nat) (kind : SymbolKind)
    (value : UInt32) (key : String) :
    (table.redefine position kind value).position? key = table.position? key := by
  unfold redefine
  split <;> rfl

theorem size_push (table : SymbolTable) (entry : SymbolEntry) :
    (table.push entry).size = table.size + 1 :=
  Array.size_push _

theorem isDefined_awaited : Symbol.awaited.isDefined = false := by
  decide

theorem exists_entryAt?_of_position? (hfound : table.position? key = some position) :
    ∃ symbol, table.entryAt? position = some ⟨key, symbol⟩ := by
  rw [position?_eq] at hfound
  obtain ⟨entry, hentry, rfl⟩ := SymbolEntry.getElem?_of_position? hfound
  exact ⟨entry.symbol, by rw [entryAt?, ← Array.getElem?_toList, hentry]⟩

theorem locate?_of_position? {symbol : Symbol} (hfound : table.position? key = some position)
    (hentry : table.entryAt? position = some ⟨key, symbol⟩) :
    table.locate? key = some (position, symbol) := by
  unfold locate?
  rw [hfound]
  simp [hentry]

theorem position?_of_locate? {symbol : Symbol}
    (hfound : table.locate? key = some (position, symbol)) :
    table.position? key = some position := by
  simp only [locate?, Option.bind_eq_bind, Option.bind_eq_some_iff, Option.pure_def,
    Option.some.injEq, Prod.mk.injEq] at hfound
  obtain ⟨_, hplace, _, _, rfl, _⟩ := hfound
  exact hplace

theorem locate?_eq_none_iff_position? : table.locate? key = none ↔ table.position? key = none := by
  rw [locate?_eq_none_iff, position?_eq, SymbolEntry.position?_eq_none_iff]
  simp only [Array.mem_toList_iff]

/-! ### Changes of one entry -/

/-- A table with the same names in which another entry may stand at one position. -/
structure Replaces (position : Nat) (entry : SymbolEntry) (table after : SymbolTable) : Prop where
  entryAt? : ∀ place, after.entryAt? place =
    if place = position then some entry else table.entryAt? place
  position? : ∀ key, after.position? key = table.position? key
  size : after.size = table.size

theorem Replaces.refl (hentry : table.entryAt? position = some entry) :
    Replaces position entry table table where
  entryAt? := by
    intro place
    split
    · rename_i hplace
      rw [hplace, hentry]
    · rfl
  position? := fun _ ↦ rfl
  size := rfl

theorem replaces_redefine (hentry : table.entryAt? position = some entry) (kind : SymbolKind)
    (value : UInt32) : Replaces position ⟨entry.name, { entry.symbol with kind, value }⟩ table
      (table.redefine position kind value) where
  entryAt? := entryAt?_redefine hentry kind value
  position? := position?_redefine table position kind value
  size := size_redefine table position kind value

/-! ### Embedding -/

/-- The entries of a small table stand at the given places of a large one, in their order. The only
other entry of the large table awaits a name that the small one does not know. -/
structure Embeds (name : String) (places : List Nat) (small large : SymbolTable) : Prop where
  length : places.length = small.size
  distinct : places.Nodup
  entry : ∀ position moved, places[position]? = some moved → ∃ entry other,
    small.entryAt? position = some entry ∧ large.entryAt? moved = some other ∧ entry.Alike other
  position : ∀ key position, small.position? key = some position → ∃ moved,
    places[position]? = some moved ∧ large.position? key = some moved
  spare : ∀ key, small.position? key = none → large.position? key = none ∨
    key = name ∧ ∃ moved other, moved ∉ places ∧ large.position? key = some moved ∧
      large.entryAt? moved = some other ∧ SymbolEntry.Alike ⟨name, .awaited⟩ other
  covered : ∀ moved other, large.entryAt? moved = some other → other.symbol.isDefined →
    moved ∈ places
  size : large.size ≤ small.size + 1

namespace Embeds

theorem refl (name : String) (table : SymbolTable) :
    Embeds name (List.range table.size) table table where
  length := List.length_range
  distinct := List.nodup_range
  entry := by
    intro position moved hplace
    obtain ⟨hlt, rfl⟩ := List.getElem?_eq_some_iff.mp hplace
    rw [List.length_range] at hlt
    rw [List.getElem_range]
    exact ⟨_, _, Array.getElem?_eq_getElem hlt, Array.getElem?_eq_getElem hlt, .refl _⟩
  position := by
    intro key position hfound
    obtain ⟨symbol, hentry⟩ := exists_entryAt?_of_position? hfound
    exact ⟨position, List.getElem?_range (lt_size_of_entryAt? hentry), hfound⟩
  spare := fun _ hnone ↦ .inl hnone
  covered := fun _ _ hentry _ ↦ List.mem_range.mpr (lt_size_of_entryAt? hentry)
  size := Nat.le_succ _

/-- A table to which an awaited name is added. -/
theorem awaited (hfresh : table.position? name = none) {symbol : Symbol}
    (hawaited : Symbol.Alike .awaited symbol) :
    Embeds name (List.range table.size) table (table.push ⟨name, symbol⟩) where
  length := List.length_range
  distinct := List.nodup_range
  entry := by
    intro position moved hplace
    obtain ⟨known, other, hknown, hother, halike⟩ := (refl name table).entry _ _ hplace
    have hlt := lt_size_of_entryAt? hother
    refine ⟨known, other, hknown, ?_, halike⟩
    rw [entryAt?_push, if_neg (by omega), hother]
  position := by
    intro key position hfound
    obtain ⟨moved, hplace, hmoved⟩ := (refl name table).position key position hfound
    refine ⟨moved, hplace, ?_⟩
    rw [position?_push, if_neg ?_, hmoved]
    rintro rfl
    cases hfound.symm.trans hfresh
  spare := by
    intro key hnone
    rw [position?_push]
    split
    · rename_i hkey
      refine .inr ⟨hkey.symm, table.size, ⟨name, symbol⟩, ?_, rfl, ?_, rfl, hawaited⟩
      · exact fun hmem ↦ Nat.lt_irrefl _ (List.mem_range.mp hmem)
      · rw [entryAt?_push, if_pos rfl]
    · exact .inl hnone
  covered := by
    intro moved other hother hdefined
    rw [entryAt?_push] at hother
    split at hother
    · obtain rfl := Option.some.inj hother
      rw [hawaited.isDefined, isDefined_awaited] at hdefined
      cases hdefined
    · exact List.mem_range.mpr (lt_size_of_entryAt? hother)
  size := Nat.le_of_eq (size_push ..)

/-! #### What is found -/

theorem exists_moved (hembeds : Embeds name places small large)
    (hentry : small.entryAt? position = some entry) : ∃ moved other,
      places[position]? = some moved ∧ large.entryAt? moved = some other ∧ entry.Alike other := by
  have hlt := lt_size_of_entryAt? hentry
  rw [← hembeds.length] at hlt
  obtain ⟨known, other, hknown, hother, halike⟩ :=
    hembeds.entry position _ (List.getElem?_eq_getElem hlt)
  obtain rfl := Option.some.inj (hknown.symm.trans hentry)
  exact ⟨_, other, List.getElem?_eq_getElem hlt, hother, halike⟩

theorem lt_size (hembeds : Embeds name places small large)
    (hplace : places[position]? = some moved) : position < small.size ∧ moved < large.size := by
  obtain ⟨_, _, hentry, hother, -⟩ := hembeds.entry position moved hplace
  exact ⟨lt_size_of_entryAt? hentry, lt_size_of_entryAt? hother⟩

theorem lt_size_of_mem (hembeds : Embeds name places small large) (hmem : moved ∈ places) :
    moved < large.size := by
  obtain ⟨position, hplace⟩ := List.mem_iff_getElem?.mp hmem
  exact (hembeds.lt_size hplace).2

/-- A name that the small table knows finds the same symbol in the large one. -/
theorem locate?_eq_some (hembeds : Embeds name places small large) {symbol : Symbol}
    (hfound : small.locate? key = some (position, symbol)) : ∃ moved latter,
      places[position]? = some moved ∧ large.locate? key = some (moved, latter) ∧
        symbol.Alike latter := by
  obtain ⟨moved, hplace, hmoved⟩ := hembeds.position key position (position?_of_locate? hfound)
  obtain ⟨_, other, hentry, hother, halike⟩ := hembeds.entry position moved hplace
  obtain rfl := Option.some.inj ((entryAt?_of_locate? hfound).symm.trans hentry)
  obtain ⟨key', latter⟩ := other
  obtain rfl : key' = key := halike.name
  exact ⟨moved, latter, hplace, locate?_of_position? hmoved hother, halike.symbol⟩

/-- A name that the small table does not know is new in the large one too, or awaited there. -/
theorem locate?_eq_none (hembeds : Embeds name places small large)
    (hnone : small.locate? key = none) : large.locate? key = none ∨
      key = name ∧ ∃ moved latter, moved ∉ places ∧ large.locate? key = some (moved, latter) ∧
        Symbol.Alike .awaited latter := by
  rw [locate?_eq_none_iff_position?] at hnone
  rcases hembeds.spare key hnone with hunknown | ⟨rfl, moved, other, hmem, hmoved, hother, halike⟩
  · exact .inl (locate?_eq_none_iff_position?.mpr hunknown)
  · obtain ⟨key', latter⟩ := other
    obtain rfl : key' = key := halike.name
    exact .inr ⟨rfl, moved, latter, hmem, locate?_of_position? hmoved hother, halike.symbol⟩

/-! #### Changes side by side -/

/-- An entry is added to the small table, and the large one has it at a position that was not
assigned so far. -/
theorem extend (hembeds : Embeds name places small large) (halike : entry.Alike other)
    (hmem : moved ∉ places)
    (hentry : ∀ place, after.entryAt? place =
      if place = moved then some other else large.entryAt? place)
    (hposition : ∀ key, after.position? key =
      if entry.name = key then some moved else large.position? key)
    (hothers : ∀ key, entry.name ≠ key → large.position? key ≠ some moved)
    (hsize : after.size ≤ small.size + 2) :
    Embeds name (places ++ [moved]) (small.push entry) after where
  length := by
    rw [List.length_append, hembeds.length, size_push]
    rfl
  distinct :=
    List.Nodup.append hembeds.distinct (List.nodup_singleton _) (List.disjoint_singleton.mpr hmem)
  entry := by
    intro position place hplace
    rw [entryAt?_push, hentry]
    rcases getElem?_concat_eq_some_iff.mp hplace with hformer | ⟨hlast, rfl⟩
    · have hother : place ≠ moved := fun hsame ↦ hmem (hsame ▸ List.mem_of_getElem? hformer)
      have hlt := (hembeds.lt_size hformer).1
      rw [if_neg (by omega), if_neg hother]
      exact hembeds.entry position place hformer
    · rw [hembeds.length] at hlast
      exact ⟨entry, other, if_pos hlast, if_pos rfl, halike⟩
  position := by
    intro key position hfound
    rw [position?_push] at hfound
    rw [hposition]
    split at hfound
    · rename_i hkey
      obtain rfl := Option.some.inj hfound
      exact ⟨moved, getElem?_concat_eq_some_iff.mpr (.inr ⟨hembeds.length.symm, rfl⟩), if_pos hkey⟩
    · rename_i hkey
      obtain ⟨place, hplace, hfurther⟩ := hembeds.position key position hfound
      exact ⟨place, getElem?_concat_eq_some_iff.mpr (.inl hplace), (if_neg hkey).trans hfurther⟩
  spare := by
    intro key hnone
    rw [position?_push] at hnone
    rw [hposition]
    split at hnone
    · cases hnone
    · rename_i hkey
      rw [if_neg hkey]
      rcases hembeds.spare key hnone with
        hunknown | ⟨hname, place, latter, hunassigned, hplace, hlatter, hawaited⟩
      · exact .inl hunknown
      · have hother : place ≠ moved := fun hsame ↦ hothers key hkey (hsame ▸ hplace)
        refine .inr ⟨hname, place, latter, ?_, hplace, ?_, hawaited⟩
        · rw [List.mem_append, List.mem_singleton, not_or]
          exact ⟨hunassigned, hother⟩
        · rw [hentry, if_neg hother, hlatter]
  covered := by
    intro place latter hlatter hdefined
    rw [List.mem_append, List.mem_singleton]
    rw [hentry] at hlatter
    split at hlatter
    · exact .inr ‹_›
    · exact .inl (hembeds.covered place latter hlatter hdefined)
  size := by
    rw [size_push]
    exact hsize

/-- The same entry is added to both tables. -/
theorem push (hembeds : Embeds name places small large) (halike : entry.Alike other) :
    Embeds name (places ++ [large.size]) (small.push entry) (large.push other) := by
  refine hembeds.extend halike ?_ (entryAt?_push large other) (fun key ↦ ?_)
    (fun key _ hfound ↦ ?_) ?_
  · exact fun hmem ↦ Nat.lt_irrefl _ (hembeds.lt_size_of_mem hmem)
  · rw [position?_push, halike.name]
  · obtain ⟨_, hentry⟩ := exists_entryAt?_of_position? hfound
    exact Nat.lt_irrefl _ (lt_size_of_entryAt? hentry)
  · rw [size_push]
    exact Nat.succ_le_succ hembeds.size

/-- The name that the large table awaits is added to the small one. Whatever stands under this name
in the large table from now on, it stands where the name was awaited. -/
theorem claim (hembeds : Embeds name places small large) (halike : entry.Alike other)
    (hspare : large.position? entry.name = some moved) (hmem : moved ∉ places)
    (hreplaces : Replaces moved other large after) :
    Embeds name (places ++ [moved]) (small.push entry) after := by
  refine hembeds.extend halike hmem hreplaces.entryAt? (fun key ↦ ?_)
    (fun key hkey hfound ↦ ?_) ?_
  · rw [hreplaces.position?]
    split
    · rename_i hkey
      rw [← hkey, hspare]
    · rfl
  · obtain ⟨symbol, hentry⟩ := exists_entryAt?_of_position? hspare
    obtain ⟨latter, hother⟩ := exists_entryAt?_of_position? hfound
    exact hkey (SymbolEntry.mk.inj (Option.some.inj (hentry.symm.trans hother))).1
  · rw [hreplaces.size]
    exact Nat.le_succ_of_le hembeds.size

/-- The same entry is changed in both tables. -/
theorem replace {lesser : SymbolTable} (hembeds : Embeds name places small large)
    (halike : entry.Alike other) (hplace : places[position]? = some moved)
    (hsmall : Replaces position entry small lesser) (hlarge : Replaces moved other large after) :
    Embeds name places lesser after where
  length := hembeds.length.trans hsmall.size.symm
  distinct := hembeds.distinct
  entry := by
    intro place further hfurther
    rw [hsmall.entryAt?, hlarge.entryAt?]
    have hsame : place = position ↔ further = moved := by
      constructor
      · rintro rfl
        exact Option.some.inj (hfurther.symm.trans hplace)
      · rintro rfl
        exact (List.getElem?_inj (List.getElem?_eq_some_iff.mp hfurther).1 hembeds.distinct).mp
          (hfurther.trans hplace.symm)
    by_cases hposition : place = position
    · rw [if_pos hposition, if_pos (hsame.mp hposition)]
      exact ⟨entry, other, rfl, rfl, halike⟩
    · rw [if_neg hposition, if_neg (mt hsame.mpr hposition)]
      exact hembeds.entry place further hfurther
  position := by
    intro key place hfound
    rw [hsmall.position?] at hfound
    rw [hlarge.position?]
    exact hembeds.position key place hfound
  spare := by
    intro key hnone
    rw [hsmall.position?] at hnone
    rw [hlarge.position?]
    rcases hembeds.spare key hnone with
      hunknown | ⟨hkey, place, latter, hmem, hfound, hlatter, hawaited⟩
    · exact .inl hunknown
    · have hother : place ≠ moved := fun hsame ↦ hmem (hsame ▸ List.mem_of_getElem? hplace)
      refine .inr ⟨hkey, place, latter, hmem, hfound, ?_, hawaited⟩
      rw [hlarge.entryAt?, if_neg hother, hlatter]
  covered := by
    intro place latter hlatter hdefined
    rw [hlarge.entryAt?] at hlatter
    split at hlatter
    · rename_i hsame
      exact hsame ▸ List.mem_of_getElem? hplace
    · exact hembeds.covered place latter hlatter hdefined
  size := by
    rw [hsmall.size, hlarge.size]
    exact hembeds.size

/-- All values change alike, but for those of undefined symbols. -/
theorem mapValues (hembeds : Embeds name places small large) {valueOf : Symbol → UInt32}
    (halike : ∀ symbol other : Symbol, symbol.Alike other → valueOf other = valueOf symbol)
    (hundefined : ∀ symbol : Symbol, symbol.isDefined = false → valueOf symbol = symbol.value) :
    Embeds name places (small.mapValues valueOf) (large.mapValues valueOf) where
  length := hembeds.length.trans (size_mapValues ..).symm
  distinct := hembeds.distinct
  entry := by
    intro position moved hplace
    obtain ⟨entry, other, hentry, hother, hsame⟩ := hembeds.entry position moved hplace
    rw [entryAt?_mapValues, entryAt?_mapValues, hentry, hother]
    exact ⟨_, _, rfl, rfl, hsame.name, hsame.symbol.kind, halike _ _ hsame.symbol⟩
  position := hembeds.position
  spare := by
    intro key hnone
    rcases hembeds.spare key hnone with
      hunknown | ⟨hkey, moved, other, hmem, hfound, hother, hawaited⟩
    · exact .inl hunknown
    · have hvalue : valueOf other.symbol = other.symbol.value :=
        hundefined _ (hawaited.symbol.isDefined.trans isDefined_awaited)
      refine .inr ⟨hkey, moved, _, hmem, hfound, ?_, hawaited⟩
      rw [entryAt?_mapValues, hother, Option.map_some, hvalue]
  covered := by
    intro moved latter hlatter hdefined
    rw [entryAt?_mapValues, Option.map_eq_some_iff] at hlatter
    obtain ⟨other, hother, rfl⟩ := hlatter
    exact hembeds.covered moved other hother hdefined
  size := by
    rw [size_mapValues, size_mapValues]
    exact hembeds.size

end Embeds

end SymbolTable

end Aout
