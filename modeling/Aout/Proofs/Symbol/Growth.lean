import Aout.Symbol.Table
/-!
How symbol tables grow. With distinct names (`SymbolTable.NamesDistinct`) looking a name up is the
inverse of reading off a position (`SymbolTable.locate?_eq_some_iff`), and relations say what
becomes of a table while objects are linked. Where a table `Grows`, no entry moves or changes its
name, and what is defined stays as it is. Where a table only `Awaits` more, all new entries are of
the kind of awaited names, so no name changes its definition (`SymbolTable.Awaits.definition?_eq`).
Where a table `Completes` another, it has gained definitions only: what is undefined in it stood
there before.
-/

set_option autoImplicit false
set_option relaxedAutoImplicit false

namespace Aout.SymbolTable

variable {table before middle after : SymbolTable}

/-- No two entries carry the same name. -/
def NamesDistinct (table : SymbolTable) : Prop :=
  ∀ first second entry other, table.entryAt? first = some entry →
    table.entryAt? second = some other → entry.name = other.name → first = second

/-- The symbol that a table defines under a name. -/
def definition? (table : SymbolTable) (name : String) : Option Symbol :=
  (table.find? name).filter (·.isDefined)

theorem entryAt?_eq_none_iff {position : Nat} :
    table.entryAt? position = none ↔ table.size ≤ position :=
  Array.getElem?_eq_none_iff

theorem lt_size_of_entryAt? {position : Nat} {entry : SymbolEntry}
    (hentry : table.entryAt? position = some entry) : position < table.size :=
  (Array.getElem?_eq_some_iff.mp hentry).1

theorem entryAt?_push (table : SymbolTable) (entry : SymbolEntry) (position : Nat) :
    (table.push entry).entryAt? position =
      if position = table.size then some entry else table.entryAt? position :=
  Array.getElem?_push

theorem entryAt?_mapValues (table : SymbolTable) (valueOf : Symbol → UInt32) (position : Nat) :
    (table.mapValues valueOf).entryAt? position = (table.entryAt? position).map fun entry ↦
      { entry with symbol := { entry.symbol with value := valueOf entry.symbol } } := by
  simp [mapValues, entryAt?]

theorem entryAt?_redefine {position : Nat} {entry : SymbolEntry}
    (hentry : table.entryAt? position = some entry) (kind : SymbolKind) (value : UInt32)
    (place : Nat) : (table.redefine position kind value).entryAt? place =
      if place = position then some ⟨entry.name, { entry.symbol with kind, value }⟩
      else table.entryAt? place := by
  have hinside := lt_size_of_entryAt? hentry
  unfold redefine
  split
  · rename_i hnone
    rw [hentry] at hnone
    cases hnone
  · rename_i found hfound
    obtain rfl : entry = found := Option.some.inj (hentry.symm.trans hfound)
    rw [entryAt?, Array.getElem?_setIfInBounds]
    by_cases hplace : place = position
    · rw [if_pos hplace, if_pos hplace.symm]
      exact if_pos hinside
    · rw [if_neg hplace, if_neg (Ne.symm hplace)]
      rfl

theorem exists_locate? {position : Nat} {entry : SymbolEntry}
    (hentry : table.entryAt? position = some entry) :
    ∃ place symbol, table.locate? entry.name = some (place, symbol) := by
  cases hlocate : table.locate? entry.name with
  | some found => exact ⟨found.1, found.2, rfl⟩
  | none =>
    rw [entryAt?] at hentry
    exact (locate?_eq_none_iff.mp hlocate entry (Array.mem_of_getElem? hentry) rfl).elim

theorem locate?_eq_some_iff (hdistinct : table.NamesDistinct) {name : String} {position : Nat}
    {symbol : Symbol} : table.locate? name = some (position, symbol) ↔
      table.entryAt? position = some ⟨name, symbol⟩ := by
  refine ⟨entryAt?_of_locate?, fun hentry ↦ ?_⟩
  obtain ⟨place, found, hlocate⟩ := exists_locate? hentry
  have hplace := entryAt?_of_locate? hlocate
  obtain rfl := hdistinct place position _ _ hplace hentry rfl
  obtain rfl : found = symbol := by simpa using hplace.symm.trans hentry
  exact hlocate

theorem find?_eq_some_iff (hdistinct : table.NamesDistinct) {name : String} {symbol : Symbol} :
    table.find? name = some symbol ↔
      ∃ position, table.entryAt? position = some ⟨name, symbol⟩ := by
  simp only [find?, Option.map_eq_some_iff, Prod.exists, exists_eq_right,
    locate?_eq_some_iff hdistinct]

theorem definition?_eq_some_iff (hdistinct : table.NamesDistinct) {name : String}
    {symbol : Symbol} : table.definition? name = some symbol ↔
      symbol.isDefined ∧ ∃ position, table.entryAt? position = some ⟨name, symbol⟩ := by
  rw [definition?, Option.filter_eq_some_iff, find?_eq_some_iff hdistinct, and_comm]

/-- A name is found at the position of its entry, and defined there or not at all. -/
theorem definition?_of_entryAt? (hdistinct : table.NamesDistinct) {position : Nat}
    {entry : SymbolEntry} (hentry : table.entryAt? position = some entry) :
    table.definition? entry.name = if entry.symbol.isDefined then some entry.symbol else none := by
  have hlocate := (locate?_eq_some_iff hdistinct).mpr hentry
  rw [definition?, find?, hlocate, Option.map_some, Option.filter_some]

/-- A name has the same definition in two tables if the same defined symbols carry it. -/
theorem definition?_congr (hbefore : before.NamesDistinct) (hafter : after.NamesDistinct)
    {name : String} (hsame : ∀ symbol : Symbol, symbol.isDefined →
      ((∃ position, after.entryAt? position = some ⟨name, symbol⟩) ↔
        ∃ position, before.entryAt? position = some ⟨name, symbol⟩)) :
    after.definition? name = before.definition? name := by
  apply Option.ext
  intro symbol
  rw [definition?_eq_some_iff hafter, definition?_eq_some_iff hbefore]
  exact and_congr_right (hsame symbol)

theorem definition?_of_locate?_eq_none {name : String} (hlocate : table.locate? name = none) :
    table.definition? name = none := by
  rw [definition?, find?, hlocate]
  rfl

/-! ### Names -/

/-- The names of the entries, in table order. -/
def names (table : SymbolTable) : List String :=
  table.entries.toList.map (·.name)

theorem mem_names_of_mem {entry : SymbolEntry} (hentry : entry ∈ table.entries) :
    entry.name ∈ table.names :=
  List.mem_map_of_mem (Array.mem_toList_iff.mpr hentry)

@[simp] theorem length_names (table : SymbolTable) : table.names.length = table.size :=
  List.length_map _

@[simp] theorem names_push (table : SymbolTable) (entry : SymbolEntry) :
    (table.push entry).names = table.names ++ [entry.name] := by
  simp [names]

/-- The names of the entries, each with its place in the name table, in table order. -/
def spellings (table : SymbolTable) : List (String × UInt32) :=
  table.entries.toList.map fun entry ↦ (entry.name, entry.symbol.nameOffset)

theorem map_fst_spellings (table : SymbolTable) : table.spellings.map (·.1) = table.names := by
  simp [spellings, names, Function.comp_def]

@[simp] theorem spellings_push (table : SymbolTable) (entry : SymbolEntry) :
    (table.push entry).spellings = table.spellings ++ [(entry.name, entry.symbol.nameOffset)] := by
  simp [spellings]

@[simp] theorem spellings_redefine (table : SymbolTable) (position : Nat) (kind : SymbolKind)
    (value : UInt32) : (table.redefine position kind value).spellings = table.spellings := by
  unfold spellings redefine
  split
  · rfl
  · rename_i entry hentry
    apply List.ext_getElem?
    intro place
    obtain ⟨hinside, hfound⟩ := Array.getElem?_eq_some_iff.mp hentry
    by_cases hplace : position = place
    · subst hplace
      simp [hinside, hfound]
    · simp [hplace]

@[simp] theorem spellings_mapValues (table : SymbolTable) (valueOf : Symbol → UInt32) :
    (table.mapValues valueOf).spellings = table.spellings := by
  simp [spellings, mapValues, Function.comp_def]

@[simp] theorem names_redefine (table : SymbolTable) (position : Nat) (kind : SymbolKind)
    (value : UInt32) : (table.redefine position kind value).names = table.names := by
  rw [← map_fst_spellings, spellings_redefine, map_fst_spellings]

@[simp] theorem names_mapValues (table : SymbolTable) (valueOf : Symbol → UInt32) :
    (table.mapValues valueOf).names = table.names := by
  rw [← map_fst_spellings, spellings_mapValues, map_fst_spellings]

theorem NamesDistinct.pairwise (hdistinct : table.NamesDistinct) :
    table.entries.toList.Pairwise fun first second ↦ first.name ≠ second.name := by
  rw [List.pairwise_iff_getElem]
  intro first second hfirst hsecond hlt hname
  have hentry (position : Nat) (hposition : position < table.entries.toList.length) :
      table.entryAt? position = some table.entries.toList[position] := by
    rw [entryAt?, ← Array.getElem?_toList, List.getElem?_eq_getElem hposition]
  have hsame := hdistinct first second _ _ (hentry first hfirst) (hentry second hsecond) hname
  omega

theorem getElem?_names (table : SymbolTable) (position : Nat) :
    table.names[position]? = (table.entryAt? position).map (·.name) := by
  rw [names, List.getElem?_map, Array.getElem?_toList, entryAt?]

theorem getElem?_names_of_entryAt? {position : Nat} {entry : SymbolEntry}
    (hentry : table.entryAt? position = some entry) : table.names[position]? = some entry.name := by
  rw [getElem?_names, hentry, Option.map_some]

theorem exists_entryAt?_of_mem_names {name : String} (hname : name ∈ table.names) :
    ∃ position symbol, table.entryAt? position = some ⟨name, symbol⟩ := by
  obtain ⟨position, hposition⟩ := List.mem_iff_getElem?.mp hname
  rw [getElem?_names, Option.map_eq_some_iff] at hposition
  obtain ⟨entry, hentry, rfl⟩ := hposition
  exact ⟨position, entry.symbol, hentry⟩

theorem namesDistinct_iff_nodup : table.NamesDistinct ↔ table.names.Nodup := by
  refine ⟨fun hdistinct ↦ List.pairwise_map.mpr hdistinct.pairwise, fun hnodup ↦ ?_⟩
  intro first second entry other hentry hother hname
  have hfirst := getElem?_names_of_entryAt? hentry
  have hsecond := getElem?_names_of_entryAt? hother
  have hlt := (List.getElem?_eq_some_iff.mp hfirst).1
  exact (List.getElem?_inj hlt hnodup).mp (hfirst.trans (hname ▸ hsecond.symm))

theorem getElem?_names_of_position? {name : String} {position : Nat}
    (hfound : table.position? name = some position) : table.names[position]? = some name := by
  rw [position?_eq] at hfound
  obtain ⟨entry, hentry, rfl⟩ := SymbolEntry.getElem?_of_position? hfound
  rw [names, List.getElem?_map, hentry, Option.map_some]

theorem le_of_position? {name : String} {position later : Nat}
    (hfound : table.position? name = some position) (hlater : table.names[later]? = some name) :
    later ≤ position := by
  rw [position?_eq] at hfound
  rw [names] at hlater
  generalize table.entries.toList = entries at hfound hlater
  induction entries generalizing position later with
  | nil => simp at hlater
  | cons entry rest ih =>
    cases later with
    | zero => exact Nat.zero_le _
    | succ later =>
      rw [List.map_cons, List.getElem?_cons_succ] at hlater
      cases hrest : SymbolEntry.position? name rest with
      | some found =>
        simp only [SymbolEntry.position?, hrest, Option.some.injEq] at hfound
        have hle := ih hrest hlater
        omega
      | none =>
        obtain ⟨other, hother, hname⟩ := List.mem_map.mp (List.mem_of_getElem? hlater)
        exact absurd hname (SymbolEntry.position?_eq_none_iff.mp hrest other hother)

/-- A name finds the last entry that carries it. -/
theorem position?_eq_some_iff {name : String} {position : Nat} :
    table.position? name = some position ↔ table.names[position]? = some name ∧
      ∀ later, table.names[later]? = some name → later ≤ position := by
  refine ⟨fun hfound ↦ ⟨getElem?_names_of_position? hfound, fun _ ↦ le_of_position? hfound⟩, ?_⟩
  rintro ⟨hname, hlast⟩
  cases hfound : table.position? name with
  | none =>
    obtain ⟨entry, hentry, hcarries⟩ := List.mem_map.mp (List.mem_of_getElem? hname)
    rw [position?_eq] at hfound
    exact absurd hcarries (SymbolEntry.position?_eq_none_iff.mp hfound entry hentry)
  | some found =>
    rw [Nat.le_antisymm (hlast found (getElem?_names_of_position? hfound))
      (le_of_position? hfound hname)]

/-- Every name finds the position at which it stands exactly if no name stands at two. -/
theorem namesDistinct_iff_position? : table.NamesDistinct ↔
    ∀ position entry, table.entryAt? position = some entry →
      table.position? entry.name = some position := by
  refine ⟨fun hdistinct position entry hentry ↦ ?_, fun hfound ↦ ?_⟩
  · have hname := getElem?_names_of_entryAt? hentry
    have hlt := (List.getElem?_eq_some_iff.mp hname).1
    refine position?_eq_some_iff.mpr ⟨hname, fun later hlater ↦ Nat.le_of_eq ?_⟩
    have hnodup := namesDistinct_iff_nodup.mp hdistinct
    exact ((List.getElem?_inj hlt hnodup).mp (hname.trans hlater.symm)).symm
  · intro first second entry other hentry hother hname
    have hfirst := hfound first entry hentry
    have hsecond := hfound second other hother
    rw [← hname, hfirst] at hsecond
    exact Option.some.inj hsecond

/-- A table with distinct names has no more entries than there are names for them. -/
theorem size_le_of_names_subset (hdistinct : table.NamesDistinct) {names : List String}
    (hsubset : table.names ⊆ names) : table.size ≤ names.length := by
  rw [← length_names]
  exact List.Nodup.length_le_of_subset (namesDistinct_iff_nodup.mp hdistinct) hsubset

/-! ### Growing -/

/-- A table that has grown out of another one. -/
structure Grows (before after : SymbolTable) : Prop where
  kept : ∀ position entry, before.entryAt? position = some entry →
    ∃ later, after.entryAt? position = some later ∧ later.name = entry.name ∧
      later.symbol.nameOffset = entry.symbol.nameOffset ∧
      (entry.symbol.isDefined → later = entry)
  distinct : before.NamesDistinct → after.NamesDistinct

namespace Grows

theorem refl (table : SymbolTable) : Grows table table :=
  ⟨fun _ entry hentry ↦ ⟨entry, hentry, rfl, rfl, fun _ ↦ rfl⟩, id⟩

theorem trans (hfirst : Grows before middle) (hlast : Grows middle after) : Grows before after where
  kept := by
    intro position entry hentry
    obtain ⟨later, hlater, hname, hoffset, hdefined⟩ := hfirst.kept position entry hentry
    obtain ⟨last, hlast, hname', hoffset', hdefined'⟩ := hlast.kept position later hlater
    refine ⟨last, hlast, hname'.trans hname, hoffset'.trans hoffset, fun hentry ↦ ?_⟩
    obtain rfl := hdefined hentry
    exact hdefined' hentry
  distinct := hlast.distinct ∘ hfirst.distinct

theorem push {entry : SymbolEntry} (hfresh : table.locate? entry.name = none) :
    Grows table (table.push entry) where
  kept := by
    intro position known hknown
    have hinside := lt_size_of_entryAt? hknown
    exact ⟨known, by rw [entryAt?_push, if_neg (by omega), hknown], rfl, rfl, fun _ ↦ rfl⟩
  distinct := by
    have hother : ∀ position known, table.entryAt? position = some known →
        known.name ≠ entry.name := by
      intro position known hknown
      rw [entryAt?] at hknown
      exact locate?_eq_none_iff.mp hfresh known (Array.mem_of_getElem? hknown)
    intro hdistinct first second known other hknown hentry hname
    rw [entryAt?_push] at hknown hentry
    split at hknown <;> split at hentry
    · omega
    · obtain rfl := Option.some.inj hknown
      exact (hother second other hentry hname.symm).elim
    · obtain rfl := Option.some.inj hentry
      exact (hother first known hknown hname).elim
    · exact hdistinct first second known other hknown hentry hname

theorem redefine {position : Nat} {entry : SymbolEntry}
    (hentry : table.entryAt? position = some entry) (hawaited : entry.symbol.isDefined = false)
    (kind : SymbolKind) (value : UInt32) : Grows table (table.redefine position kind value) where
  kept := by
    intro place known hknown
    by_cases hplace : place = position
    · obtain rfl := hplace
      obtain rfl : known = entry := Option.some.inj (hknown.symm.trans hentry)
      refine ⟨_, (entryAt?_redefine hentry kind value place).trans (if_pos rfl), rfl, rfl, ?_⟩
      intro hdefined
      rw [hawaited] at hdefined
      cases hdefined
    · exact ⟨known, by rw [entryAt?_redefine hentry, if_neg hplace, hknown], rfl, rfl, fun _ ↦ rfl⟩
  distinct := by
    -- Whatever stands at a place afterwards has the name that stood there before.
    have hname (place : Nat) (known : SymbolEntry)
        (hknown : (table.redefine position kind value).entryAt? place = some known) :
        ∃ former, table.entryAt? place = some former ∧ former.name = known.name := by
      rw [entryAt?_redefine hentry] at hknown
      split at hknown
      · rename_i hplace
        obtain rfl := Option.some.inj hknown
        exact ⟨entry, hplace ▸ hentry, rfl⟩
      · exact ⟨known, hknown, rfl⟩
    intro hdistinct first second known other hknown hother hsame
    obtain ⟨former, hformer, hformerName⟩ := hname first known hknown
    obtain ⟨latter, hlatter, hlatterName⟩ := hname second other hother
    exact hdistinct first second former latter hformer hlatter
      (by rw [hformerName, hlatterName, hsame])

theorem size_le (hgrows : Grows before after) : before.size ≤ after.size := by
  rcases Nat.eq_zero_or_pos before.size with hempty | hpos
  · omega
  · have hinside : before.size - 1 < before.entries.size := Nat.sub_one_lt_of_lt hpos
    obtain ⟨later, hlater, -⟩ := hgrows.kept _ _ (Array.getElem?_eq_getElem hinside)
    have hinside := lt_size_of_entryAt? hlater
    omega

end Grows

theorem definition?_push (hdistinct : table.NamesDistinct) {entry : SymbolEntry}
    (hfresh : table.locate? entry.name = none) (name : String) :
    (table.push entry).definition? name =
      if name = entry.name then (if entry.symbol.isDefined then some entry.symbol else none)
      else table.definition? name := by
  have hafter := (Grows.push hfresh).distinct hdistinct
  by_cases hname : name = entry.name
  · obtain rfl := hname
    rw [if_pos rfl]
    exact definition?_of_entryAt? hafter ((entryAt?_push table entry _).trans (if_pos rfl))
  · rw [if_neg hname]
    refine definition?_congr hdistinct hafter fun symbol _ ↦ exists_congr fun position ↦ ?_
    rw [entryAt?_push]
    split
    · rename_i hposition
      rw [entryAt?_eq_none_iff.mpr (Nat.le_of_eq hposition.symm)]
      simp only [Option.some.injEq, reduceCtorEq, iff_false]
      rintro rfl
      exact hname rfl
    · rfl

theorem definition?_redefine (hdistinct : table.NamesDistinct) {position : Nat}
    {entry : SymbolEntry} (hentry : table.entryAt? position = some entry)
    (hawaited : entry.symbol.isDefined = false) (kind : SymbolKind) (value : UInt32)
    (name : String) : (table.redefine position kind value).definition? name =
      if name = entry.name then
        (if kind.has .undefined then none else some { entry.symbol with kind, value })
      else table.definition? name := by
  have hafter := (Grows.redefine hentry hawaited kind value).distinct hdistinct
  by_cases hname : name = entry.name
  · obtain rfl := hname
    rw [if_pos rfl, definition?_of_entryAt? hafter
      ((entryAt?_redefine hentry kind value _).trans (if_pos rfl))]
    cases hkind : kind.has .undefined <;> simp [Symbol.isDefined, hkind]
  · rw [if_neg hname]
    refine definition?_congr hdistinct hafter fun symbol _ ↦ exists_congr fun place ↦ ?_
    rw [entryAt?_redefine hentry]
    split
    · rename_i hplace
      obtain rfl := hplace
      rw [hentry]
      simp only [Option.some.injEq]
      constructor
      · intro hsame
        exact (hname (congrArg SymbolEntry.name hsame).symm).elim
      · rintro rfl
        exact (hname rfl).elim
    · rfl

/-- A table to which awaited names may have been added, and that is the same otherwise. -/
structure Awaits (before after : SymbolTable) : Prop where
  kept : ∀ position entry, before.entryAt? position = some entry →
    after.entryAt? position = some entry
  added : ∀ position entry, before.entryAt? position = none →
    after.entryAt? position = some entry → entry.symbol.kind = .awaited
  distinct : before.NamesDistinct → after.NamesDistinct

namespace Awaits

theorem refl (table : SymbolTable) : Awaits table table where
  kept := fun _ _ hentry ↦ hentry
  added := by
    intro position entry hnone hentry
    rw [hnone] at hentry
    cases hentry
  distinct := id

theorem trans (hfirst : Awaits before middle) (hlast : Awaits middle after) :
    Awaits before after where
  kept := fun position entry hentry ↦
    hlast.kept position entry (hfirst.kept position entry hentry)
  added := by
    intro position entry hnone hentry
    cases hmiddle : middle.entryAt? position with
    | none => exact hlast.added position entry hmiddle hentry
    | some known =>
      obtain rfl := Option.some.inj ((hlast.kept position known hmiddle).symm.trans hentry)
      exact hfirst.added position known hnone hmiddle
  distinct := hlast.distinct ∘ hfirst.distinct

theorem push {entry : SymbolEntry} (hfresh : table.locate? entry.name = none)
    (hawaited : entry.symbol.kind = .awaited) : Awaits table (table.push entry) where
  kept := by
    intro position known hknown
    have hinside := lt_size_of_entryAt? hknown
    rw [entryAt?_push, if_neg (by omega), hknown]
  added := by
    intro position known hnone hknown
    rw [entryAt?_push] at hknown
    split at hknown
    · obtain rfl := Option.some.inj hknown
      exact hawaited
    · rw [hnone] at hknown
      cases hknown
  distinct := (Grows.push hfresh).distinct

theorem isDefined_of_added (hawaits : Awaits before after) {position : Nat} {entry : SymbolEntry}
    (hnone : before.entryAt? position = none) (hentry : after.entryAt? position = some entry) :
    entry.symbol.isDefined = false := by
  rw [Symbol.isDefined, hawaits.added position entry hnone hentry]
  decide

theorem grows (hawaits : Awaits before after) : Grows before after :=
  ⟨fun position entry hentry ↦ ⟨entry, hawaits.kept position entry hentry, rfl, rfl, fun _ ↦ rfl⟩,
    hawaits.distinct⟩

/-- Awaiting more names defines none. -/
theorem definition?_eq (hawaits : Awaits before after) (hdistinct : before.NamesDistinct)
    (name : String) : after.definition? name = before.definition? name := by
  refine definition?_congr hdistinct (hawaits.distinct hdistinct) fun symbol hdefined ↦
    exists_congr fun position ↦ ⟨fun hafter ↦ ?_, hawaits.kept position _⟩
  cases hbefore : before.entryAt? position with
  | none =>
    have hawaited := hawaits.isDefined_of_added hbefore hafter
    rw [hdefined] at hawaited
    cases hawaited
  | some entry => rw [← hafter, hawaits.kept position entry hbefore]

end Awaits

/-- A table in which only definitions are new: what is undefined in it stood there before. -/
structure Completes (before after : SymbolTable) : Prop where
  size_le : before.size ≤ after.size
  undefined : ∀ position entry, after.entryAt? position = some entry →
    entry.symbol.isDefined = false → before.entryAt? position = some entry

namespace Completes

theorem refl (table : SymbolTable) : Completes table table :=
  ⟨Nat.le_refl _, fun _ _ hentry _ ↦ hentry⟩

theorem push (hcompletes : before.Completes table) {entry : SymbolEntry}
    (hdefined : entry.symbol.isDefined) : before.Completes (table.push entry) where
  size_le := Nat.le_trans hcompletes.size_le (by simp [SymbolTable.size, SymbolTable.push])
  undefined := by
    intro position found hfound hundefined
    rw [entryAt?_push] at hfound
    split at hfound
    · obtain rfl := Option.some.inj hfound
      rw [hdefined] at hundefined
      cases hundefined
    · exact hcompletes.undefined position found hfound hundefined

theorem redefine (hcompletes : before.Completes table) {position : Nat} {entry : SymbolEntry}
    (hentry : table.entryAt? position = some entry) {kind : SymbolKind}
    (hkind : kind.has .undefined = false) (value : UInt32) :
    before.Completes (table.redefine position kind value) where
  size_le := by rw [size_redefine]; exact hcompletes.size_le
  undefined := by
    intro place found hfound hundefined
    rw [entryAt?_redefine hentry] at hfound
    split at hfound
    · obtain rfl := Option.some.inj hfound
      rw [Symbol.isDefined, hkind] at hundefined
      cases hundefined
    · exact hcompletes.undefined place found hfound hundefined

end Completes

end Aout.SymbolTable
