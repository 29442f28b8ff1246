import Aout.Proofs.Linking.Symbolisation
/-!
Looking addresses up while objects are built, stripped and linked. The labels of addresses are kept
beside the symbols, through every operation (`Object.Reached.catalogued`), so what a lookup answers
can be read off the list of symbols (`Object.Reached.lookups`): a name is that of a symbol defined
there, the nearest name is at the greatest address that carries a symbol, and what is not defined in
a segment is never found.
-/

set_option autoImplicit false
set_option relaxedAutoImplicit false

namespace Aout

/-- The entry is a symbol that is defined at this address of the segment. -/
structure SymbolEntry.DefinedAt (entry : SymbolEntry) (segment : Segment) (address : UInt32) :
    Prop where
  isDefined : entry.symbol.isDefined
  segment : entry.symbol.segment? = some segment
  value : entry.symbol.value = address

theorem SymbolEntry.definedAt_iff {entry : SymbolEntry} {segment : Segment} {address : UInt32} :
    entry.DefinedAt segment address ↔ entry.isAt segment address := by
  rw [isAt_iff]
  exact ⟨fun ⟨hdefined, hsegment, hvalue⟩ ↦ ⟨hdefined, hsegment, hvalue⟩,
    fun ⟨hdefined, hsegment, hvalue⟩ ↦ ⟨hdefined, hsegment, hvalue⟩⟩

theorem SymbolEntry.not_definedAt {entry : SymbolEntry}
    (hunplaced : entry.symbol.isDefined = false ∨ entry.symbol.segment? = none) (segment : Segment)
    (address : UInt32) : ¬entry.DefinedAt segment address := by
  rintro ⟨hdefined, hsegment, -⟩
  rcases hunplaced with hawaited | hnone
  · rw [hawaited] at hdefined
    cases hdefined
  · rw [hnone] at hsegment
    cases hsegment

namespace SymbolTable.Indexed

variable {table : SymbolTable} {segment : Segment} {address : UInt32}

theorem exists_definedAt (hindexed : table.Indexed) {name : String}
    (hname : table.index.nameAt? segment address = some name) :
    ∃ entry ∈ table.entries, entry.name = name ∧ entry.DefinedAt segment address := by
  obtain ⟨position, entry, hentry, hsame, hat⟩ := hindexed.sound _ _ _ hname
  exact ⟨entry, Array.mem_of_getElem? hentry, hsame, SymbolEntry.definedAt_iff.mpr hat⟩

theorem isSome_nameAt?_iff (hindexed : table.Indexed) :
    (table.index.nameAt? segment address).isSome ↔
      ∃ entry ∈ table.entries, entry.DefinedAt segment address := by
  constructor
  · intro hsome
    obtain ⟨name, hname⟩ := Option.isSome_iff_exists.mp hsome
    obtain ⟨entry, hentry, -, hdefined⟩ := hindexed.exists_definedAt hname
    exact ⟨entry, hentry, hdefined⟩
  · rintro ⟨entry, hentry, hdefined⟩
    obtain ⟨position, hposition⟩ := Array.getElem?_of_mem hentry
    exact hindexed.complete _ _ _ _ hposition (SymbolEntry.definedAt_iff.mp hdefined)

theorem nameAt?_eq_none_iff (hindexed : table.Indexed) :
    table.index.nameAt? segment address = none ↔
      ∀ entry ∈ table.entries, ¬entry.DefinedAt segment address := by
  rw [← Option.not_isSome_iff_eq_none, hindexed.isSome_nameAt?_iff]
  simp only [not_exists, not_and]

theorem nearest?_eq_none_iff (hindexed : table.Indexed) :
    table.index.nearest? segment address = none ↔
      ∀ entry ∈ table.entries, ∀ value ≤ address, ¬entry.DefinedAt segment value := by
  rw [AddressIndex.nearest?_eq_none_iff]
  simp only [hindexed.nameAt?_eq_none_iff]
  exact ⟨fun hnone entry hentry value hvalue ↦ hnone value hvalue entry hentry,
    fun hnone value hvalue entry hentry ↦ hnone entry hentry value hvalue⟩

theorem nearest?_eq_some_iff (hindexed : table.Indexed) {found : Nearby} :
    table.index.nearest? segment address = some found ↔
      ∃ value : UInt32, value.toNat + found.distance.toNat = address.toNat ∧
        table.index.nameAt? segment value = some found.name ∧
        ∀ entry ∈ table.entries, ∀ other ≤ address, entry.DefinedAt segment other →
          other ≤ value := by
  rw [AddressIndex.nearest?_eq_some_iff]
  simp only [hindexed.isSome_nameAt?_iff]
  refine exists_congr fun value ↦ and_congr_right fun _ ↦ and_congr_right fun _ ↦ ?_
  exact ⟨fun hgreatest entry hentry other hother hdefined ↦
      hgreatest other hother ⟨entry, hentry, hdefined⟩,
    fun hgreatest other hother ⟨entry, hentry, hdefined⟩ ↦
      hgreatest entry hentry other hother hdefined⟩

/-- The name of a symbol that is not defined in a segment labels nothing, as no other symbol has
this name. -/
theorem nameAt?_ne_of_not_definedAt (hindexed : table.Indexed) {entry : SymbolEntry}
    (hentry : entry ∈ table.entries) (hnowhere : ∀ segment value, ¬entry.DefinedAt segment value) :
    table.index.nameAt? segment address ≠ some entry.name := by
  intro hname
  obtain ⟨other, hother, hsame, hdefined⟩ := hindexed.exists_definedAt hname
  obtain ⟨position, hposition⟩ := Array.getElem?_of_mem hentry
  obtain ⟨place, hplace⟩ := Array.getElem?_of_mem hother
  obtain rfl := hindexed.distinct _ _ _ _ hplace hposition hsame
  obtain rfl := Option.some.inj (hplace.symm.trans hposition)
  exact hnowhere _ _ hdefined

theorem name_ne_of_nearest? (hindexed : table.Indexed) {entry : SymbolEntry}
    (hentry : entry ∈ table.entries) (hnowhere : ∀ segment value, ¬entry.DefinedAt segment value)
    {found : Nearby} (hnearest : table.index.nearest? segment address = some found) :
    found.name ≠ entry.name := by
  intro hsame
  obtain ⟨value, -, hname, -⟩ := hindexed.nearest?_eq_some_iff.mp hnearest
  rw [hsame] at hname
  exact hindexed.nameAt?_ne_of_not_definedAt hentry hnowhere hname

end SymbolTable.Indexed

namespace Object

variable {object : Object}

/-- What lookups answer, in terms of the symbols. An address has a name exactly if a symbol is
defined there, and then that of such a symbol. The nearest name in a segment is the one at the
greatest address, not behind the given one, at which a symbol is defined, and with it goes the
distance to this address; that in any segment is the one at the least distance, and of several the
one in the first segment. Symbols that are not defined, or not in a segment, are never found. -/
theorem Reached.lookups (hreached : object.Reached) :
    (∀ segment address name, object.symbols.index.nameAt? segment address = some name →
      ∃ entry ∈ object.symbols.entries, entry.name = name ∧ entry.DefinedAt segment address) ∧
    (∀ segment address, object.symbols.index.nameAt? segment address = none ↔
      ∀ entry ∈ object.symbols.entries, ¬entry.DefinedAt segment address) ∧
    (∀ segment address, object.symbols.index.nearest? segment address = none ↔
      ∀ entry ∈ object.symbols.entries, ∀ value ≤ address, ¬entry.DefinedAt segment value) ∧
    (∀ segment address found, object.symbols.index.nearest? segment address = some found ↔
      ∃ value : UInt32, value.toNat + found.distance.toNat = address.toNat ∧
        object.symbols.index.nameAt? segment value = some found.name ∧
        ∀ entry ∈ object.symbols.entries, ∀ other ≤ address, entry.DefinedAt segment other →
          other ≤ value) ∧
    (∀ address, object.symbols.index.nearestAny? address = none ↔
      ∀ segment, object.symbols.index.nearest? segment address = none) ∧
    (∀ address segment found,
      object.symbols.index.nearestAny? address = some (segment, found) ↔
        object.symbols.index.nearest? segment address = some found ∧
          ∀ other near, object.symbols.index.nearest? other address = some near →
            found.distance ≤ near.distance ∧
              (found.distance = near.distance → segment.tag ≤ other.tag)) ∧
    ∀ entry ∈ object.symbols.entries,
      entry.symbol.isDefined = false ∨ entry.symbol.segment? = none →
        ∀ segment address, object.symbols.index.nameAt? segment address ≠ some entry.name ∧
          ∀ found, object.symbols.index.nearest? segment address = some found ∨
            object.symbols.index.nearestAny? address = some (segment, found) →
              found.name ≠ entry.name := by
  have hindexed := hreached.catalogued.indexed
  refine ⟨fun _ _ _ ↦ hindexed.exists_definedAt, fun _ _ ↦ hindexed.nameAt?_eq_none_iff,
    fun _ _ ↦ hindexed.nearest?_eq_none_iff, fun _ _ _ ↦ hindexed.nearest?_eq_some_iff,
    fun _ ↦ AddressIndex.nearestAny?_eq_none_iff, fun _ _ _ ↦ AddressIndex.nearestAny?_eq_some_iff,
    ?_⟩
  intro entry hentry hunplaced
  have hnowhere := SymbolEntry.not_definedAt hunplaced
  intro segment address
  refine ⟨hindexed.nameAt?_ne_of_not_definedAt hentry hnowhere, fun found hfound ↦ ?_⟩
  rcases hfound with hnearest | hany
  · exact hindexed.name_ne_of_nearest? hentry hnowhere hnearest
  · have hnearest := (AddressIndex.nearestAny?_eq_some_iff.mp hany).1
    exact hindexed.name_ne_of_nearest? hentry hnowhere hnearest

/-- An address two bytes behind a label, beside a name that is awaited. -/
theorem Reached.lookups_awaited : ∃ object : Object, object.Reached ∧
    object.symbols.index.nearest? .text 5 = some ⟨"f", 2⟩ ∧
      object.symbols.index.nameAt? .text 3 = some "f" ∧
      object.symbols.index.nearestAny? 5 = some (.text, ⟨"f", 2⟩) ∧
      ∀ segment address, object.symbols.index.nameAt? segment address ≠ some "g" := by
  have hreached : Reached
      (Object.empty.edited [.await "g", .addSymbol "f" (.label .text 3 true)]) :=
    reached_edited _
  obtain ⟨-, -, -, hnearest, -, hany, hnever⟩ := hreached.lookups
  have hfound : (Object.empty.edited
      [.await "g", .addSymbol "f" (.label .text 3 true)]).symbols.index.nearest? .text 5 =
        some ⟨"f", 2⟩ := by
    decide +kernel
  have hsame : (Object.empty.edited
      [.await "g", .addSymbol "f" (.label .text 3 true)]).symbols.index.nearestAny? 5 =
        some (.text, ⟨"f", 2⟩) := by
    decide +kernel
  have hawaited : (⟨"g", .awaited⟩ : SymbolEntry) ∈ (Object.empty.edited
      [.await "g", .addSymbol "f" (.label .text 3 true)]).symbols.entries := by
    decide +kernel
  obtain ⟨value, hvalue, hname, -⟩ := (hnearest _ _ _).mp ((hany _ _ _).mp hsame).1
  obtain rfl : value = 3 := UInt32.toNat_inj.mp (Nat.add_right_cancel hvalue)
  exact ⟨_, hreached, hfound, hname, hsame, fun segment address ↦
    (hnever _ hawaited (.inl (by decide)) segment address).1⟩

end Object

end Aout
