import Aout.Proofs.Linking.Faults
/-!
The value of a placeholder. A record into a segment stands for the word that its placeholder holds
plus the base of the segment, and a record of a symbol for the address of the one module among all
that defines the name (`Placed.ComesTo`); both sums are numbers of any size. Relocation adds 32-bit
words that saturate and then cuts the sum down to 16 bits, and still writes exactly these values:
a record is resolved when its placeholder is inside the section and its value has 16 bits
(`Placed.resolveRecord_eq_ok_iff_comesTo`), and then nothing is left that could fail
(`Placed.relocate_exact`).
-/

set_option autoImplicit false
set_option relaxedAutoImplicit false

namespace Aout.Placed

open Placeholder

variable {modules : List Placed} {module : Placed} {owner : StoredSegment} {record : Relocation}

/-- A module of the list that defines the name, as no other one does. -/
structure DefinesOnce (modules : List Placed) (name : String) (definer : Placed) (symbol : Symbol) :
    Prop where
  definition? : definer.definition? name = some symbol
  only : ∃ place : Nat, modules[place]? = some definer ∧
    ∀ (other : Nat) (module : Placed), modules[other]? = some module →
      (module.definition? name).isSome → other = place

/-- The number that is to stand at the placeholder of a record. -/
inductive ComesTo (modules : List Placed) (module : Placed) (owner : StoredSegment)
    (record : Relocation) : Nat → Prop
  | internal {held : UInt16} {segment : Segment} (hinternal : record.external = false)
      (hheld : wordAt? (module.object.contents owner).bytes record.address.toNat = some held)
      (hsegment : record.index = segment.tag) :
      ComesTo modules module owner record (held.toNat + (module.bases.of segment).toNat)
  | external {entry : SymbolEntry} {definer : Placed} {symbol : Symbol}
      (hexternal : record.external = true)
      (hentry : module.object.symbols.entryAt? record.index.toNat = some entry)
      (hdefines : DefinesOnce modules entry.name definer symbol) :
      ComesTo modules module owner record (definer.bases.exactAddress symbol)

/-- An object all of whose placeholders are overwritten, and of which everything else is as it was.
The values are those of the object before any of them was written. -/
structure Fills (modules : List Placed) (module : Placed) (relocated : Relocated) : Prop where
  bases : relocated.bases = module.bases
  symbols : relocated.object.symbols = module.object.symbols
  names : relocated.object.names = module.object.names
  bssSize : relocated.object.bssSize = module.object.bssSize
  entry : relocated.object.entry = module.object.entry
  relocations : ∀ owner, (relocated.object.contents owner).relocations =
    (module.object.contents owner).relocations
  size : ∀ owner, (relocated.object.contents owner).bytes.size =
    (module.object.contents owner).bytes.size
  outside : ∀ owner position,
    (∀ record ∈ (module.object.contents owner).relocations,
      ¬ Covers record.address.toNat position) →
    (relocated.object.contents owner).bytes[position]? =
      (module.object.contents owner).bytes[position]?
  word : ∀ owner position record,
    (module.object.contents owner).relocations[position]? = some record →
    Relocation.Isolated (module.object.contents owner).relocations position →
    ∃ word, wordAt? (relocated.object.contents owner).bytes record.address.toNat = some word ∧
      ∀ value, ComesTo modules module owner record value ↔ value = word.toNat

/-! ### Definitions -/

theorem findDefinition_eq_ok_iff_definesOnce {name : String} {address : UInt32} :
    findDefinition modules name = .ok address ↔
      ∃ definer symbol, DefinesOnce modules name definer symbol ∧
        definer.bases.addressOf symbol = address := by
  constructor
  · intro hfound
    obtain ⟨place, definer, symbol, hplace, hsymbol, rfl, honly⟩ := exists_definer hfound
    refine ⟨definer, symbol, ⟨hsymbol, place, hplace, fun other module hmodule hsome ↦ ?_⟩, rfl⟩
    obtain ⟨found, hfound⟩ := Option.isSome_iff_exists.mp hsome
    exact honly other module found hmodule hfound
  · rintro ⟨definer, symbol, ⟨hsymbol, place, hplace, honly⟩, rfl⟩
    have hothers {other : Nat} {module : Placed} (hmodule : modules[other]? = some module)
        (hne : other ≠ place) : (module.definition? name).map module.bases.addressOf = none := by
      rw [Option.map_eq_none_iff, ← Option.not_isSome_iff_eq_none]
      exact fun hsome ↦ hne (honly other module hmodule hsome)
    -- The modules before the definer and those behind it define nothing.
    have hfront : (modules.take place).filterMap
        (fun module ↦ (module.definition? name).map module.bases.addressOf) = [] := by
      refine List.filterMap_eq_nil_iff.mpr fun module hmodule ↦ ?_
      obtain ⟨other, hother⟩ := List.mem_iff_getElem?.mp hmodule
      rw [List.getElem?_take, Option.ite_none_right_eq_some] at hother
      exact hothers hother.2 (by omega)
    have hback : (modules.drop (place + 1)).filterMap
        (fun module ↦ (module.definition? name).map module.bases.addressOf) = [] := by
      refine List.filterMap_eq_nil_iff.mpr fun module hmodule ↦ ?_
      obtain ⟨other, hother⟩ := List.mem_iff_getElem?.mp hmodule
      rw [List.getElem?_drop] at hother
      exact hothers hother (by omega)
    have hsplit : modules = modules.take place ++ definer :: modules.drop (place + 1) := by
      obtain ⟨hlt, rfl⟩ := List.getElem?_eq_some_iff.mp hplace
      rw [List.getElem_cons_drop, List.take_append_drop]
    rw [findDefinition_eq_ok_iff, definitions, hsplit, List.filterMap_append, hfront,
      List.nil_append, List.filterMap_cons_some (by rw [hsymbol, Option.map_some]), hback]

theorem DefinesOnce.unique {name : String} {first second : Placed} {symbol other : Symbol}
    (hfirst : DefinesOnce modules name first symbol)
    (hsecond : DefinesOnce modules name second other) : first = second ∧ symbol = other := by
  obtain ⟨place, hplace, honly⟩ := hfirst.only
  obtain ⟨found, hfound, -⟩ := hsecond.only
  obtain rfl := honly found second hfound (Option.isSome_of_eq_some hsecond.definition?)
  obtain rfl := Option.some.inj (hplace.symm.trans hfound)
  exact ⟨rfl, Option.some.inj (hfirst.definition?.symm.trans hsecond.definition?)⟩

/-! ### One record -/

theorem ComesTo.unique {first second : Nat} (hfirst : ComesTo modules module owner record first)
    (hsecond : ComesTo modules module owner record second) : first = second := by
  cases hfirst with
  | internal hinternal hheld hsegment =>
    cases hsecond with
    | internal _ hfound hother =>
      obtain rfl := Option.some.inj (hheld.symm.trans hfound)
      have htag := Segment.ofTag?_eq_some_iff.mpr hsegment.symm
      rw [hother, Segment.ofTag?_tag] at htag
      rw [Option.some.inj htag]
    | external hexternal => cases hinternal.symm.trans hexternal
  | external hexternal hentry hdefines =>
    cases hsecond with
    | internal hinternal => cases hinternal.symm.trans hexternal
    | external _ hfound hother =>
      obtain rfl := Option.some.inj (hentry.symm.trans hfound)
      obtain ⟨rfl, rfl⟩ := hdefines.unique hother
      rfl

/-- A sum that saturates and then fits in 16 bits is the sum itself. -/
theorem target_eq_ok_iff_comesTo {held word : UInt16}
    (hheld : wordAt? (module.object.contents owner).bytes record.address.toNat = some held) :
    (∃ address, module.target modules record held = .ok address ∧ word.toNat = address.toNat) ↔
      ComesTo modules module owner record word.toNat := by
  have hlt := word.toNat_lt
  have hsize : UInt32.size = 4294967296 := rfl
  constructor
  · rintro ⟨address, htarget, hword⟩
    cases hexternal : record.external with
    | false =>
      obtain ⟨segment, hsegment, rfl⟩ :=
        target_eq_ok_of_internal (Relocation.symbolIndex?_eq_none_iff.mpr hexternal) htarget
      rw [Word.toNat_saturatingAdd, UInt16.toNat_toUInt32] at hword
      rw [show word.toNat = held.toNat + (module.bases.of segment).toNat by omega]
      exact .internal hexternal hheld (Segment.ofTag?_eq_some_iff.mp hsegment).symm
    | true =>
      obtain ⟨entry, hentry, hfound⟩ := target_eq_ok_of_external
        (Relocation.symbolIndex?_eq_some_iff.mpr ⟨hexternal, rfl⟩) htarget
      obtain ⟨definer, symbol, hdefines, rfl⟩ := findDefinition_eq_ok_iff_definesOnce.mp hfound
      rw [Bases.exactAddress_eq hword]
      exact .external hexternal hentry hdefines
  · intro hcomes
    generalize hvalue : word.toNat = value at hcomes
    cases hcomes with
    | @internal found segment hinternal hfound hsegment =>
      obtain rfl := Option.some.inj (hheld.symm.trans hfound)
      refine ⟨Word.saturatingAdd held.toUInt32 (module.bases.of segment), ?_, ?_⟩
      · rw [target, Relocation.symbolIndex?_eq_none_iff.mpr hinternal]
        dsimp only
        rw [hsegment, Segment.ofTag?_tag]
      · rw [Word.toNat_saturatingAdd, UInt16.toNat_toUInt32]
        omega
    | @external entry definer symbol hexternal hentry hdefines =>
      refine ⟨definer.bases.addressOf symbol, ?_, ?_⟩
      · rw [target, Relocation.symbolIndex?_eq_some_iff.mpr ⟨hexternal, rfl⟩]
        dsimp only
        rw [hentry]
        exact findDefinition_eq_ok_iff_definesOnce.mpr ⟨definer, symbol, hdefines, rfl⟩
      · rw [Bases.toNat_addressOf]
        omega

theorem resolveRecord_eq_ok_iff_comesTo {patch : Patch} :
    module.resolveRecord modules owner record = .ok patch ↔
      record.address.toNat + 1 < (module.object.contents owner).bytes.size ∧
      patch.address = record.address ∧ ComesTo modules module owner record patch.word.toNat := by
  rw [resolveRecord_eq_ok_iff]
  constructor
  · rintro ⟨held, address, hheld, htarget, haddress, hword⟩
    exact ⟨wordAt?_isSome_iff.mp (Option.isSome_of_eq_some hheld), haddress,
      (target_eq_ok_iff_comesTo hheld).mp ⟨address, htarget, hword⟩⟩
  · rintro ⟨hinside, haddress, hcomes⟩
    obtain ⟨held, hheld⟩ := Option.isSome_iff_exists.mp (wordAt?_isSome_iff.mpr hinside)
    obtain ⟨address, htarget, hword⟩ := (target_eq_ok_iff_comesTo hheld).mpr hcomes
    exact ⟨held, address, hheld, htarget, haddress, hword⟩

theorem exists_resolveRecord_iff :
    (∃ patch, module.resolveRecord modules owner record = .ok patch) ↔
      record.address.toNat + 1 < (module.object.contents owner).bytes.size ∧
      ∃ value, ComesTo modules module owner record value ∧ value ≤ 0xFFFF := by
  constructor
  · rintro ⟨patch, hpatch⟩
    obtain ⟨hinside, -, hcomes⟩ := resolveRecord_eq_ok_iff_comesTo.mp hpatch
    exact ⟨hinside, patch.word.toNat, hcomes, Nat.le_of_lt_succ patch.word.toNat_lt⟩
  · rintro ⟨hinside, value, hcomes, hfits⟩
    have hword : (UInt16.ofNat value).toNat = value :=
      UInt16.toNat_ofNat_of_lt' (Nat.lt_succ_of_le hfits)
    exact ⟨⟨record.address, UInt16.ofNat value⟩,
      resolveRecord_eq_ok_iff_comesTo.mpr ⟨hinside, rfl, by rwa [hword]⟩⟩

/-! ### All records -/

theorem exists_resolveAll_iff :
    (∃ patches, module.resolveAll modules = .ok patches) ↔
      ∀ owner, ∀ record ∈ (module.object.contents owner).relocations,
        ∃ patch, module.resolveRecord modules owner record = .ok patch := by
  have howner (owner : StoredSegment) :
      (∃ patches, module.resolve modules owner = .ok patches) ↔
        ∀ record ∈ (module.object.contents owner).relocations,
          ∃ patch, module.resolveRecord modules owner record = .ok patch := by
    rw [resolve, Fallible.exists_mapM_eq_ok_iff]
    simp only [Array.mem_toList_iff]
  constructor
  · rintro ⟨patches, hpatches⟩
    obtain ⟨text, htext, hrest⟩ := Fallible.bind_eq_ok_iff.mp hpatches
    obtain ⟨data, hdata, -⟩ := Fallible.bind_eq_ok_iff.mp hrest
    rintro (_ | _)
    · exact (howner .text).mp ⟨text, htext⟩
    · exact (howner .data).mp ⟨data, hdata⟩
  · intro hall
    obtain ⟨text, htext⟩ := (howner .text).mpr (hall .text)
    obtain ⟨data, hdata⟩ := (howner .data).mpr (hall .data)
    exact ⟨(text, data), Fallible.bind_eq_ok_iff.mpr
      ⟨text, htext, Fallible.bind_eq_ok_iff.mpr ⟨data, hdata, rfl⟩⟩⟩

/-- Words that were found can always be written, so what decides is whether they are found. -/
theorem exists_relocate_iff {siblings : List Placed} :
    (∃ relocated, module.relocate siblings = .ok relocated) ↔
      ∃ patches, module.resolveAll (module :: siblings) = .ok patches := by
  constructor
  · rintro ⟨relocated, hrelocate⟩
    obtain ⟨patches, hpatches, -⟩ := Fallible.bind_eq_ok_iff.mp hrelocate
    exact ⟨patches, hpatches⟩
  · rintro ⟨patches, hpatches⟩
    obtain ⟨relocated, hrelocated⟩ := exists_patched hpatches
    exact ⟨relocated, Fallible.bind_eq_ok_iff.mpr ⟨patches, hpatches, hrelocated⟩⟩

theorem Relocates.fills {relocated : Relocated} (hrelocates : Relocates modules module relocated) :
    Fills modules module relocated := by
  have hrenders (owner : StoredSegment) :
      Renders (module.template modules owner) (relocated.object.contents owner).bytes := by
    rw [hrelocates.bytes owner]
    exact .of_foldl_write (hrelocates.fits owner)
  refine ⟨hrelocates.bases, hrelocates.symbols, hrelocates.names, hrelocates.bssSize,
    hrelocates.entry, hrelocates.relocations, fun owner ↦ (hrenders owner).size_eq,
    fun owner position hfree ↦ (hrenders owner).outside position ?_,
    fun owner position record hrecord hisolated ↦ ?_⟩
  · intro slot hslot
    obtain ⟨record, hrecord, rfl⟩ := List.mem_map.mp hslot
    exact hfree record (Array.mem_toList_iff.mp hrecord)
  · obtain ⟨patch, hpatch⟩ := hrelocates.resolves owner record (Array.mem_of_getElem? hrecord)
    have hslot : (module.template modules owner).slots[position]? = some patch.slot := by
      rw [template, List.getElem?_map, Array.getElem?_toList, hrecord, Option.map_some,
        slot_of_resolveRecord hpatch]
    obtain ⟨-, haddress, hcomes⟩ := resolveRecord_eq_ok_iff_comesTo.mp hpatch
    have hword := (hrenders owner).word position _ hslot (isolated_slots hisolated)
    rw [Patch.slot, haddress] at hword
    refine ⟨patch.word, hword, fun value ↦ ⟨(·.unique hcomes), ?_⟩⟩
    rintro rfl
    exact hcomes

/-- Relocating a module succeeds exactly when every placeholder is inside its section and has a
value of 16 bits. Then these values are written, each over its placeholder, and the rest of the
module stays. -/
theorem relocate_exact (module : Placed) (siblings : List Placed) :
    ((∃ relocated, module.relocate siblings = .ok relocated) ↔
      ∀ owner, ∀ record ∈ (module.object.contents owner).relocations,
        record.address.toNat + 1 < (module.object.contents owner).bytes.size ∧
        ∃ value, ComesTo (module :: siblings) module owner record value ∧ value ≤ 0xFFFF) ∧
    (∀ patches, module.resolveAll (module :: siblings) = .ok patches →
      ∃ relocated, module.patched patches = .ok relocated) ∧
    ∀ relocated, module.relocate siblings = .ok relocated →
      Fills (module :: siblings) module relocated := by
  refine ⟨?_, fun patches ↦ exists_patched, fun relocated hrelocate ↦
    (relocates_of_relocate hrelocate).fills⟩
  rw [exists_relocate_iff, exists_resolveAll_iff]
  simp only [exists_resolveRecord_iff]

/-- A call of a function in a sibling, whose placeholder comes to hold the address of the function.
-/
theorem relocate_exact_call :
    ∃ relocated word,
      relocate ⟨.calling "f", ⟨0x100, 0, 0⟩⟩ [⟨.labelled "f" true, ⟨0x102, 0, 0⟩⟩] =
        .ok relocated ∧
      wordAt? (relocated.object.contents .text).bytes 0 = some word ∧
      ComesTo [⟨.calling "f", ⟨0x100, 0, 0⟩⟩, ⟨.labelled "f" true, ⟨0x102, 0, 0⟩⟩]
        ⟨.calling "f", ⟨0x100, 0, 0⟩⟩ .text (.ofSymbol 0 0) word.toNat := by
  have hsome : (relocate ⟨.calling "f", ⟨0x100, 0, 0⟩⟩
      [⟨.labelled "f" true, ⟨0x102, 0, 0⟩⟩]).toOption.isSome := by decide +kernel
  obtain ⟨relocated, hrelocate⟩ := Fallible.exists_eq_ok_of_isSome hsome
  have hfills := (relocate_exact _ _).2.2 relocated hrelocate
  have hrecord : ((Object.calling "f").contents .text).relocations = #[.ofSymbol 0 0] := by
    decide +kernel
  obtain ⟨word, hword, hcomes⟩ := hfills.word .text 0 (.ofSymbol 0 0) (by rw [hrecord]; rfl)
    (Relocation.isolated_of_size_le_one (by rw [hrecord]; decide) 0)
  exact ⟨relocated, word, hrelocate, hword, (hcomes _).mpr rfl⟩

end Aout.Placed
