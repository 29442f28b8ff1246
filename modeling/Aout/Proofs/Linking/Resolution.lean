import Aout.Proofs.Bytes.Rendering
import Aout.Proofs.Linking.Meaning
import Aout.Proofs.Fallible
/-!
What relocation does to one object among others. Every placeholder is overwritten with one word: the
word that it held plus a base, or the address of the only definition of a name. The object with
these words in their places is a template (`Placed.template`), and a relocated object is the object
with all words of the template written, its symbols and records as they were (`Placed.Relocates`).
-/

set_option autoImplicit false
set_option relaxedAutoImplicit false

namespace Aout

theorem Patch.ofAddress_eq_ok_iff {placeholder address : UInt32} {patch : Patch} :
    ofAddress placeholder address = .ok patch ↔
      patch.address = placeholder ∧ patch.word.toNat = address.toNat := by
  obtain ⟨place, word⟩ := patch
  unfold ofAddress
  cases hword : Word.narrow? address with
  | some found =>
    rw [Word.narrow?_eq_some_iff] at hword
    simp only [Except.ok.injEq, mk.injEq, hword, ← UInt16.toNat_inj]
    exact and_congr eq_comm eq_comm
  | none =>
    simp only [reduceCtorEq, false_iff, not_and]
    rintro - hsame
    rw [Word.narrow?_eq_some_iff.mpr hsame.symm] at hword
    cases hword

theorem Patch.ofAddress_eq_error {placeholder address : UInt32} {fault : LinkFault}
    (hfault : ofAddress placeholder address = .error fault) :
    fault = .operandTooWide placeholder address ∧ 0xFFFF < address.toNat := by
  unfold ofAddress at hfault
  split at hfault
  · cases hfault
  · rename_i hnone
    exact ⟨(Except.error.inj hfault).symm, Word.narrow?_eq_none_iff.mp hnone⟩

/-- The address of a symbol, as a number that may have any size. -/
def Bases.exactAddress (bases : Bases) (symbol : Symbol) : Nat :=
  match symbol.segment? with
  | some segment => (bases.of segment).toNat + symbol.value.toNat
  | none => symbol.value.toNat

theorem Bases.toNat_addressOf (bases : Bases) (symbol : Symbol) :
    (bases.addressOf symbol).toNat = min (bases.exactAddress symbol) (UInt32.size - 1) := by
  have hvalue := symbol.value.toNat_lt
  have hsize : UInt32.size = 4294967296 := rfl
  unfold addressOf exactAddress
  cases symbol.segment? with
  | some segment => exact Word.toNat_saturatingAdd _ _
  | none =>
    dsimp only
    omega

/-- The word that an address fits in is the exact sum. -/
theorem Bases.exactAddress_eq {bases : Bases} {symbol : Symbol} {word : UInt16}
    (hword : word.toNat = (bases.addressOf symbol).toNat) :
    word.toNat = bases.exactAddress symbol := by
  have hlt := word.toNat_lt
  have hsize : UInt32.size = 4294967296 := rfl
  rw [toNat_addressOf] at hword
  omega

namespace Placed

variable {module : Placed} {modules : List Placed} {owner : StoredSegment} {record : Relocation}

/-! ### One record -/

theorem resolveRecord_eq_ok_iff {patch : Patch} :
    module.resolveRecord modules owner record = .ok patch ↔
      ∃ held address,
        Placeholder.wordAt? (module.object.contents owner).bytes record.address.toNat = some held ∧
        module.target modules record held = .ok address ∧
        patch.address = record.address ∧ patch.word.toNat = address.toNat := by
  unfold resolveRecord
  split
  · rename_i hnone
    simp [hnone]
  · rename_i held hheld
    simp only [hheld, Option.some.injEq, Fallible.bind_eq_ok_iff, Patch.ofAddress_eq_ok_iff]
    constructor
    · rintro ⟨address, htarget, hpatch⟩
      exact ⟨held, address, rfl, htarget, hpatch⟩
    · rintro ⟨held, address, rfl, htarget, hpatch⟩
      exact ⟨address, htarget, hpatch⟩

theorem target_eq_ok_of_internal (hindex : record.symbolIndex? = none) {held : UInt16}
    {address : UInt32} (htarget : module.target modules record held = .ok address) :
    ∃ segment, Segment.ofTag? record.index = some segment ∧
      address = Word.saturatingAdd held.toUInt32 (module.bases.of segment) := by
  unfold target at htarget
  rw [hindex] at htarget
  dsimp only at htarget
  split at htarget
  · rename_i segment hsegment
    exact ⟨segment, hsegment, (Except.ok.inj htarget).symm⟩
  · cases htarget

theorem target_eq_ok_of_external {index : Nat} (hindex : record.symbolIndex? = some index)
    {held : UInt16} {address : UInt32} (htarget : module.target modules record held = .ok address) :
    ∃ entry, module.object.symbols.entryAt? index = some entry ∧
      findDefinition modules entry.name = .ok address := by
  unfold target at htarget
  rw [hindex] at htarget
  dsimp only at htarget
  split at htarget
  · rename_i entry hentry
    exact ⟨entry, hentry, htarget⟩
  · cases htarget

/-! ### The one definition of a name -/

theorem findDefinition_eq_ok_iff {name : String} {address : UInt32} :
    findDefinition modules name = .ok address ↔ definitions modules name = [address] := by
  unfold findDefinition
  split <;> simp_all

theorem mem_definitions {name : String} {address : UInt32} :
    address ∈ definitions modules name ↔
      ∃ module ∈ modules, ∃ meaning, module.meaning? name = some meaning ∧
        meaning.address = address := by
  simp [definitions, meaning?, Option.map_eq_some_iff]

/-- Whatever one of the modules means by a name that is found, its address is the one found. -/
theorem address_of_findDefinition {name : String} {address : UInt32}
    (hfound : findDefinition modules name = .ok address) (hmodule : module ∈ modules)
    {meaning : Meaning} (hmeaning : module.meaning? name = some meaning) :
    meaning.address = address := by
  have hmember := mem_definitions.mpr ⟨module, hmodule, meaning, hmeaning, rfl⟩
  rw [findDefinition_eq_ok_iff.mp hfound] at hmember
  exact List.mem_singleton.mp hmember

/-- A name that is found has one definition, in one of the modules. -/
theorem exists_definer {name : String} {address : UInt32}
    (hfound : findDefinition modules name = .ok address) :
    ∃ place definer symbol, modules[place]? = some definer ∧
      definer.definition? name = some symbol ∧ address = definer.bases.addressOf symbol ∧
      ∀ (other : Nat) (module : Placed) (found : Symbol), modules[other]? = some module →
        module.definition? name = some found → other = place := by
  obtain ⟨before, definer, after, rfl, hbefore, hdefiner, hafter⟩ :=
    List.filterMap_eq_cons_iff.mp (findDefinition_eq_ok_iff.mp hfound)
  obtain ⟨symbol, hsymbol, rfl⟩ := Option.map_eq_some_iff.mp hdefiner
  refine ⟨before.length, definer, symbol, by simp, hsymbol, rfl, ?_⟩
  intro other module found hmodule hfound
  by_contra hother
  have hnone : (module.definition? name).map module.bases.addressOf = none := by
    rcases Nat.lt_or_gt_of_ne hother with hlow | hhigh
    · rw [List.getElem?_append_left hlow] at hmodule
      exact hbefore module (List.mem_of_getElem? hmodule)
    · obtain ⟨offset, rfl⟩ : ∃ offset, other = before.length + (offset + 1) :=
        ⟨other - before.length - 1, by omega⟩
      rw [List.getElem?_append_right (by omega), Nat.add_sub_cancel_left, List.getElem?_cons_succ]
        at hmodule
      exact List.filterMap_eq_nil_iff.mp hafter module (List.mem_of_getElem? hmodule)
  rw [hfound] at hnone
  cases hnone

/-! ### All records of an object -/

/-- The placeholder of a record, and the word that relocation puts there. -/
def slot (module : Placed) (modules : List Placed) (owner : StoredSegment) (record : Relocation) :
    Slot where
  offset := record.address.toNat
  word := match module.resolveRecord modules owner record with
    | .ok patch => patch.word
    | .error _ => 0

/-- A stored segment of the object, with the words that relocation puts there. -/
def template (module : Placed) (modules : List Placed) (owner : StoredSegment) : Template where
  bytes := (module.object.contents owner).bytes
  slots := (module.object.contents owner).relocations.toList.map (module.slot modules owner)

theorem slot_of_resolveRecord {patch : Patch}
    (hpatch : module.resolveRecord modules owner record = .ok patch) :
    module.slot modules owner record = patch.slot := by
  obtain ⟨-, -, -, -, haddress, -⟩ := resolveRecord_eq_ok_iff.mp hpatch
  rw [slot, hpatch, Patch.slot, haddress]

theorem slots_of_resolve {patches : List Patch}
    (hpatches : module.resolve modules owner = .ok patches) :
    (module.template modules owner).slots = patches.map Patch.slot := by
  have hresolved := Fallible.mapM_eq_ok_iff.mp hpatches
  clear hpatches
  unfold template
  dsimp only
  generalize (module.object.contents owner).relocations.toList = records at hresolved ⊢
  induction hresolved with
  | nil => rfl
  | cons hpatch _ ih => rw [List.map_cons, List.map_cons, ih, slot_of_resolveRecord hpatch]

theorem foldl_write_of_apply {patches : List Patch} {bytes written : Array UInt8}
    (happly : patches.foldlM (Patch.apply owner) bytes = .ok written) :
    written = patches.foldl Patch.write bytes := by
  induction patches generalizing bytes with
  | nil => exact (Except.ok.inj happly).symm
  | cons patch rest ih =>
    rw [List.foldlM_cons] at happly
    obtain ⟨next, hnext, hrest⟩ := Fallible.bind_eq_ok_iff.mp happly
    obtain rfl : next = Patch.write bytes patch := by
      unfold Patch.apply Placeholder.setWordAt? at hnext
      split at hnext
      · rename_i hset
        split at hset
        · obtain rfl := Option.some.inj hset
          exact (Except.ok.inj hnext).symm
        · cases hset
      · cases hnext
    exact ih hrest

theorem patched_eq_ok {patches : List Patch × List Patch} {relocated : Relocated}
    (hpatched : module.patched patches = .ok relocated) :
    relocated = ⟨{ module.object with
      text := { module.object.text with
        bytes := patches.1.foldl Patch.write module.object.text.bytes }
      data := { module.object.data with
        bytes := patches.2.foldl Patch.write module.object.data.bytes } },
      module.bases, false⟩ := by
  obtain ⟨text, htext, hrest⟩ := Fallible.bind_eq_ok_iff.mp hpatched
  obtain ⟨data, hdata, hreturn⟩ := Fallible.bind_eq_ok_iff.mp hrest
  rw [← foldl_write_of_apply htext, ← foldl_write_of_apply hdata]
  exact (Fallible.pure_eq_ok_iff.mp hreturn).symm

/-- What an object is once all its placeholders hold addresses. -/
structure Relocates (modules : List Placed) (module : Placed) (relocated : Relocated) : Prop where
  resolves : ∀ owner, ∀ record ∈ (module.object.contents owner).relocations,
    ∃ patch, module.resolveRecord modules owner record = .ok patch
  bytes : ∀ owner, (relocated.object.contents owner).bytes =
    (module.template modules owner).slots.foldl Slot.write (module.object.contents owner).bytes
  relocations : ∀ owner, (relocated.object.contents owner).relocations =
    (module.object.contents owner).relocations
  magic : relocated.object.magic = module.object.magic
  symbols : relocated.object.symbols = module.object.symbols
  names : relocated.object.names = module.object.names
  bssSize : relocated.object.bssSize = module.object.bssSize
  entry : relocated.object.entry = module.object.entry
  bases : relocated.bases = module.bases
  rebased : relocated.rebased = false

theorem relocates_of_patched {patches : List Patch × List Patch} {relocated : Relocated}
    (hresolve : module.resolveAll modules = .ok patches)
    (hpatched : module.patched patches = .ok relocated) : Relocates modules module relocated := by
  obtain ⟨text, htext, hrest⟩ := Fallible.bind_eq_ok_iff.mp hresolve
  obtain ⟨data, hdata, hreturn⟩ := Fallible.bind_eq_ok_iff.mp hrest
  obtain rfl := Fallible.pure_eq_ok_iff.mp hreturn
  obtain rfl := patched_eq_ok hpatched
  have hresolves {owner : StoredSegment} {patches : List Patch}
      (hpatches : module.resolve modules owner = .ok patches) :
      ∀ record ∈ (module.object.contents owner).relocations,
        ∃ patch, module.resolveRecord modules owner record = .ok patch := by
    intro record hrecord
    obtain ⟨place, hplace⟩ := List.mem_iff_getElem?.mp (Array.mem_toList_iff.mpr hrecord)
    obtain ⟨patch, -, hpatch⟩ :=
      Fallible.exists_getElem?_of_forall₂ (Fallible.mapM_eq_ok_iff.mp hpatches) hplace
    exact ⟨patch, hpatch⟩
  refine ⟨?_, ?_, ?_, rfl, rfl, rfl, rfl, rfl, rfl, rfl⟩
  · rintro (_ | _)
    · exact hresolves htext
    · exact hresolves hdata
  · rintro (_ | _)
    · rw [slots_of_resolve htext, ← Patch.foldl_write]
      rfl
    · rw [slots_of_resolve hdata, ← Patch.foldl_write]
      rfl
  · rintro (_ | _)
    · rfl
    · rfl

theorem relocates_of_relocate {siblings : List Placed} {relocated : Relocated}
    (hrelocate : module.relocate siblings = .ok relocated) :
    Relocates (module :: siblings) module relocated := by
  obtain ⟨patches, hresolve, hpatched⟩ := Fallible.bind_eq_ok_iff.mp hrelocate
  exact relocates_of_patched hresolve hpatched

/-- Objects that are relocated against all of them. -/
theorem relocateAll_eq_ok {relocated : List Relocated}
    (hrelocate : relocateAll modules = .ok relocated) :
    List.Forall₂ (Relocates modules) modules relocated := by
  obtain ⟨patches, hpatches, hpatched⟩ := Fallible.bind_eq_ok_iff.mp hrelocate
  refine (Fallible.forall₂_of_zip (Fallible.mapM_eq_ok_iff.mp hpatches)
    (Fallible.mapM_eq_ok_iff.mp hpatched)).imp ?_
  rintro module relocated ⟨patches, hresolve, hpatched⟩
  exact relocates_of_patched hresolve hpatched

end Placed

end Aout
