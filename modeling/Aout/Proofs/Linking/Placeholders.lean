import Aout.Proofs.Linking.Linked
import Aout.Proofs.Object.Editing
/-!
What stands in a linked image. Every placeholder that shares no byte with another one of its list
holds the address of what it stands for: the word that the object had there plus the base of the
segment into which it points, or the address of the one definition of its symbol among all objects.
Every byte outside the placeholders is the byte of the object (`link_designates`).
-/

set_option autoImplicit false
set_option relaxedAutoImplicit false

namespace Aout

open Placeholder

/-- The placeholder of a record shares no byte with that of any other record of the list. -/
def Relocation.Isolated (records : Array Relocation) (position : Nat) : Prop :=
  ∀ record other place, records[position]? = some record → records[place]? = some other →
    place ≠ position → Apart other.address.toNat record.address.toNat

theorem Relocation.isolated_of_size_le_one {records : Array Relocation} (hsize : records.size ≤ 1)
    (position : Nat) : Isolated records position := by
  intro record other place hrecord hother hplace
  have hfirst := (Array.getElem?_eq_some_iff.mp hrecord).1
  have hlast := (Array.getElem?_eq_some_iff.mp hother).1
  omega

namespace Placed

/-- A symbol of one of the modules that is the only definition of its name in all of them. -/
structure DefinesAlone (modules : List Placed) (name : String) (definer : Placed)
    (symbol : Symbol) : Prop where
  isDefined : symbol.isDefined
  only : ∃ place position, modules[place]? = some definer ∧
    definer.object.symbols.entryAt? position = some ⟨name, symbol⟩ ∧
    ∀ (other : Nat) (module : Placed) (index : Nat) (found : Symbol),
      modules[other]? = some module →
      module.object.symbols.entryAt? index = some ⟨name, found⟩ → found.isDefined →
        other = place ∧ index = position

/-- What the word at a placeholder of one of the modules is to be in an image. Both sums are exact.
-/
inductive Designates (modules : List Placed) (module : Placed) (owner : StoredSegment)
    (record : Relocation) (word : UInt16) : Prop
  | internal {held : UInt16} {segment : Segment} (hinternal : record.external = false)
      (hheld : wordAt? (module.object.contents owner).bytes record.address.toNat = some held)
      (hsegment : Segment.ofTag? record.index = some segment)
      (hword : word.toNat = held.toNat + (module.bases.of segment).toNat)
  | external {entry : SymbolEntry} {definer : Placed} {symbol : Symbol}
      (hexternal : record.external = true)
      (hentry : module.object.symbols.entryAt? record.index.toNat = some entry)
      (hdefines : DefinesAlone modules entry.name definer symbol)
      (hword : word.toNat = definer.bases.exactAddress symbol)

variable {modules : List Placed} {module : Placed} {owner : StoredSegment} {record : Relocation}

theorem definesAlone_of_findDefinition
    (hdistinct : ∀ module ∈ modules, module.object.symbols.NamesDistinct) {name : String}
    {address : UInt32} (hfound : findDefinition modules name = .ok address) :
    ∃ definer symbol, DefinesAlone modules name definer symbol ∧
      address = definer.bases.addressOf symbol := by
  obtain ⟨place, definer, symbol, hplace, hsymbol, haddress, honly⟩ := exists_definer hfound
  have hnames := hdistinct definer (List.mem_of_getElem? hplace)
  obtain ⟨hdefined, position, hentry⟩ := (SymbolTable.definition?_eq_some_iff hnames).mp hsymbol
  refine ⟨definer, symbol, ⟨hdefined, place, position, hplace, hentry, ?_⟩, haddress⟩
  intro other module index found hmodule hindex hfound
  have hother := hdistinct module (List.mem_of_getElem? hmodule)
  obtain rfl := honly other module found hmodule
    ((SymbolTable.definition?_eq_some_iff hother).mpr ⟨hfound, index, hindex⟩)
  obtain rfl := Option.some.inj (hplace.symm.trans hmodule)
  exact ⟨rfl, hnames index position _ _ hindex hentry rfl⟩

/-- The word that relocation puts at a placeholder is the one that is to be there. -/
theorem designates_of_resolveRecord
    (hdistinct : ∀ module ∈ modules, module.object.symbols.NamesDistinct) {patch : Patch}
    (hpatch : module.resolveRecord modules owner record = .ok patch) :
    Designates modules module owner record patch.word := by
  obtain ⟨held, address, hheld, htarget, -, hword⟩ := resolveRecord_eq_ok_iff.mp hpatch
  cases hexternal : record.external with
  | false =>
    have hindex : record.symbolIndex? = none := by simp [Relocation.symbolIndex?, hexternal]
    obtain ⟨segment, hsegment, rfl⟩ := target_eq_ok_of_internal hindex htarget
    refine .internal hexternal hheld hsegment ?_
    have hlt := patch.word.toNat_lt
    have hsize : UInt32.size = 4294967296 := rfl
    rw [Word.toNat_saturatingAdd, UInt16.toNat_toUInt32] at hword
    omega
  | true =>
    have hindex : record.symbolIndex? = some record.index.toNat := if_pos hexternal
    obtain ⟨entry, hentry, hfound⟩ := target_eq_ok_of_external hindex htarget
    obtain ⟨definer, symbol, hdefines, rfl⟩ := definesAlone_of_findDefinition hdistinct hfound
    exact .external hexternal hentry hdefines (Bases.exactAddress_eq hword)

theorem isolated_slots {position : Nat}
    (hisolated : Relocation.Isolated (module.object.contents owner).relocations position) :
    Slot.Isolated (module.template modules owner).slots position := by
  intro slot other place hslot hother hne
  rw [template, List.getElem?_map, Option.map_eq_some_iff, Array.getElem?_toList] at hslot hother
  obtain ⟨record, hrecord, rfl⟩ := hslot
  obtain ⟨found, hfound, rfl⟩ := hother
  exact hisolated record found place hrecord hfound hne

end Placed

/-- The offset at which a stored segment of one of the objects starts in their image. -/
def Object.start (objects : List Object) (owner : StoredSegment) (place : Nat) : Nat :=
  ((objects.take place).map fun object ↦ (object.contents owner).bytes.size).sum

namespace Image

variable {modules : List Placed} {relocated : List Relocated} {image : Relocated} {module : Placed}
  {owner : StoredSegment} {place : Nat}

theorem start_templates (modules front : List Placed) (owner : StoredSegment) (place : Nat) :
    Template.start (front.map (·.template modules owner)) place =
      Object.start (front.map (·.object)) owner place := by
  rw [Template.start, Object.start, ← List.map_take, ← List.map_take, List.map_map, List.map_map]
  rfl

theorem fits_templates (hrelocates : List.Forall₂ (Placed.Relocates modules) modules relocated)
    (owner : StoredSegment) :
    ∀ template ∈ modules.map (·.template modules owner), template.Fits := by
  intro template htemplate
  obtain ⟨module, hmodule, rfl⟩ := List.mem_map.mp htemplate
  obtain ⟨place, hplace⟩ := List.mem_iff_getElem?.mp hmodule
  obtain ⟨result, -, hresult⟩ := Fallible.exists_getElem?_of_forall₂ hrelocates hplace
  exact hresult.fits owner

theorem getElem?_templates (hplace : modules[place]? = some module) :
    (modules.map (·.template modules owner))[place]? = some (module.template modules owner) := by
  rw [List.getElem?_map, hplace, Option.map_some]

/-- The word at a placeholder that shares no byte with another one is the one that relocation finds
for it. -/
theorem Carries.word (hcarries : Carries modules modules image)
    (hrelocates : List.Forall₂ (Placed.Relocates modules) modules relocated)
    (hplace : modules[place]? = some module) {position : Nat} {record : Relocation}
    (hrecord : (module.object.contents owner).relocations[position]? = some record)
    (hisolated : Relocation.Isolated (module.object.contents owner).relocations position) :
    ∃ patch, module.resolveRecord modules owner record = .ok patch ∧
      wordAt? (image.object.contents owner).bytes
        (Object.start (modules.map (·.object)) owner place + record.address.toNat) =
          some patch.word := by
  obtain ⟨result, -, hresult⟩ := Fallible.exists_getElem?_of_forall₂ hrelocates hplace
  obtain ⟨patch, hpatch⟩ := hresult.resolves owner record (Array.mem_of_getElem? hrecord)
  have hslot : (module.template modules owner).slots[position]? =
      some (module.slot modules owner record) := by
    rw [Placed.template, List.getElem?_map, Array.getElem?_toList, hrecord, Option.map_some]
  have hword := (hcarries.renders owner).word_of_join (fits_templates hrelocates owner)
    (getElem?_templates hplace) hslot (Placed.isolated_slots hisolated)
  rw [start_templates] at hword
  refine ⟨patch, hpatch, hword.trans (congrArg some ?_)⟩
  rw [Placed.slot_of_resolveRecord hpatch, Patch.slot]

theorem Carries.designates (hcarries : Carries modules modules image)
    (hrelocates : List.Forall₂ (Placed.Relocates modules) modules relocated)
    (hdistinct : ∀ module ∈ modules, module.object.symbols.NamesDistinct)
    (hplace : modules[place]? = some module) {position : Nat} {record : Relocation}
    (hrecord : (module.object.contents owner).relocations[position]? = some record)
    (hisolated : Relocation.Isolated (module.object.contents owner).relocations position) :
    ∃ word, wordAt? (image.object.contents owner).bytes
        (Object.start (modules.map (·.object)) owner place + record.address.toNat) = some word ∧
      Placed.Designates modules module owner record word := by
  obtain ⟨patch, hpatch, hword⟩ := hcarries.word hrelocates hplace hrecord hisolated
  exact ⟨patch.word, hword, Placed.designates_of_resolveRecord hdistinct hpatch⟩

/-- A byte that no placeholder covers, in a byte string that frames the bytes of all modules. -/
theorem outside_of_frames {bytes : Array UInt8}
    (hframes : Frames (template modules modules owner) bytes)
    (hrelocates : List.Forall₂ (Placed.Relocates modules) modules relocated)
    (hplace : modules[place]? = some module) {offset : Nat}
    (hoffset : offset < (module.object.contents owner).bytes.size)
    (hfree : ∀ record ∈ (module.object.contents owner).relocations,
      ¬ Covers record.address.toNat offset) :
    bytes[Object.start (modules.map (·.object)) owner place + offset]? =
      (module.object.contents owner).bytes[offset]? := by
  rw [← start_templates modules]
  refine hframes.outside_of_join (fits_templates hrelocates owner) (getElem?_templates hplace)
    hoffset fun slot hslot ↦ ?_
  obtain ⟨record, hrecord, rfl⟩ := List.mem_map.mp hslot
  exact hfree record (Array.mem_toList_iff.mp hrecord)

/-- A byte that no placeholder covers. -/
theorem Carries.outside (hcarries : Carries modules modules image)
    (hrelocates : List.Forall₂ (Placed.Relocates modules) modules relocated)
    (hplace : modules[place]? = some module) {offset : Nat}
    (hoffset : offset < (module.object.contents owner).bytes.size)
    (hfree : ∀ record ∈ (module.object.contents owner).relocations,
      ¬ Covers record.address.toNat offset) :
    (image.object.contents owner).bytes[
        Object.start (modules.map (·.object)) owner place + offset]? =
      (module.object.contents owner).bytes[offset]? :=
  outside_of_frames (hcarries.renders owner).toFrames hrelocates hplace hoffset hfree

end Image

variable {objects : List Object} {textBase : UInt16} {entrySymbol : String}

/-- An object of one text byte with a label on it. -/
def Object.labelled (name : String) (visible : Bool) : Object :=
  .edited .empty [.appendBytes .text [0], .addSymbol name (.label .text 0 visible)]

/-- An object whose text is one word, which stands for a symbol of another object. -/
def Object.calling (name : String) : Object :=
  .edited .empty [.await name, .appendWord .text 0, .addRelocation .text (.ofSymbol 0 0)]

theorem namesDistinct_call : ∀ object ∈ [Object.calling "f", .labelled "f" true],
    object.symbols.NamesDistinct := by
  simp only [List.forall_mem_cons, SymbolTable.namesDistinct_iff_nodup]
  exact ⟨by decide +kernel, by decide +kernel, fun _ hnone ↦ by cases hnone⟩

theorem addressable_call : Addressable [.calling "f", .labelled "f" true] := by
  refine ⟨?_, by decide +kernel⟩
  simp only [List.forall_mem_cons]
  refine ⟨?_, ?_, fun _ hnone ↦ by cases hnone⟩
  · rintro (_ | _) <;> decide +kernel
  · rintro (_ | _) <;> decide +kernel

/-- In an image that was linked, placeholders hold the addresses of what they stand for, and all
other bytes are those of the objects. -/
theorem link_designates (hdistinct : ∀ object ∈ objects, object.symbols.NamesDistinct)
    (haddressable : Addressable objects) {linked : Object} {notices : List Notice}
    (hlink : link objects textBase entrySymbol = .ok (linked, notices)) :
    ∃ bases, layout objects textBase = .ok bases ∧ ∀ owner,
      (linked.contents owner).bytes.size = Object.start objects owner objects.length ∧
      ∀ place object base, objects[place]? = some object → bases[place]? = some base →
        (∀ position record, (object.contents owner).relocations[position]? = some record →
          Relocation.Isolated (object.contents owner).relocations position →
          ∃ word,
            wordAt? (linked.contents owner).bytes
              (Object.start objects owner place + record.address.toNat) = some word ∧
            Placed.Designates (Placed.all objects bases) ⟨object, base⟩ owner record word) ∧
        (∀ offset, offset < (object.contents owner).bytes.size →
          (∀ record ∈ (object.contents owner).relocations, ¬ Covers record.address.toNat offset) →
          (linked.contents owner).bytes[Object.start objects owner place + offset]? =
            (object.contents owner).bytes[offset]?) := by
  obtain ⟨bases, relocated, image, entry, hlayout, hrelocate, hfold, rfl⟩ := link_eq_ok hlink
  have hobjects := Placed.map_object_all (layout_eq_ok hlayout).1
  have hrelocates := Placed.relocateAll_eq_ok hrelocate
  have hmodules : ∀ module ∈ Placed.all objects bases, module.object.symbols.NamesDistinct :=
    fun module hmodule ↦ hdistinct _ (Placed.object_mem_of_mem_all hmodule)
  have hcarries := Image.carries_of_fold hrelocates hmodules
    (bounded_of_layout haddressable hlayout) hfold
  refine ⟨bases, hlayout, fun owner ↦ ?_⟩
  rw [contents_toObject]
  constructor
  · rw [hcarries.size_bytes, Object.start, List.take_length]
    conv_rhs => rw [← hobjects, List.map_map]
    rfl
  · intro place object base hobject hbase
    have hplace : (Placed.all objects bases)[place]? = some ⟨object, base⟩ :=
      Placed.getElem?_all.mpr ⟨hobject, hbase⟩
    constructor
    · intro position record hrecord hisolated
      have hdesignates := hcarries.designates hrelocates hmodules hplace hrecord hisolated
      rwa [hobjects] at hdesignates
    · intro offset hoffset hfree
      have houtside := hcarries.outside hrelocates hplace hoffset hfree
      rwa [hobjects] at houtside

/-- A call of a function in another object. -/
theorem link_designates_call :
    ∃ linked notices, link [.calling "f", .labelled "f" true] 0x100 "main" = .ok (linked, notices) ∧
      ∃ bases base word, layout [.calling "f", .labelled "f" true] 0x100 = .ok bases ∧
        bases[0]? = some base ∧ wordAt? (linked.contents .text).bytes 0 = some word ∧
        Placed.Designates (Placed.all [.calling "f", .labelled "f" true] bases)
          ⟨.calling "f", base⟩ .text (.ofSymbol 0 0) word := by
  have hsome : (link [.calling "f", .labelled "f" true] 0x100 "main").toOption.isSome := by
    decide +kernel
  obtain ⟨⟨linked, notices⟩, hlink⟩ := Fallible.exists_eq_ok_of_isSome hsome
  obtain ⟨bases, hlayout, hall⟩ := link_designates namesDistinct_call addressable_call hlink
  obtain ⟨base, hbase⟩ : ∃ base, bases[0]? = some base := by
    have hlength := (layout_eq_ok hlayout).1
    exact ⟨_, List.getElem?_eq_getElem (by rw [hlength]; decide)⟩
  have hrecord : ((Object.calling "f").contents .text).relocations = #[.ofSymbol 0 0] := by
    decide +kernel
  obtain ⟨word, hword, hdesignates⟩ := ((hall .text).2 0 _ base rfl hbase).1 0 (.ofSymbol 0 0)
    (by rw [hrecord]; rfl) (by
      intro record other place _ hother hplace
      rw [hrecord] at hother
      simp [hplace] at hother)
  exact ⟨linked, notices, hlink, bases, base, word, hlayout, hbase, hword, hdesignates⟩

end Aout
