import Aout.Proofs.Linking.Evolution
import Aout.Proofs.Linking.Placeholders
import Aout.Proofs.Linking.Provenance
import Aout.Proofs.Object.Saving
/-!
Every object that the operations of this library lead to (`Object.Built`) can be saved: once it is
small enough for a file, it is read from its file as it was written
(`Object.Built.exists_decode_encode`). Linking is one of the operations, so this needs that
relocating an object and taking in another one keep it sound, also where a fault stops them halfway.
-/

set_option autoImplicit false
set_option relaxedAutoImplicit false

namespace Aout

namespace Object

/-- The objects that building, stripping and linking lead to, starting from the empty object and
from files. Names have no zero byte, and records fit into a file. -/
def Built : Object → Prop :=
  Arises {
    Starts := fun object ↦ object = .empty ∨ ∃ bytes, decode bytes = .ok object
    Permits := Edit.Storable
    confined := True }

variable {before after object other : Object}

theorem Sound.relocates {modules : List Placed} {placed : Placed} {module : Relocated}
    (hsound : placed.object.Sound) (hrelocates : Placed.Relocates modules placed module) :
    module.object.Sound :=
  hsound.congr hrelocates.magic hrelocates.names (by rw [hrelocates.symbols]) hrelocates.relocations

/-- A record that an object holds while it takes in another one is one that a file can hold. -/
theorem Inherits.bounded {owner : StoredSegment} {record : Relocation} (hsound : object.Sound)
    (hother : other.Sound) (hrecord : Inherits other owner object record) :
    record.Bounded object.symbols.size := by
  induction hrecord with
  | own hrecord => exact hsound.bounded owner _ hrecord
  | internal hrecord hinternal address =>
    have hformer := hother.bounded owner _ hrecord
    have hindex := hformer.internal hinternal
    exact ⟨Nat.lt_of_lt_of_le hindex (Nat.le_max_left _ _), fun _ ↦ hindex, hformer.length,
      hformer.spare⟩
  | @pointed record hrecord hexternal position hposition address =>
    have hformer := hother.bounded owner _ hrecord
    refine ⟨?_, fun hinternal ↦ ?_, hformer.length, hformer.spare⟩
    -- The position may have outgrown its field, but not the table.
    · have hindex : (UInt32.ofNat position).toNat ≤ position := Nat.mod_le _ _
      exact Nat.lt_of_lt_of_le (Nat.lt_of_le_of_lt hindex hposition) (Nat.le_max_right _ _)
    · exact absurd (hexternal.symm.trans hinternal) (by decide)
  | settled _ segment ih =>
    have htag : segment.tag.toNat < Relocation.indexLimit := by cases segment <;> decide
    exact ⟨Nat.lt_of_lt_of_le htag (Nat.le_max_left _ _), fun _ ↦ htag, ih.length, ih.spare⟩

/-- Sound objects stay sound when they take in a sound one. -/
theorem Sound.evolves (hsound : before.Sound) (hother : other.Sound)
    (hsteps : Evolves other before after) : after.Sound := by
  induction hsteps with
  | refl => exact hsound
  | enter _ hentry _ _ symbol ih =>
    exact ih.enter (hother.free _ (List.mem_map_of_mem (Array.mem_toList_iff.mpr hentry))) symbol
  | redefine _ _ _ kind value ih =>
    exact ih.congr rfl rfl (SymbolTable.spellings_redefine ..) fun _ ↦ rfl
  | mapValues _ valueOf ih =>
    exact ih.congr rfl rfl (SymbolTable.spellings_mapValues ..) fun _ ↦ rfl
  | setBss _ bssSize ih => exact ih.congr rfl rfl rfl fun _ ↦ rfl
  | setContents _ owner hrecords ih =>
    exact ih.setContents owner fun record hrecord ↦ (hrecords record hrecord).bounded ih hother

/-- Every operation keeps objects sound. -/
theorem Built.sound (hbuilt : object.Built) : object.Sound := by
  induction hbuilt with
  | start hstart =>
    rcases hstart with rfl | ⟨bytes, hread⟩
    · exact sound_empty
    · exact (decode_eq_ok_iff.mp hread).1.sound
  | edit _ hstorable ih => exact ih.edit hstorable
  | relocate _ hyields ih =>
    obtain ⟨modules, hrelocates⟩ := hyields.relocates
    exact ih.relocates hrelocates
  | concat _ _ ih ihOther => exact ih.evolves (ihOther trivial) (Relocated.concat_evolves ..)
  | toObject _ ih => exact ih.evolves sound_empty (Relocated.evolves_rebase (.refl _))

/-- A built object that is small enough for a file is read from its file as it was written. Only the
structures that speed up lookups are built anew. -/
theorem Built.exists_decode_encode (hbuilt : object.Built) (hsmall : object.Small) :
    ∃ decoded, Object.decode object.encode = .ok decoded ∧
      decoded.header = object.header ∧ decoded.entry = object.entry ∧
      decoded.text = object.text ∧ decoded.data = object.data ∧
      decoded.bssSize = object.bssSize ∧ decoded.symbols.entries = object.symbols.entries ∧
      decoded.names = object.names ∧
      ∀ name, decoded.symbols.position? name = object.symbols.position? name :=
  ⟨object.reindexed, (hbuilt.sound.writable hsmall).decode_encode, header_reindexed object, rfl,
    rfl, rfl, rfl, entries_reindexed object, rfl, position?_reindexed object⟩

theorem built_edited {edits : List Edit} (hstorable : ∀ edit ∈ edits, edit.Storable) :
    (Object.empty.edited edits).Built := by
  have hempty : Built .empty := .start (.inl rfl)
  exact hempty.edited hstorable

theorem built_labelled {name : String} (hfree : 0 ∉ Utf8.encode name) (visible : Bool) :
    (labelled name visible).Built :=
  built_edited (by simp [Edit.Storable, hfree])

theorem built_calling {name : String} (hfree : 0 ∉ Utf8.encode name) : (calling name).Built := by
  have hrecord : (Relocation.ofSymbol 0 0).Storable :=
    ⟨by decide +kernel, by decide +kernel, by decide +kernel⟩
  exact built_edited (by simp [Edit.Storable, hfree, hrecord])

/-- An image that was linked from a call and what it calls. -/
theorem Built.exists_decode_encode_call :
    ∃ linked notices,
      Aout.link [.calling "f", .labelled "f" true] 0x100 "main" = .ok (linked, notices) ∧
      linked.Built ∧ linked.Small ∧ ∃ decoded, Object.decode linked.encode = .ok decoded ∧
        decoded.header = linked.header ∧
        decoded.symbols.position? "f" = linked.symbols.position? "f" := by
  have hsome : (Aout.link [.calling "f", .labelled "f" true] 0x100 "main").toOption.any
      fun linked ↦ linked.1.Small := by
    decide +kernel
  obtain ⟨⟨linked, notices⟩, hfound, hsmall⟩ := (Option.any_eq_true _ _).mp hsome
  have hlink := Fallible.eq_ok_of_toOption hfound
  have hsmall : linked.Small := of_decide_eq_true hsmall
  have hbuilt : linked.Built := by
    have hfree : 0 ∉ Utf8.encode "f" := by decide +kernel
    refine .link (fun _ ↦ trivial) (fun object hobject ↦ ?_) hlink
    rcases List.mem_pair.mp hobject with rfl | rfl
    · exact built_calling hfree
    · exact built_labelled hfree true
  obtain ⟨decoded, hdecode, hheader, -, -, -, -, -, -, hposition⟩ :=
    Built.exists_decode_encode hbuilt hsmall
  exact ⟨linked, notices, hlink, hbuilt, hsmall, decoded, hdecode, hheader, hposition "f"⟩

end Object

end Aout
