import Mathlib.Data.List.Pairwise
import Aout.Proofs.Bytes.Overwriting
import Aout.Proofs.Linking.Meaning
/-!
Placeholders that stand for names. A reference gives the name of a symbol where a relocation record
has a position in a table, and a fragment is a byte string with references. Once names mean
something, the address of its name is written over each placeholder, and the reference points into
the segment of the name from then on (`Reference.resolve`, `Fragment.resolve`).

It makes no difference whether all meanings are at hand at once. A reference that is resolved with
some of them first, and with all of them later, comes to the same (`Reference.resolve_resolve`), and
so do all references of one byte string, because the placeholders meet nowhere
(`Fragment.resolve_resolve`). Two fragments may as well be resolved before they are put behind one
another as afterwards (`Fragment.resolve_append`).
-/

set_option autoImplicit false
set_option relaxedAutoImplicit false

namespace Aout

open Placeholder

/-- What a placeholder stands for: a segment, given by its tag, or a name. A record whose position
lies beyond the symbol table gives no name. -/
inductive Target
  | tagged (tag : UInt32)
  | named (name? : Option String)

/-- A relocation record that gives a symbol by its name. -/
structure Reference where
  address : Nat
  pcRelative : Bool
  length : UInt8
  spare : UInt8
  target : Target

namespace Reference

/-- The name for which the placeholder stands. -/
def name? (reference : Reference) : Option String :=
  match reference.target with
  | .tagged _ => none
  | .named name? => name?

/-- The reference behind a number of bytes. -/
def moved (shift : Nat) (reference : Reference) : Reference :=
  { reference with address := shift + reference.address }

/-- The reference once its placeholder holds an address in a segment. Without a segment it goes on
standing for its name. -/
def settled (segment? : Option Segment) (reference : Reference) : Reference :=
  match segment? with
  | some segment => { reference with target := .tagged segment.tag }
  | none => reference

/-- What the name of the reference means, if it has one. -/
def meaning? (meanings : String → Option Meaning) (reference : Reference) : Option Meaning :=
  reference.name?.bind meanings

/-- The word that belongs over the placeholder once names mean something. -/
def slot? (meanings : String → Option Meaning) (reference : Reference) : Option Slot :=
  (reference.meaning? meanings).map fun meaning ↦ ⟨reference.address, meaning.address.toUInt16⟩

def resolve (meanings : String → Option Meaning) (reference : Reference) : Reference :=
  reference.settled ((reference.meaning? meanings).bind (·.kind.segment?))

variable {reference : Reference} {former meanings : String → Option Meaning} {name : String}

@[simp] theorem name?_moved (shift : Nat) (reference : Reference) :
    (reference.moved shift).name? = reference.name? := rfl

@[simp] theorem meaning?_moved (meanings : String → Option Meaning) (shift : Nat)
    (reference : Reference) :
    (reference.moved shift).meaning? meanings = reference.meaning? meanings := rfl

@[simp] theorem address_settled (segment? : Option Segment) (reference : Reference) :
    (reference.settled segment?).address = reference.address := by
  cases segment? <;> rfl

@[simp] theorem address_resolve (meanings : String → Option Meaning) (reference : Reference) :
    (reference.resolve meanings).address = reference.address :=
  address_settled _ reference

@[simp] theorem moved_moved (first second : Nat) (reference : Reference) :
    (reference.moved second).moved first = reference.moved (first + second) := by
  simp [moved, Nat.add_assoc]

theorem resolve_moved (meanings : String → Option Meaning) (shift : Nat) (reference : Reference) :
    (reference.moved shift).resolve meanings = (reference.resolve meanings).moved shift := by
  rw [resolve, resolve, meaning?_moved]
  cases (reference.meaning? meanings).bind (·.kind.segment?) <;> rfl

theorem slot?_moved (meanings : String → Option Meaning) (shift : Nat) (reference : Reference) :
    (reference.moved shift).slot? meanings = (reference.slot? meanings).map (.moved shift) := by
  rw [slot?, slot?, meaning?_moved, Option.map_map]
  rfl

theorem offset_of_slot? {slot : Slot} (hslot : reference.slot? meanings = some slot) :
    slot.offset = reference.address := by
  obtain ⟨meaning, -, rfl⟩ := Option.map_eq_some_iff.mp hslot
  rfl

/-- No reference comes to stand for a name by being resolved. -/
theorem name?_of_resolve (hname : (reference.resolve meanings).name? = some name) :
    reference.name? = some name := by
  unfold resolve settled at hname
  split at hname
  · cases hname
  · exact hname

/-- A name that means nothing yet goes on being referred to. -/
theorem resolve_of_unknown (hname : reference.name? = some name) (hunknown : meanings name = none) :
    reference.resolve meanings = reference := by
  rw [resolve, meaning?, hname, Option.bind_some, hunknown]
  rfl

/-- A reference stays what it is, or it no longer stands for a name. -/
theorem resolve_eq_self_or (meanings : String → Option Meaning) (reference : Reference) :
    reference.resolve meanings = reference ∨ (reference.resolve meanings).name? = none := by
  unfold resolve settled
  split
  · exact .inr rfl
  · exact .inl rfl

theorem resolve_of_name?_eq_none (hnone : reference.name? = none) :
    reference.resolve meanings = reference := by
  rw [resolve, meaning?, hnone]
  rfl

theorem slot?_of_name?_eq_none (hnone : reference.name? = none) :
    reference.slot? meanings = none := by
  rw [slot?, meaning?, hnone]
  rfl

/-- Of some meanings and further ones, the first leave a reference alone or all agree on it. -/
theorem meaning?_eq_or
    (hmore : ∀ name meaning, former name = some meaning → meanings name = some meaning)
    (reference : Reference) :
    reference.meaning? former = none ∨ reference.meaning? former = reference.meaning? meanings := by
  cases hname : reference.name? with
  | none => exact .inl (by rw [meaning?, hname]; rfl)
  | some name =>
    simp only [meaning?, hname, Option.bind_some]
    cases hformer : former name with
    | none => exact .inl rfl
    | some meaning => exact .inr (hmore name meaning hformer).symm

/-- To resolve with some meanings first makes no difference to what all of them make of a
reference. -/
theorem resolve_resolve
    (hmore : ∀ name meaning, former name = some meaning → meanings name = some meaning)
    (reference : Reference) :
    (reference.resolve former).resolve meanings = reference.resolve meanings := by
  rcases meaning?_eq_or hmore reference with hnone | hagree
  · have hself : reference.resolve former = reference := by rw [resolve, hnone]; rfl
    rw [hself]
  · have hsame : reference.resolve former = reference.resolve meanings := by
      rw [resolve, hagree, resolve]
    rw [hsame]
    rcases resolve_eq_self_or meanings reference with hself | hsettled
    · rw [hself, hself]
    · exact resolve_of_name?_eq_none hsettled

/-- The word that all meanings put over a placeholder is put there by the first of them, or by the
others once the first have resolved what they can. -/
theorem slot?_eq_some_iff
    (hmore : ∀ name meaning, former name = some meaning → meanings name = some meaning)
    {slot : Slot} : reference.slot? meanings = some slot ↔
      reference.slot? former = some slot ∨
        (reference.resolve former).slot? meanings = some slot := by
  rcases meaning?_eq_or hmore reference with hnone | hagree
  · have hself : reference.resolve former = reference := by rw [resolve, hnone]; rfl
    have hfree : reference.slot? former = none := by rw [slot?, hnone]; rfl
    simp [hself, hfree]
  · have hsame : reference.slot? former = reference.slot? meanings := by rw [slot?, hagree, slot?]
    rw [hsame, iff_self_or]
    rcases resolve_eq_self_or former reference with hself | hsettled
    · rw [hself]
      exact id
    · rw [slot?_of_name?_eq_none hsettled]
      exact fun hnone ↦ by cases hnone

end Reference

/-- The bytes of a segment, and the placeholders among them. -/
structure Fragment where
  bytes : Array UInt8
  references : List Reference

namespace Fragment

/-- One fragment behind the other. -/
def append (first second : Fragment) : Fragment :=
  ⟨first.bytes ++ second.bytes, first.references ++ second.references.map (.moved first.bytes.size)⟩

/-- The words that belong over the placeholders once names mean something. -/
def slots (meanings : String → Option Meaning) (fragment : Fragment) : List Slot :=
  fragment.references.filterMap (·.slot? meanings)

/-- The fragment with the words written, and the references resolved. -/
def resolve (meanings : String → Option Meaning) (fragment : Fragment) : Fragment :=
  ⟨(fragment.slots meanings).foldl Slot.write fragment.bytes,
    fragment.references.map (·.resolve meanings)⟩

/-- Some placeholder stands for the name. -/
def refersTo (fragment : Fragment) (name : String) : Bool :=
  fragment.references.any fun reference ↦ reference.name? == some name

/-- The placeholders lie inside the bytes, and no two of them share one. -/
structure Sound (fragment : Fragment) : Prop where
  inside : ∀ reference ∈ fragment.references, reference.address + 1 < fragment.bytes.size
  apart : fragment.references.Pairwise fun first second ↦ Apart first.address second.address

variable {fragment first second : Fragment} {former meanings : String → Option Meaning}
  {name : String}

theorem append_assoc (first second third : Fragment) :
    (first.append second).append third = first.append (second.append third) := by
  simp [append, Function.comp_def]

theorem mem_slots {slot : Slot} : slot ∈ fragment.slots meanings ↔
    ∃ reference ∈ fragment.references, reference.slot? meanings = some slot :=
  List.mem_filterMap

theorem slots_append (first second : Fragment) : (first.append second).slots meanings =
    first.slots meanings ++ (second.slots meanings).map (.moved first.bytes.size) := by
  simp only [slots, append, List.filterMap_append, List.filterMap_map, List.map_filterMap,
    Function.comp_def, Reference.slot?_moved]

@[simp] theorem size_resolve (meanings : String → Option Meaning) (fragment : Fragment) :
    (fragment.resolve meanings).bytes.size = fragment.bytes.size :=
  Slot.size_foldl_write ..

theorem refersTo_iff : fragment.refersTo name ↔
    ∃ reference ∈ fragment.references, reference.name? = some name := by
  simp [refersTo]

theorem refersTo_append (first second : Fragment) (name : String) :
    (first.append second).refersTo name = (first.refersTo name || second.refersTo name) := by
  simp [refersTo, append, List.any_append, Function.comp_def]

/-- A name to which a resolved fragment refers is one to which the fragment referred. -/
theorem refersTo_of_resolve (hrefers : (fragment.resolve meanings).refersTo name) :
    fragment.refersTo name := by
  rw [refersTo_iff] at hrefers ⊢
  obtain ⟨resolved, hresolved, hname⟩ := hrefers
  obtain ⟨reference, hreference, rfl⟩ := List.mem_map.mp hresolved
  exact ⟨reference, hreference, Reference.name?_of_resolve hname⟩

theorem refersTo_resolve_of_unknown (hunknown : meanings name = none) :
    (fragment.resolve meanings).refersTo name = fragment.refersTo name := by
  rw [Bool.eq_iff_iff]
  refine ⟨refersTo_of_resolve, fun hrefers ↦ ?_⟩
  rw [refersTo_iff] at hrefers ⊢
  obtain ⟨reference, hreference, hname⟩ := hrefers
  refine ⟨_, List.mem_map_of_mem hreference, ?_⟩
  rw [Reference.resolve_of_unknown hname hunknown, hname]

namespace Sound

theorem slot_inside (hsound : fragment.Sound) {slot : Slot}
    (hslot : slot ∈ fragment.slots meanings) : slot.offset + 1 < fragment.bytes.size := by
  obtain ⟨reference, hreference, hsome⟩ := mem_slots.mp hslot
  rw [Reference.offset_of_slot? hsome]
  exact hsound.inside reference hreference

theorem separate (hsound : fragment.Sound) : Slot.Separate (fragment.slots meanings) := by
  intro slot hslot other hother
  obtain ⟨reference, hreference, hslot⟩ := mem_slots.mp hslot
  obtain ⟨latter, hlatter, hother⟩ := mem_slots.mp hother
  by_cases hsame : reference = latter
  · exact .inl (Option.some.inj (hslot.symm.trans (hsame ▸ hother)))
  · rw [Reference.offset_of_slot? hslot, Reference.offset_of_slot? hother]
    have : Std.Symm fun first second : Reference ↦ Apart first.address second.address :=
      ⟨fun _ _ ↦ Or.symm⟩
    exact .inr (hsound.apart.forall hreference hlatter hsame)

theorem append (hfirst : first.Sound) (hsecond : second.Sound) : (first.append second).Sound where
  inside := by
    intro reference hreference
    rw [Fragment.append, Array.size_append]
    rcases List.mem_append.mp hreference with hfront | hback
    · have hinside := hfirst.inside reference hfront
      omega
    · obtain ⟨source, hsource, rfl⟩ := List.mem_map.mp hback
      have hinside := hsecond.inside source hsource
      simp only [Reference.moved]
      omega
  apart := by
    refine List.pairwise_append.mpr ⟨hfirst.apart, ?_, fun front hfront back hback ↦ ?_⟩
    · refine List.pairwise_map.mpr (hsecond.apart.imp fun hapart ↦ ?_)
      simp only [Reference.moved, Apart] at hapart ⊢
      omega
    · obtain ⟨source, -, rfl⟩ := List.mem_map.mp hback
      have hinside := hfirst.inside front hfront
      exact .inl (Nat.lt_of_lt_of_le hinside (Nat.le_add_right _ _))

theorem resolve (hsound : fragment.Sound) (meanings : String → Option Meaning) :
    (fragment.resolve meanings).Sound where
  inside := by
    intro resolved hresolved
    obtain ⟨reference, hreference, rfl⟩ := List.mem_map.mp hresolved
    rw [Reference.address_resolve, size_resolve]
    exact hsound.inside reference hreference
  apart := by
    refine List.pairwise_map.mpr (hsound.apart.imp fun hapart ↦ ?_)
    rwa [Reference.address_resolve, Reference.address_resolve]

end Sound

/-- Resolving goes through the joint of two fragments. -/
theorem resolve_append (hfirst : first.Sound) :
    (first.append second).resolve meanings =
      (first.resolve meanings).append (second.resolve meanings) := by
  have hbytes : ((first.append second).slots meanings).foldl Slot.write
      (first.bytes ++ second.bytes) = (first.slots meanings).foldl Slot.write first.bytes ++
        (second.slots meanings).foldl Slot.write second.bytes := by
    rw [slots_append, List.foldl_append,
      Slot.foldl_write_append_left fun _ hslot ↦ hfirst.slot_inside hslot]
    conv_lhs => rw [← Slot.size_foldl_write (first.slots meanings) first.bytes]
    exact Slot.foldl_write_append_right ..
  have hreferences : (first.append second).references.map (·.resolve meanings) =
      first.references.map (·.resolve meanings) ++
        (second.references.map (·.resolve meanings)).map
          (.moved (first.resolve meanings).bytes.size) := by
    simp [append, Function.comp_def, Reference.resolve_moved]
  calc (first.append second).resolve meanings
      = ⟨_, _⟩ := congrArg₂ Fragment.mk hbytes hreferences
    _ = (first.resolve meanings).append (second.resolve meanings) := rfl

/-- To resolve with some meanings first makes no difference to what all of them make of a
fragment. -/
theorem resolve_resolve (hsound : fragment.Sound)
    (hmore : ∀ name meaning, former name = some meaning → meanings name = some meaning) :
    (fragment.resolve former).resolve meanings = fragment.resolve meanings := by
  have hsame (slot : Slot) : slot ∈ fragment.slots former ++
      (fragment.resolve former).slots meanings ↔ slot ∈ fragment.slots meanings := by
    rw [List.mem_append, mem_slots, mem_slots, mem_slots, Fragment.resolve]
    simp only [List.mem_map, exists_exists_and_eq_and, ← exists_or, ← and_or_left]
    exact exists_congr fun _ ↦ and_congr_right fun _ ↦ (Reference.slot?_eq_some_iff hmore).symm
  have hbytes := Slot.foldl_write_congr hsound.separate (fun _ ↦ hsound.slot_inside) hsame
  rw [List.foldl_append] at hbytes
  have hreferences : (fragment.resolve former).references.map (·.resolve meanings) =
      fragment.references.map (·.resolve meanings) := by
    simp [Fragment.resolve, Function.comp_def, Reference.resolve_resolve hmore]
  exact congrArg₂ Fragment.mk hbytes hreferences

end Fragment

end Aout
