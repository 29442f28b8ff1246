import Mathlib.Data.List.Induction
import Aout.Proofs.Bytes.Rendering
/-!
Words written in any order. Among slots of which any two are the same or share no byte, the order in
which words are written does not count, and neither does how often one is written: a byte that a
slot covers is a byte of its word (`Slot.getElem?_foldl_write_of_mem`), and every other byte stays.
So the slots as a set determine what is written (`Slot.foldl_write_congr`). Writing over one of two
byte strings that stand behind one another is writing over both at the right offset
(`Slot.foldl_write_append_left`, `Slot.foldl_write_append_right`).
-/

set_option autoImplicit false
set_option relaxedAutoImplicit false

namespace Aout

namespace Placeholder

/-- What is written does not depend on what was there. -/
theorem getElem?_overwrite_of_covers {bytes others : Array UInt8} (word : UInt16)
    {offset position : Nat} (hsize : bytes.size = others.size) (hinside : offset + 1 < bytes.size)
    (hcovers : Covers offset position) :
    (overwrite bytes offset word)[position]? = (overwrite others offset word)[position]? := by
  rw [overwrite, overwrite, if_pos (isInside_iff.mpr hinside),
    if_pos (isInside_iff.mpr (hsize ▸ hinside))]
  rcases hcovers with rfl | rfl
  · simp [Array.getElem?_setIfInBounds, hsize]
  · simp [Array.getElem?_setIfInBounds, hsize]

theorem overwrite_append_left {front : Array UInt8} {offset : Nat}
    (hinside : offset + 1 < front.size) (word : UInt16) (back : Array UInt8) :
    overwrite (front ++ back) offset word = overwrite front offset word ++ back := by
  have hjoint : offset + 1 < (front ++ back).size := by rw [Array.size_append]; omega
  rw [overwrite, overwrite, if_pos (isInside_iff.mpr hinside), if_pos (isInside_iff.mpr hjoint),
    Array.setIfInBounds_append_left (by omega), Array.setIfInBounds_append_left (by simpa)]

theorem overwrite_append_right (front back : Array UInt8) (offset : Nat) (word : UInt16) :
    overwrite (front ++ back) (front.size + offset) word = front ++ overwrite back offset word := by
  by_cases hinside : offset + 1 < back.size
  · have hjoint : front.size + offset + 1 < (front ++ back).size := by
      rw [Array.size_append]
      omega
    rw [overwrite, overwrite, if_pos (isInside_iff.mpr hinside), if_pos (isInside_iff.mpr hjoint),
      Array.setIfInBounds_append_right (by omega), Array.setIfInBounds_append_right (by omega)]
    congr 3 <;> omega
  · have hjoint : ¬ front.size + offset + 1 < (front ++ back).size := by
      rw [Array.size_append]
      omega
    rw [overwrite, overwrite, if_neg (mt isInside_iff.mp hinside),
      if_neg (mt isInside_iff.mp hjoint)]

end Placeholder

open Placeholder

namespace Slot

/-- Any two of the slots are the same, or share no byte. -/
def Separate (slots : List Slot) : Prop :=
  ∀ slot ∈ slots, ∀ other ∈ slots, slot = other ∨ Apart slot.offset other.offset

variable {slots others : List Slot} {bytes : Array UInt8}

theorem Separate.mono (hseparate : Separate slots) (hothers : others ⊆ slots) : Separate others :=
  fun slot hslot other hother ↦ hseparate slot (hothers hslot) other (hothers hother)

/-- Whichever words are written before and after, a covered byte is one of the word of its slot. -/
theorem getElem?_foldl_write_of_mem (hseparate : Separate slots) {slot : Slot}
    (hslot : slot ∈ slots) (hinside : slot.offset + 1 < bytes.size) {position : Nat}
    (hcovers : Covers slot.offset position) :
    (slots.foldl write bytes)[position]? = (slot.write bytes)[position]? := by
  -- The last word decides: it is the word of this slot, or it covers none of its bytes.
  induction slots using List.reverseRecOn with
  | nil => cases hslot
  | append_singleton earlier last ih =>
    rw [List.foldl_append, List.foldl_cons, List.foldl_nil]
    have hlast : last ∈ earlier ++ [last] := List.mem_append_right _ (List.mem_singleton_self last)
    rcases hseparate slot hslot last hlast with rfl | hapart
    · have hsize := size_foldl_write earlier bytes
      exact getElem?_overwrite_of_covers _ hsize (hsize ▸ hinside) hcovers
    · have hfree : ¬ Covers last.offset position := by
        unfold Covers Apart at *
        omega
      have hearlier : slot ∈ earlier := by
        refine (List.mem_append.mp hslot).resolve_right fun hsame ↦ ?_
        rw [List.mem_singleton.mp hsame] at hcovers
        exact hfree hcovers
      rw [write, getElem?_overwrite_of_not_covers _ _ hfree]
      exact ih (hseparate.mono (List.subset_append_left _ _)) hearlier

theorem getElem?_foldl_write_of_free {position : Nat}
    (hfree : ∀ slot ∈ slots, ¬ Covers slot.offset position) :
    (slots.foldl write bytes)[position]? = bytes[position]? :=
  ((Frames.self ⟨bytes, slots⟩).foldl_write fun slot hslot ↦ ⟨slot, hslot, rfl⟩).outside
    position hfree

/-- Only which slots are written counts. -/
theorem foldl_write_congr (hseparate : Separate slots)
    (hinside : ∀ slot ∈ slots, slot.offset + 1 < bytes.size)
    (hsame : ∀ slot, slot ∈ others ↔ slot ∈ slots) :
    others.foldl write bytes = slots.foldl write bytes := by
  apply Array.ext_getElem?
  intro position
  by_cases hcovered : ∃ slot ∈ slots, Covers slot.offset position
  · obtain ⟨slot, hslot, hcovers⟩ := hcovered
    rw [getElem?_foldl_write_of_mem hseparate hslot (hinside slot hslot) hcovers,
      getElem?_foldl_write_of_mem (hseparate.mono fun _ hother ↦ (hsame _).mp hother)
        ((hsame slot).mpr hslot) (hinside slot hslot) hcovers]
  · have hfree : ∀ slot ∈ slots, ¬ Covers slot.offset position :=
      fun slot hslot hcovers ↦ hcovered ⟨slot, hslot, hcovers⟩
    rw [getElem?_foldl_write_of_free hfree,
      getElem?_foldl_write_of_free fun slot hslot ↦ hfree slot ((hsame slot).mp hslot)]

theorem foldl_write_append_left {front : Array UInt8}
    (hinside : ∀ slot ∈ slots, slot.offset + 1 < front.size) (back : Array UInt8) :
    slots.foldl write (front ++ back) = slots.foldl write front ++ back := by
  induction slots generalizing front with
  | nil => rfl
  | cons slot rest ih =>
    rw [List.forall_mem_cons] at hinside
    rw [List.foldl_cons, List.foldl_cons, write, overwrite_append_left hinside.1]
    exact ih (by simpa [write] using hinside.2)

theorem foldl_write_append_right (front back : Array UInt8) (slots : List Slot) :
    (slots.map (moved front.size)).foldl write (front ++ back) =
      front ++ slots.foldl write back := by
  induction slots generalizing back with
  | nil => rfl
  | cons slot rest ih =>
    rw [List.map_cons, List.foldl_cons, List.foldl_cons, write, offset_moved, word_moved,
      overwrite_append_right]
    exact ih _

end Slot

end Aout
