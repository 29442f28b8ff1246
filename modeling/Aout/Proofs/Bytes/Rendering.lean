import Mathlib.Algebra.GroupWithZero.Nat
import Aout.Linking.Placed
/-!
Words written over a byte string. A slot is a placeholder together with the word that belongs there,
and a template is a byte string with slots. Another byte string *frames* a template (`Frames`) when
it has the template's bytes outside all placeholders, and it *renders* the template (`Renders`) when
it also has the right word at each placeholder that shares no byte with another one.

Writing a word that belongs to one of the slots keeps a rendering (`Renders.write`), whatever the
order and however often it happens, and renderings can be put behind one another (`Renders.append`).
These two facts carry the contents of placeholders through any number of concatenations;
`Renders.word_of_join` and `Frames.outside_of_join` read them off in the end.
-/

set_option autoImplicit false
set_option relaxedAutoImplicit false

namespace Aout

namespace Placeholder

/-- The placeholders at two offsets share no byte. -/
def Apart (first second : Nat) : Prop :=
  first + 1 < second ∨ second + 1 < first

/-- One of the two bytes of the placeholder at an offset stands at a position. -/
def Covers (offset position : Nat) : Prop :=
  position = offset ∨ position = offset + 1

@[simp] theorem size_overwrite (bytes : Array UInt8) (offset : Nat) (word : UInt16) :
    (overwrite bytes offset word).size = bytes.size := by
  unfold overwrite
  split <;> simp

theorem getElem?_overwrite_of_not_covers (bytes : Array UInt8) (word : UInt16)
    {offset position : Nat} (hfree : ¬ Covers offset position) :
    (overwrite bytes offset word)[position]? = bytes[position]? := by
  obtain ⟨hlow, hhigh⟩ := not_or.mp hfree
  unfold overwrite
  split
  · rw [Array.getElem?_setIfInBounds_ne (Ne.symm hhigh),
      Array.getElem?_setIfInBounds_ne (Ne.symm hlow)]
  · rfl

theorem wordAt?_overwrite {bytes : Array UInt8} {offset : Nat} (word : UInt16)
    (hinside : offset + 1 < bytes.size) :
    wordAt? (overwrite bytes offset word) offset = some word :=
  wordAt?_of_setWordAt? (if_pos (isInside_iff.mpr hinside))

/-- A word is read off its two bytes. -/
theorem wordAt?_congr {bytes others : Array UInt8} {offset place : Nat}
    (hlow : bytes[offset]? = others[place]?) (hhigh : bytes[offset + 1]? = others[place + 1]?) :
    wordAt? bytes offset = wordAt? others place := by
  unfold wordAt?
  rw [hlow, hhigh]

theorem wordAt?_overwrite_of_apart (bytes : Array UInt8) (word : UInt16) {offset other : Nat}
    (hapart : Apart offset other) :
    wordAt? (overwrite bytes offset word) other = wordAt? bytes other := by
  apply wordAt?_congr <;> apply getElem?_overwrite_of_not_covers <;>
    · unfold Covers
      unfold Apart at hapart
      omega

theorem wordAt?_append_left {front : Array UInt8} (back : Array UInt8) {offset : Nat}
    (hinside : offset + 1 < front.size) : wordAt? (front ++ back) offset = wordAt? front offset :=
  wordAt?_congr (Array.getElem?_append_left (by omega)) (Array.getElem?_append_left hinside)

theorem wordAt?_append_right (front back : Array UInt8) (offset : Nat) :
    wordAt? (front ++ back) (front.size + offset) = wordAt? back offset := by
  apply wordAt?_congr
  · rw [Array.getElem?_append_right (by omega), Nat.add_sub_cancel_left]
  · rw [Array.getElem?_append_right (by omega), Nat.add_assoc, Nat.add_sub_cancel_left]

end Placeholder

open Placeholder

/-- A placeholder, and the word that belongs there. -/
structure Slot where
  offset : Nat
  word : UInt16

namespace Slot

/-- The slot moved up by a number of bytes. -/
def moved (shift : Nat) (slot : Slot) : Slot :=
  ⟨shift + slot.offset, slot.word⟩

@[simp] theorem offset_moved (shift : Nat) (slot : Slot) :
    (slot.moved shift).offset = shift + slot.offset := rfl

@[simp] theorem word_moved (shift : Nat) (slot : Slot) : (slot.moved shift).word = slot.word := rfl

@[simp] theorem moved_zero (slot : Slot) : slot.moved 0 = slot := by
  simp [moved]

@[simp] theorem moved_moved (first second : Nat) (slot : Slot) :
    (slot.moved second).moved first = slot.moved (first + second) := by
  simp [moved, Nat.add_assoc]

def write (bytes : Array UInt8) (slot : Slot) : Array UInt8 :=
  overwrite bytes slot.offset slot.word

/-- The slot at a position of a list shares no byte with any other one. -/
def Isolated (slots : List Slot) (position : Nat) : Prop :=
  ∀ slot other place, slots[position]? = some slot → slots[place]? = some other →
    place ≠ position → Apart other.offset slot.offset

theorem size_foldl_write (slots : List Slot) (bytes : Array UInt8) :
    (slots.foldl write bytes).size = bytes.size := by
  induction slots generalizing bytes with
  | nil => rfl
  | cons slot rest ih => rw [List.foldl_cons, ih, write, size_overwrite]

theorem wordAt?_foldl_write_of_apart {slots : List Slot} {offset : Nat}
    (hapart : ∀ slot ∈ slots, Apart slot.offset offset) (bytes : Array UInt8) :
    wordAt? (slots.foldl write bytes) offset = wordAt? bytes offset := by
  induction slots generalizing bytes with
  | nil => rfl
  | cons slot rest ih =>
    rw [List.forall_mem_cons] at hapart
    rw [List.foldl_cons, ih hapart.2, write, wordAt?_overwrite_of_apart _ _ hapart.1]

/-- Of several words written in turn, one stays where no later one meets it. -/
theorem wordAt?_foldl_write_of_later_apart {slot : Slot} {later : List Slot}
    (hapart : ∀ other ∈ later, Apart other.offset slot.offset) (earlier : List Slot)
    {bytes : Array UInt8} (hinside : slot.offset + 1 < bytes.size) :
    wordAt? ((earlier ++ slot :: later).foldl write bytes) slot.offset = some slot.word := by
  rw [List.foldl_append, List.foldl_cons, wordAt?_foldl_write_of_apart hapart, write,
    wordAt?_overwrite _ (by rwa [size_foldl_write])]

variable {front back : List Slot} {size position : Nat}

theorem Isolated.of_append_left (hisolated : Isolated (front ++ back) position)
    (hposition : position < front.length) : Isolated front position := by
  intro slot other place hslot hother hne
  have hplace := (List.getElem?_eq_some_iff.mp hother).1
  exact hisolated slot other place ((List.getElem?_append_left hposition).trans hslot)
    ((List.getElem?_append_left hplace).trans hother) hne

theorem Isolated.of_append_right
    (hisolated : Isolated (front ++ back.map (moved size)) (front.length + position)) :
    Isolated back position := by
  have hback (place : Nat) : (front ++ back.map (moved size))[front.length + place]? =
      back[place]?.map (moved size) := by
    rw [List.getElem?_append_right (by omega), Nat.add_sub_cancel_left, List.getElem?_map]
  intro slot other place hslot hother hne
  have hapart := hisolated (slot.moved size) (other.moved size) (front.length + place)
    (by rw [hback, hslot]; rfl) (by rw [hback, hother]; rfl) (by omega)
  simp only [Apart, offset_moved] at hapart ⊢
  omega

/-- Slots inside a byte string stay isolated when those of another one come behind them. -/
theorem Isolated.append_left (hisolated : Isolated front position)
    (hposition : position < front.length) (hinside : ∀ slot ∈ front, slot.offset + 1 < size)
    (back : List Slot) : Isolated (front ++ back.map (moved size)) position := by
  intro slot other place hslot hother hne
  rw [List.getElem?_append_left hposition] at hslot
  by_cases hplace : place < front.length
  · rw [List.getElem?_append_left hplace] at hother
    exact hisolated slot other place hslot hother hne
  · rw [List.getElem?_append_right (by omega), List.getElem?_map, Option.map_eq_some_iff] at hother
    obtain ⟨source, -, rfl⟩ := hother
    have hlow := hinside slot (List.mem_of_getElem? hslot)
    simp only [Apart, offset_moved]
    omega

theorem Isolated.append_right (hisolated : Isolated back position)
    (hinside : ∀ slot ∈ front, slot.offset + 1 < size) :
    Isolated (front ++ back.map (moved size)) (front.length + position) := by
  intro slot other place hslot hother hne
  rw [List.getElem?_append_right (by omega), Nat.add_sub_cancel_left, List.getElem?_map,
    Option.map_eq_some_iff] at hslot
  obtain ⟨source, hsource, rfl⟩ := hslot
  by_cases hplace : place < front.length
  · rw [List.getElem?_append_left hplace] at hother
    have hlow := hinside other (List.mem_of_getElem? hother)
    simp only [Apart, offset_moved]
    omega
  · rw [List.getElem?_append_right (by omega), List.getElem?_map, Option.map_eq_some_iff] at hother
    obtain ⟨target, htarget, rfl⟩ := hother
    have hapart := hisolated source target _ hsource htarget (by omega)
    simp only [Apart, offset_moved] at hapart ⊢
    omega

end Slot

/-- The slot that a patch fills. -/
def Patch.slot (patch : Patch) : Slot :=
  ⟨patch.address.toNat, patch.word⟩

theorem Patch.foldl_write (patches : List Patch) (bytes : Array UInt8) :
    patches.foldl Patch.write bytes = (patches.map Patch.slot).foldl Slot.write bytes := by
  rw [List.foldl_map]
  rfl

/-- A byte string, and the slots in it. -/
structure Template where
  bytes : Array UInt8
  slots : List Slot

namespace Template

/-- All placeholders lie inside the byte string. -/
def Fits (template : Template) : Prop :=
  ∀ slot ∈ template.slots, slot.offset + 1 < template.bytes.size

/-- One template behind the other. -/
def append (first second : Template) : Template :=
  ⟨first.bytes ++ second.bytes, first.slots ++ second.slots.map (Slot.moved first.bytes.size)⟩

/-- Templates behind one another. -/
def join : List Template → Template
  | [] => ⟨#[], []⟩
  | template :: rest => template.append (join rest)

/-- Where one of several templates starts in their join. -/
def start (templates : List Template) (position : Nat) : Nat :=
  ((templates.take position).map (·.bytes.size)).sum

theorem append_assoc (first second third : Template) :
    (first.append second).append third = first.append (second.append third) := by
  simp [append, Function.comp_def]

theorem join_append_singleton (templates : List Template) (template : Template) :
    join (templates ++ [template]) = (join templates).append template := by
  induction templates with
  | nil =>
    have hmoved : Slot.moved 0 = id := funext Slot.moved_zero
    simp [join, append, hmoved]
  | cons first rest ih => rw [List.cons_append, join, ih, join, append_assoc]

@[simp] theorem join_singleton (template : Template) : join [template] = template := by
  simp [join, append]

theorem size_join (templates : List Template) :
    (join templates).bytes.size = (templates.map (·.bytes.size)).sum := by
  induction templates with
  | nil => rfl
  | cons template rest ih => rw [join, append, Array.size_append, ih, List.map_cons, List.sum_cons]

theorem Fits.append {first second : Template} (hfirst : first.Fits) (hsecond : second.Fits) :
    (first.append second).Fits := by
  intro slot hslot
  rw [Template.append, Array.size_append]
  rcases List.mem_append.mp hslot with hfront | hback
  · have hinside := hfirst slot hfront
    omega
  · obtain ⟨source, hsource, rfl⟩ := List.mem_map.mp hback
    have hinside := hsecond source hsource
    rw [Slot.offset_moved]
    omega

variable {templates : List Template} {template : Template} {position : Nat}

/-- A slot that is isolated in its own template stays so in the join. -/
theorem exists_isolated_join (hfits : ∀ template ∈ templates, template.Fits)
    (htemplate : templates[position]? = some template) {place : Nat} {slot : Slot}
    (hslot : template.slots[place]? = some slot) (hisolated : Slot.Isolated template.slots place) :
    ∃ found, (join templates).slots[found]? = some (slot.moved (start templates position)) ∧
      Slot.Isolated (join templates).slots found := by
  induction templates generalizing position with
  | nil => simp at htemplate
  | cons first rest ih =>
    rw [List.forall_mem_cons] at hfits
    cases position with
    | zero =>
      obtain rfl : first = template := by simpa using htemplate
      have hplace := (List.getElem?_eq_some_iff.mp hslot).1
      refine ⟨place, ?_, hisolated.append_left hplace hfits.1 _⟩
      rw [join, append, List.getElem?_append_left hplace, hslot]
      simp [start]
    | succ position =>
      obtain ⟨found, hfound, hisolated⟩ := ih hfits.2 htemplate
      refine ⟨first.slots.length + found, ?_, hisolated.append_right hfits.1⟩
      rw [join, append, List.getElem?_append_right (by omega), Nat.add_sub_cancel_left,
        List.getElem?_map, hfound]
      simp [start]

/-- A byte that no slot of its own template covers is covered by none in the join. -/
theorem not_covers_join (hfits : ∀ template ∈ templates, template.Fits)
    (htemplate : templates[position]? = some template) {place : Nat}
    (hplace : place < template.bytes.size)
    (hfree : ∀ slot ∈ template.slots, ¬ Covers slot.offset place) :
    ∀ slot ∈ (join templates).slots, ¬ Covers slot.offset (start templates position + place) := by
  induction templates generalizing position with
  | nil => simp at htemplate
  | cons first rest ih =>
    rw [List.forall_mem_cons] at hfits
    cases position with
    | zero =>
      obtain rfl : first = template := by simpa using htemplate
      intro slot hslot
      simp only [start, List.take_zero, List.map_nil, List.sum_nil, Nat.zero_add]
      rcases List.mem_append.mp hslot with hfront | hback
      · exact hfree slot hfront
      · obtain ⟨source, -, rfl⟩ := List.mem_map.mp hback
        simp only [Covers, Slot.offset_moved]
        omega
    | succ position =>
      have hrest := ih hfits.2 htemplate
      intro slot hslot
      simp only [start, List.take_succ_cons, List.map_cons, List.sum_cons]
      rcases List.mem_append.mp hslot with hfront | hback
      · have hinside := hfits.1 slot hfront
        unfold Covers
        omega
      · obtain ⟨source, hsource, rfl⟩ := List.mem_map.mp hback
        have hsource := hrest source hsource
        simp only [Covers, Slot.offset_moved, start] at hsource ⊢
        omega

theorem getElem?_join (htemplate : templates[position]? = some template) {place : Nat}
    (hplace : place < template.bytes.size) :
    (join templates).bytes[start templates position + place]? = template.bytes[place]? := by
  induction templates generalizing position with
  | nil => simp at htemplate
  | cons first rest ih =>
    cases position with
    | zero =>
      obtain rfl : first = template := by simpa using htemplate
      simp only [start, List.take_zero, List.map_nil, List.sum_nil, Nat.zero_add]
      exact Array.getElem?_append_left hplace
    | succ position =>
      simp only [start, List.take_succ_cons, List.map_cons, List.sum_cons]
      rw [join, append, Array.getElem?_append_right (by omega), Nat.add_assoc,
        Nat.add_sub_cancel_left]
      exact ih htemplate

end Template

/-- A byte string that differs from a template in placeholders only. -/
structure Frames (template : Template) (bytes : Array UInt8) : Prop where
  size_eq : bytes.size = template.bytes.size
  outside : ∀ position, (∀ slot ∈ template.slots, ¬ Covers slot.offset position) →
    bytes[position]? = template.bytes[position]?

namespace Frames

variable {template : Template} {bytes : Array UInt8}

theorem self (template : Template) : Frames template template.bytes :=
  ⟨rfl, fun _ _ ↦ rfl⟩

/-- Whatever is written over a placeholder, the rest of the bytes stays. -/
theorem write (hframes : Frames template bytes) {slot written : Slot}
    (hslot : slot ∈ template.slots) (hoffset : written.offset = slot.offset) :
    Frames template (written.write bytes) where
  size_eq := by rw [Slot.write, size_overwrite, hframes.size_eq]
  outside := by
    intro position hfree
    rw [Slot.write, hoffset, getElem?_overwrite_of_not_covers _ _ (hfree slot hslot)]
    exact hframes.outside position hfree

theorem foldl_write (hframes : Frames template bytes) {written : List Slot}
    (hwritten : ∀ word ∈ written, ∃ slot ∈ template.slots, word.offset = slot.offset) :
    Frames template (written.foldl Slot.write bytes) := by
  induction written generalizing bytes with
  | nil => exact hframes
  | cons word rest ih =>
    rw [List.forall_mem_cons] at hwritten
    obtain ⟨⟨slot, hslot, hoffset⟩, hrest⟩ := hwritten
    exact ih (hframes.write hslot hoffset) hrest

/-- Byte strings stand behind one another as their templates do. -/
theorem append {first second : Template} {front back : Array UInt8} (hfront : Frames first front)
    (hback : Frames second back) : Frames (first.append second) (front ++ back) where
  size_eq := by
    rw [Template.append, Array.size_append, Array.size_append, hfront.size_eq, hback.size_eq]
  outside := by
    intro position hfree
    have hsize := hfront.size_eq
    rw [Template.append] at hfree ⊢
    by_cases hposition : position < first.bytes.size
    · rw [Array.getElem?_append_left (by omega), Array.getElem?_append_left hposition]
      exact hfront.outside position fun slot hslot ↦ hfree slot (List.mem_append_left _ hslot)
    · rw [Array.getElem?_append_right (by omega), Array.getElem?_append_right (by omega), hsize]
      refine hback.outside _ fun slot hslot hcovers ↦ ?_
      refine hfree (slot.moved first.bytes.size)
        (List.mem_append_right _ (List.mem_map_of_mem hslot)) ?_
      simp only [Covers, Slot.offset_moved] at hcovers ⊢
      omega

/-- A byte of one of several templates that none of its slots covers. -/
theorem outside_of_join {templates : List Template} {position : Nat}
    (hframes : Frames (.join templates) bytes) (hfits : ∀ template ∈ templates, template.Fits)
    (htemplate : templates[position]? = some template) {place : Nat}
    (hplace : place < template.bytes.size)
    (hfree : ∀ slot ∈ template.slots, ¬ Covers slot.offset place) :
    bytes[Template.start templates position + place]? = template.bytes[place]? := by
  rw [hframes.outside _ (Template.not_covers_join hfits htemplate hplace hfree),
    Template.getElem?_join htemplate hplace]

end Frames

/-- A byte string that differs from a template in placeholders only, and holds the right word at
each placeholder that shares no byte with another one. -/
structure Renders (template : Template) (bytes : Array UInt8) : Prop
    extends Frames template bytes where
  word : ∀ position slot, template.slots[position]? = some slot →
    Slot.Isolated template.slots position → wordAt? bytes slot.offset = some slot.word

namespace Renders

variable {template : Template} {bytes : Array UInt8}

/-- Writing the word of a slot keeps a rendering. The slot may overlap others: these are not
isolated, and nothing is claimed about them. -/
theorem write (hrenders : Renders template bytes) (hfits : template.Fits) {slot : Slot}
    (hslot : slot ∈ template.slots) : Renders template (slot.write bytes) where
  toFrames := hrenders.toFrames.write hslot rfl
  word := by
    intro position held hheld hisolated
    obtain ⟨place, hplace⟩ := List.mem_iff_getElem?.mp hslot
    by_cases hsame : place = position
    · obtain rfl : held = slot := Option.some.inj (hheld.symm.trans (hsame ▸ hplace))
      have hinside := hfits held hslot
      exact wordAt?_overwrite _ (by rwa [hrenders.size_eq])
    · rw [Slot.write, wordAt?_overwrite_of_apart _ _ (hisolated held slot place hheld hplace hsame)]
      exact hrenders.word position held hheld hisolated

theorem foldl_write (hrenders : Renders template bytes) (hfits : template.Fits)
    {written : List Slot} (hwritten : ∀ slot ∈ written, slot ∈ template.slots) :
    Renders template (written.foldl Slot.write bytes) := by
  induction written generalizing bytes with
  | nil => exact hrenders
  | cons slot rest ih =>
    rw [List.forall_mem_cons] at hwritten
    exact ih (hrenders.write hfits hwritten.1) hwritten.2

/-- Writing all words, one after the other, renders the template. -/
theorem of_foldl_write (hfits : template.Fits) :
    Renders template (template.slots.foldl Slot.write template.bytes) where
  toFrames := (Frames.self template).foldl_write fun slot hslot ↦ ⟨slot, hslot, rfl⟩
  word := by
    intro position slot hslot hisolated
    obtain ⟨hlt, rfl⟩ := List.getElem?_eq_some_iff.mp hslot
    have hlater : ∀ other ∈ template.slots.drop (position + 1),
        Apart other.offset template.slots[position].offset := by
      intro other hother
      obtain ⟨place, hplace⟩ := List.mem_iff_getElem?.mp hother
      rw [List.getElem?_drop] at hplace
      exact hisolated _ other _ hslot hplace (by omega)
    have hlast := Slot.wordAt?_foldl_write_of_later_apart hlater (template.slots.take position)
      (hfits _ (List.getElem_mem hlt))
    rwa [← List.drop_eq_getElem_cons hlt, List.take_append_drop] at hlast

/-- Renderings stand behind one another as their templates do. -/
theorem append {first second : Template} {front back : Array UInt8} (hfits : first.Fits)
    (hfront : Renders first front) (hback : Renders second back) :
    Renders (first.append second) (front ++ back) where
  toFrames := hfront.toFrames.append hback.toFrames
  word := by
    intro position slot hslot hisolated
    rw [Template.append] at hslot hisolated
    by_cases hposition : position < first.slots.length
    · rw [List.getElem?_append_left hposition] at hslot
      have hinside := hfits slot (List.mem_of_getElem? hslot)
      rw [wordAt?_append_left _ (by rwa [hfront.size_eq])]
      exact hfront.word position slot hslot (hisolated.of_append_left hposition)
    · obtain ⟨place, rfl⟩ := Nat.exists_eq_add_of_le (Nat.le_of_not_lt hposition)
      rw [List.getElem?_append_right (by omega), Nat.add_sub_cancel_left, List.getElem?_map,
        Option.map_eq_some_iff] at hslot
      obtain ⟨source, hsource, rfl⟩ := hslot
      rw [Slot.offset_moved, ← hfront.size_eq, wordAt?_append_right]
      exact hback.word place source hsource hisolated.of_append_right

variable {templates : List Template} {position : Nat}

/-- The word at an isolated placeholder of one of several templates. -/
theorem word_of_join (hrenders : Renders (.join templates) bytes)
    (hfits : ∀ template ∈ templates, template.Fits)
    (htemplate : templates[position]? = some template) {place : Nat} {slot : Slot}
    (hslot : template.slots[place]? = some slot) (hisolated : Slot.Isolated template.slots place) :
    wordAt? bytes (Template.start templates position + slot.offset) = some slot.word := by
  obtain ⟨found, hfound, hisolated⟩ :=
    Template.exists_isolated_join hfits htemplate hslot hisolated
  exact hrenders.word found _ hfound hisolated

end Renders

end Aout
