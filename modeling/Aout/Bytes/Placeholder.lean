import Aout.Bytes.LittleEndian
/-!
Placeholders: 16-bit words at arbitrary offsets of a byte string, read by `wordAt?` and overwritten
by `setWordAt?`. Both succeed exactly when the second byte of the word is inside the string
(`wordAt?_isSome_iff`), and a word that was written is the word that is read
(`wordAt?_of_setWordAt?`).
-/

set_option autoImplicit false
set_option relaxedAutoImplicit false

namespace Aout.Placeholder

open LittleEndian

/-- Whether a word at `offset` lies inside the byte string. -/
def isInside (bytes : Array UInt8) (offset : Nat) : Bool :=
  offset + 1 < bytes.size

/-- The 16-bit word whose low byte stands at `offset`. -/
def wordAt? (bytes : Array UInt8) (offset : Nat) : Option UInt16 :=
  match bytes[offset]?, bytes[offset + 1]? with
  | some low, some high => some (word16 low high)
  | _, _ => none

/-- Overwrite the word at `offset`. A word that is not inside the byte string is not written. -/
def overwrite (bytes : Array UInt8) (offset : Nat) (word : UInt16) : Array UInt8 :=
  if isInside bytes offset then
    (bytes.setIfInBounds offset (UInt8.ofNat word.toNat)).setIfInBounds (offset + 1)
      (UInt8.ofNat (word.toNat / 256))
  else bytes

/-- Overwrite the word at `offset`, if all of it is inside the byte string. -/
def setWordAt? (bytes : Array UInt8) (offset : Nat) (word : UInt16) : Option (Array UInt8) :=
  if isInside bytes offset then some (overwrite bytes offset word) else none

theorem isInside_iff {bytes : Array UInt8} {offset : Nat} :
    isInside bytes offset ↔ offset + 1 < bytes.size := by
  simp [isInside]

theorem wordAt?_isSome_iff {bytes : Array UInt8} {offset : Nat} :
    (wordAt? bytes offset).isSome ↔ offset + 1 < bytes.size := by
  unfold wordAt?
  by_cases hinside : offset + 1 < bytes.size
  · have hlow : offset < bytes.size := by omega
    simp [hinside, hlow]
  · have hhigh : bytes[offset + 1]? = none := Array.getElem?_eq_none (by omega)
    rw [hhigh]
    simp [hinside]

theorem wordAt?_of_setWordAt? {bytes written : Array UInt8} {offset : Nat} {word : UInt16}
    (hset : setWordAt? bytes offset word = some written) : wordAt? written offset = some word := by
  unfold setWordAt? at hset
  split at hset
  · rename_i hinside
    obtain rfl := Option.some.inj hset
    rw [overwrite, if_pos hinside]
    rw [isInside_iff] at hinside
    have hlow : offset < bytes.size := by omega
    simpa [wordAt?, Array.getElem?_setIfInBounds, hinside, hlow] using word16_bytes16 word
  · simp at hset

end Aout.Placeholder
