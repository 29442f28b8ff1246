/-!
Numbers as bytes, least significant byte first. `bytes` and `value` invert each other on numbers
that fit (`value_bytes_of_lt`) and on byte strings of the given width (`bytes_length_value`). Words
of 16 and 32 bits are the two widths that object files use, and `take32?` reads a 32-bit word off
the front of a byte string.
-/

set_option autoImplicit false
set_option relaxedAutoImplicit false

namespace Aout.LittleEndian

/-- The `width` low bytes of a number. -/
def bytes : (width number : Nat) → List UInt8
  | 0, _ => []
  | width + 1, number => UInt8.ofNat number :: bytes width (number / 256)

/-- The number that a byte string spells. -/
def value : List UInt8 → Nat
  | [] => 0
  | byte :: rest => byte.toNat + 256 * value rest

@[simp] theorem length_bytes (width number : Nat) : (bytes width number).length = width := by
  induction width generalizing number with
  | zero => rfl
  | succ width ih => simp [bytes, ih]

/-- How many numbers `width` bytes can spell. -/
def capacity : (width : Nat) → Nat
  | 0 => 1
  | width + 1 => 256 * capacity width

theorem value_bytes (width number : Nat) :
    value (bytes width number) = number % capacity width := by
  induction width generalizing number with
  | zero => simp [bytes, value, capacity, Nat.mod_one]
  | succ width ih =>
    rw [bytes, value, ih, capacity, Nat.mod_mul]
    simp

theorem value_bytes_of_lt {width number : Nat} (hfits : number < capacity width) :
    value (bytes width number) = number := by
  rw [value_bytes, Nat.mod_eq_of_lt hfits]

theorem value_lt (string : List UInt8) : value string < capacity string.length := by
  induction string with
  | nil => simp [value, capacity]
  | cons byte rest ih =>
    have hbyte := byte.toNat_lt
    rw [value, List.length_cons, capacity]
    omega

theorem bytes_length_value (string : List UInt8) : bytes string.length (value string) = string := by
  induction string with
  | nil => rfl
  | cons byte rest ih =>
    have hbyte := byte.toNat_lt
    have hrest : (byte.toNat + 256 * value rest) / 256 = value rest := by omega
    have hfirst : UInt8.ofNat (byte.toNat + 256 * value rest) = byte := by
      apply UInt8.toNat_inj.mp
      rw [UInt8.toNat_ofNat']
      omega
    rw [List.length_cons, value, bytes, hrest, ih, hfirst]

/-- A 16-bit word as two bytes. -/
def bytes16 (word : UInt16) : List UInt8 :=
  bytes 2 word.toNat

/-- A 32-bit word as four bytes. -/
def bytes32 (word : UInt32) : List UInt8 :=
  bytes 4 word.toNat

/-- The 16-bit word with the given low and high bytes. -/
def word16 (low high : UInt8) : UInt16 :=
  UInt16.ofNat (value [low, high])

/-- The 32-bit word at the front of a byte string, and what follows it. -/
def take32? : List UInt8 → Option (UInt32 × List UInt8)
  | b0 :: b1 :: b2 :: b3 :: rest => some (UInt32.ofNat (value [b0, b1, b2, b3]), rest)
  | _ => none

@[simp] theorem length_bytes16 (word : UInt16) : (bytes16 word).length = 2 :=
  length_bytes 2 word.toNat

@[simp] theorem length_bytes32 (word : UInt32) : (bytes32 word).length = 4 :=
  length_bytes 4 word.toNat

/-- The low byte of a 16-bit word comes first. -/
theorem bytes16_eq (word : UInt16) :
    bytes16 word = [UInt8.ofNat word.toNat, UInt8.ofNat (word.toNat / 256)] := rfl

theorem word16_bytes16 (word : UInt16) :
    word16 (UInt8.ofNat word.toNat) (UInt8.ofNat (word.toNat / 256)) = word := by
  have hvalue : value (bytes16 word) = word.toNat :=
    value_bytes_of_lt (Nat.lt_of_lt_of_le word.toNat_lt (by decide))
  rw [bytes16_eq] at hvalue
  rw [word16, hvalue, UInt16.ofNat_toNat]

/-- A word that was written is the word that is read. -/
theorem take32?_bytes32_append (word : UInt32) (rest : List UInt8) :
    take32? (bytes32 word ++ rest) = some (word, rest) := by
  have hvalue : value (bytes32 word) = word.toNat :=
    value_bytes_of_lt (Nat.lt_of_lt_of_le word.toNat_lt (by decide))
  change some (UInt32.ofNat (value (bytes32 word)), rest) = some (word, rest)
  rw [hvalue, UInt32.ofNat_toNat]

/-- The word that is read, written again, is the four bytes that were read. -/
theorem take32?_eq_some_iff {string rest : List UInt8} {word : UInt32} :
    take32? string = some (word, rest) ↔ string = bytes32 word ++ rest := by
  constructor
  · intro htake
    match string, htake with
    | b0 :: b1 :: b2 :: b3 :: tail, htake =>
      simp only [take32?, Option.some.injEq, Prod.mk.injEq] at htake
      obtain ⟨rfl, rfl⟩ := htake
      have hlt : value [b0, b1, b2, b3] < UInt32.size := value_lt [b0, b1, b2, b3]
      have hbytes := bytes_length_value [b0, b1, b2, b3]
      rw [bytes32, UInt32.toNat_ofNat_of_lt' hlt]
      exact congrArg (· ++ tail) hbytes.symm
  · rintro rfl
    exact take32?_bytes32_append word rest

/-- Reading a word fails exactly on a byte string shorter than four bytes. -/
theorem take32?_eq_none_iff {string : List UInt8} : take32? string = none ↔ string.length < 4 := by
  match string with
  | [] | [_] | [_, _] | [_, _, _] => simp [take32?]
  | _ :: _ :: _ :: _ :: _ => simp [take32?]

end Aout.LittleEndian
