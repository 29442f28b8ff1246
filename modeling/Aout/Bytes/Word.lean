/-!
Sums of 32-bit addresses and sizes. A sum that leaves 32 bits either stops at the greatest word
(`saturatingAdd`) or is refused (`checkedAdd?`).
-/

set_option autoImplicit false
set_option relaxedAutoImplicit false

namespace Aout.Word

/-- The sum, or the greatest word when the sum does not fit. -/
def saturatingAdd (first second : UInt32) : UInt32 :=
  UInt32.ofNat (min (first.toNat + second.toNat) (UInt32.size - 1))

/-- The sum, if it fits. -/
def checkedAdd? (first second : UInt32) : Option UInt32 :=
  if first.toNat + second.toNat < UInt32.size then some (first + second) else none

/-- An address as a 16-bit operand, if it fits. -/
def narrow? (address : UInt32) : Option UInt16 :=
  if address.toNat < UInt16.size then some address.toUInt16 else none

theorem toNat_saturatingAdd (first second : UInt32) :
    (saturatingAdd first second).toNat = min (first.toNat + second.toNat) (UInt32.size - 1) := by
  unfold saturatingAdd
  apply UInt32.toNat_ofNat_of_lt'
  have hsize : UInt32.size = 4294967296 := rfl
  omega

/-- A sum below 2^32 is exact. -/
theorem toNat_saturatingAdd_of_lt {first second : UInt32}
    (hfits : first.toNat + second.toNat < UInt32.size) :
    (saturatingAdd first second).toNat = first.toNat + second.toNat := by
  rw [toNat_saturatingAdd]
  omega

theorem checkedAdd?_eq_some_iff {first second sum : UInt32} :
    checkedAdd? first second = some sum ↔ first.toNat + second.toNat = sum.toNat := by
  have hsum := sum.toNat_lt
  have hsize : UInt32.size = 4294967296 := rfl
  unfold checkedAdd?
  split
  · rename_i hfits
    rw [Option.some.injEq, ← UInt32.toNat_inj, UInt32.toNat_add]
    omega
  · simp only [reduceCtorEq, false_iff]
    omega

theorem narrow?_eq_some_iff {address : UInt32} {word : UInt16} :
    narrow? address = some word ↔ address.toNat = word.toNat := by
  have hword := word.toNat_lt
  have hsize : UInt16.size = 65536 := rfl
  unfold narrow?
  split
  · rename_i hfits
    rw [Option.some.injEq, ← UInt16.toNat_inj, UInt32.toNat_toUInt16]
    omega
  · simp only [reduceCtorEq, false_iff]
    omega

theorem narrow?_eq_none_iff {address : UInt32} :
    narrow? address = none ↔ 0xFFFF < address.toNat := by
  have hsize : UInt16.size = 65536 := rfl
  unfold narrow?
  split
  · simp only [reduceCtorEq, false_iff]
    omega
  · simp only [true_iff]
    omega

end Aout.Word
