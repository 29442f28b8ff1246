import Aout.Header
/-!
Counts in headers. A field is signed, so it holds the counts below `Header.countLimit` as they are
and no others, and these are the ones that `Header.check` accepts.
-/

set_option autoImplicit false
set_option relaxedAutoImplicit false

namespace Aout

theorem HeaderCount.mem_all (count : HeaderCount) : count ∈ all := by
  cases count <;> decide

namespace Header

/-- The least number that a field cannot hold as a count. -/
def countLimit : Nat := 0x80000000

variable {word : UInt32}

theorem toInt_toInt32_of_lt (hcount : word.toNat < countLimit) :
    word.toInt32.toInt = word.toNat := by
  have hdouble : 2 * word.toNat < 0x100000000 := by
    unfold countLimit at hcount
    omega
  exact BitVec.toInt_eq_toNat_of_lt hdouble

theorem toInt_toInt32_nonneg_iff : 0 ≤ word.toInt32.toInt ↔ word.toNat < countLimit := by
  constructor
  · intro hnonneg
    have hvalue : word.toInt32.toInt = if 2 * word.toNat < 0x100000000 then (word.toNat : Int)
        else (word.toNat : Int) - 0x100000000 := BitVec.toInt_eq_toNat_cond word.toBitVec
    have hword := word.toNat_lt
    unfold countLimit
    split at hvalue <;> omega
  · intro hcount
    rw [toInt_toInt32_of_lt hcount]
    exact Int.natCast_nonneg _

theorem toNat_toInt_of_nonneg {field : Int32} (hnonneg : 0 ≤ field.toInt) :
    field.toInt.toNat = field.toUInt32.toNat ∧ field.toUInt32.toNat < countLimit := by
  rw [← Int32.toInt32_toUInt32 field] at hnonneg
  have hcount := toInt_toInt32_nonneg_iff.mp hnonneg
  have hvalue := toInt_toInt32_of_lt hcount
  rw [Int32.toInt32_toUInt32] at hvalue
  exact ⟨by rw [hvalue, Int.toNat_natCast], hcount⟩

theorem check_eq_ok_iff {header : Header} :
    header.check = .ok () ↔
      header.magic = objectMagic ∧ ∀ count, 0 ≤ (header.count count).toInt := by
  unfold check
  split
  · rename_i hmagic
    split
    · rename_i count hfound
      have hnegative := List.find?_some hfound
      simp only [decide_eq_true_eq, Int32.lt_iff_toInt_lt, Int32.toInt_zero] at hnegative
      simp only [reduceCtorEq, false_iff]
      exact fun haccepted ↦ absurd (haccepted.2 count) (by omega)
    · rename_i hnone
      simp only [List.find?_eq_none, decide_eq_true_eq, Int32.lt_iff_toInt_lt,
        Int32.toInt_zero] at hnone
      simp only [true_iff]
      exact ⟨hmagic, fun count ↦ Int.not_lt.mp (hnone count count.mem_all)⟩
  · rename_i hmagic
    simp [hmagic]

end Header

end Aout
