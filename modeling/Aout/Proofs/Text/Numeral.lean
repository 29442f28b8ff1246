import Aout.Text.Numeral
import Aout.Text.Numeral.Reading
import Mathlib.Data.List.Forall2
/-!
Numerals as they are written and as they are read. `Numeral.Spells` says which number some
characters spell, letter case and leading zeros aside. What is written spells the number that it is
written for (`spells_padded`), and what is read is what is spelled, if that is below the limit
(`readDigits_eq_ok_iff`): a number that is too large is refused however it goes on, and zeros in
front never make it so.
-/

set_option autoImplicit false
set_option relaxedAutoImplicit false

namespace Aout.Numeral

/-- The character is a digit of the radix, as a small letter or as a capital. -/
def IsDigit (radix : Nat) (character : Char) (digit : Nat) : Prop :=
  digit < radix ∧ ∃ letters, character = digitChar letters digit

/-- The characters are digits of the radix, and spell the number. -/
def Spells (radix : Nat) (characters : List Char) (number : Nat) : Prop :=
  ∃ values, List.Forall₂ (IsDigit radix) characters values ∧ ofDigits radix values = number

variable {radix limit number value : Nat} {characters : List Char}

/-! ### Digits -/

theorem digitValue?_digitChar (letters : LetterCase) :
    ∀ digit < 16, digitValue? 16 (digitChar letters digit) = some digit := by
  cases letters <;> decide

/-- The digits of a smaller radix are some of the hexadecimal ones. -/
theorem digitValue?_eq_filter (hradix : radix ≤ 16) (character : Char) :
    digitValue? radix character = (digitValue? 16 character).filter (· < radix) := by
  simp only [digitValue?, Option.filter_filter]
  congr 1
  funext digit
  simp
  omega

theorem eq_digitChar_of_digitValue? {character : Char} {digit : Nat}
    (hdigit : digitValue? 16 character = some digit) :
    ∃ letters, character = digitChar letters digit := by
  have hletter {first : Nat} (hfirst : first ≤ character.toNat) :
      character = Char.ofNat (first + (character.toNat - first + 10 - 10)) := by
    rw [Nat.add_sub_cancel, Nat.add_sub_cancel' hfirst, Char.ofNat_toNat]
  obtain ⟨hvalue, -⟩ := Option.filter_eq_some_iff.mp hdigit
  split at hvalue
  · rename_i hrange
    obtain rfl := Option.some.inj hvalue
    have hsmall : character.toNat - '0'.toNat < 10 :=
      Nat.sub_lt_left_of_lt_add hrange.1 (Nat.lt_succ_of_le hrange.2)
    exact ⟨.lower, by rw [digitChar, if_pos hsmall, Nat.add_sub_cancel' hrange.1, Char.ofNat_toNat]⟩
  split at hvalue
  · rename_i hrange
    obtain rfl := Option.some.inj hvalue
    refine ⟨.lower, ?_⟩
    rw [digitChar, if_neg (by omega)]
    exact hletter hrange.1
  split at hvalue
  · rename_i hrange
    obtain rfl := Option.some.inj hvalue
    refine ⟨.upper, ?_⟩
    rw [digitChar, if_neg (by omega)]
    exact hletter hrange.1
  · cases hvalue

/-- The value of a character is the digit that is written so. -/
theorem digitValue?_eq_some_iff (hradix : radix ≤ 16) {character : Char} {digit : Nat} :
    digitValue? radix character = some digit ↔ IsDigit radix character digit := by
  rw [digitValue?_eq_filter hradix, Option.filter_eq_some_iff, decide_eq_true_eq, and_comm]
  refine and_congr_right fun hsmall ↦ ⟨eq_digitChar_of_digitValue?, ?_⟩
  rintro ⟨letters, rfl⟩
  exact digitValue?_digitChar letters digit (Nat.lt_of_lt_of_le hsmall hradix)

/-- A character that is no digit does not stand among digits. -/
theorem not_mem_of_forall₂_isDigit {values : List Nat} (hradix : radix ≤ 16)
    (hdigits : List.Forall₂ (IsDigit radix) characters values) {mark : Char}
    (hmark : digitValue? radix mark = none) : mark ∉ characters := by
  induction hdigits with
  | nil => exact List.not_mem_nil
  | cons hdigit _ ih =>
    rw [List.mem_cons, not_or]
    refine ⟨?_, ih⟩
    rintro rfl
    rw [(digitValue?_eq_some_iff hradix).mpr hdigit] at hmark
    cases hmark

/-! ### Writing -/

theorem lt_of_mem_digits (hradix : 2 ≤ radix) :
    ∀ digit ∈ digits radix number, digit < radix := by
  fun_induction digits radix number with
  | case1 number hdone => simpa using hdone.resolve_right (Nat.not_lt.mpr hradix)
  | case2 number hmore ih =>
    simp only [List.forall_mem_append, List.forall_mem_singleton]
    exact ⟨ih, Nat.mod_lt _ (Nat.lt_of_lt_of_le Nat.zero_lt_two hradix)⟩

theorem forall₂_replicate {character : Char} {digit : Nat} (hdigit : IsDigit radix character digit)
    (count : Nat) : List.Forall₂ (IsDigit radix) (List.replicate count character)
      (List.replicate count digit) := by
  induction count with
  | zero => exact .nil
  | succ count ih => exact .cons hdigit ih

theorem ofDigits_replicate_zero_append (count : Nat) (values : List Nat) :
    ofDigits radix (List.replicate count 0 ++ values) = ofDigits radix values := by
  induction count with
  | zero => rfl
  | succ count ih => simpa [ofDigits, List.replicate_succ] using ih

/-- A numeral spells the number that it is written for. -/
theorem spells_padded (hradix : 2 ≤ radix) (width : Nat) (letters : LetterCase) (number : Nat) :
    Spells radix (padded radix width letters number) number := by
  refine ⟨List.replicate (width - (digits radix number).length) 0 ++ digits radix number, ?_, ?_⟩
  · rw [padded, List.length_map]
    refine List.rel_append (forall₂_replicate ?_ _) ?_
    · exact ⟨Nat.lt_of_lt_of_le Nat.zero_lt_two hradix, .lower, rfl⟩
    · rw [List.forall₂_map_left_iff, List.forall₂_same]
      exact fun digit hdigit ↦ ⟨lt_of_mem_digits hradix digit hdigit, letters, rfl⟩
  · rw [ofDigits_replicate_zero_append, ofDigits_digits]

/-! ### Reading -/

theorem le_foldl_digits (hpos : 0 < radix) (values : List Nat) (number : Nat) :
    number ≤ values.foldl (fun number digit ↦ number * radix + digit) number := by
  induction values generalizing number with
  | nil => exact Nat.le_refl _
  | cons digit rest ih =>
    calc number ≤ number * radix := Nat.le_mul_of_pos_right number hpos
      _ ≤ number * radix + digit := Nat.le_add_right _ _
      _ ≤ _ := ih _

/-- Digits are read on behind a number exactly if the longer number, too, is below the limit. -/
theorem readDigits_eq_ok_iff_foldl (hpos : 0 < radix) (hradix : radix ≤ 16)
    (hnumber : number < limit) : readDigits radix limit number characters = .ok value ↔
      value < limit ∧ ∃ values, List.Forall₂ (IsDigit radix) characters values ∧
        values.foldl (fun number digit ↦ number * radix + digit) number = value := by
  induction characters generalizing number with
  | nil =>
    simp only [readDigits, Except.ok.injEq, List.forall₂_nil_left_iff, exists_eq_left,
      List.foldl_nil]
    constructor
    · rintro rfl
      exact ⟨hnumber, rfl⟩
    · exact And.right
  | cons character rest ih =>
    simp only [List.forall₂_cons_left_iff, ← digitValue?_eq_some_iff hradix]
    rw [readDigits]
    cases hdigit : digitValue? radix character with
    | none => simp
    | some digit =>
      dsimp only
      split
      · rename_i hlonger
        rw [ih hlonger]
        refine and_congr_right fun _ ↦ ?_
        constructor
        · rintro ⟨values, hvalues, hvalue⟩
          exact ⟨digit :: values, ⟨digit, values, rfl, hvalues, rfl⟩, hvalue⟩
        · rintro ⟨_, ⟨_, values, hsame, hvalues, rfl⟩, hvalue⟩
          cases hsame
          exact ⟨values, hvalues, hvalue⟩
      · rename_i hlonger
        constructor
        · rintro ⟨⟩
        · -- More digits would not bring the number below the limit again.
          rintro ⟨hvalue, _, ⟨_, values, hsame, -, rfl⟩, hfolded⟩
          cases hsame
          have hle := le_foldl_digits hpos values (number * radix + digit)
          rw [List.foldl_cons] at hfolded
          omega

/-- Digits are read exactly if they spell a number below the limit, however many there are. -/
theorem readDigits_eq_ok_iff (hpos : 0 < radix) (hradix : radix ≤ 16) (hlimit : 0 < limit) :
    readDigits radix limit 0 characters = .ok value ↔
      value < limit ∧ Spells radix characters value :=
  readDigits_eq_ok_iff_foldl hpos hradix hlimit

end Aout.Numeral
