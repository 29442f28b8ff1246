import Aout.AddressLiteral
import Aout.Proofs.Text.Numeral
import Mathlib.Data.List.TakeWhile
/-!
The grammar of address literals. A literal is a hexadecimal numeral behind `0x` or a decimal
numeral, each with an optional plus sign (`AddressLiteral.Denotes`). An address is read from exactly
the texts that are a literal once the white space around them is gone, and then it is the number
that the literal denotes (`AddressLiteral.parse_accepts_grammar`).
-/

set_option autoImplicit false
set_option relaxedAutoImplicit false

namespace Aout

/-- Only white space is trimmed, and none is left at the ends. -/
theorem Blank.trim_spec (text : List Char) :
    (∃ front back, text = front ++ trim text ++ back ∧
      ∀ character ∈ front ++ back, isBlank character) ∧
    ∀ character, (trim text).head? = some character ∨ (trim text).getLast? = some character →
      isBlank character = false := by
  have hends (rest : List Char) {character : Char}
      (hhead : (rest.dropWhile isBlank).head? = some character) : isBlank character = false := by
    have hstop := List.head?_dropWhile_not isBlank rest
    rwa [hhead] at hstop
  obtain ⟨back, hrest, hback⟩ : ∃ back, text.dropWhile isBlank = trim text ++ back ∧
      ∀ character ∈ back, isBlank character := by
    refine ⟨((text.dropWhile isBlank).reverse.takeWhile isBlank).reverse, ?_, ?_⟩
    · rw [trim, ← List.reverse_append, List.takeWhile_append_dropWhile, List.reverse_reverse]
    · exact fun character hback ↦ List.mem_takeWhile_imp (List.mem_reverse.mp hback)
  refine ⟨⟨text.takeWhile isBlank, back, ?_, ?_⟩, ?_⟩
  · rw [List.append_assoc, ← hrest, List.takeWhile_append_dropWhile]
  · exact List.forall_mem_append.mpr ⟨fun _ hfront ↦ List.mem_takeWhile_imp hfront, hback⟩
  · rintro character (hhead | hlast)
    · refine hends text ?_
      rw [hrest, List.head?_append, hhead, Option.some_or]
    · rw [trim, List.getLast?_reverse] at hlast
      exact hends _ hlast

namespace AddressLiteral

open Numeral

/-- An optional plus sign and at least one digit, and the digits spell the number. -/
inductive Signed (radix number : Nat) : List Char → Prop
  | plain {digits : List Char} (hdigits : digits ≠ []) (hspells : Spells radix digits number) :
      Signed radix number digits
  | plus {digits : List Char} (hdigits : digits ≠ []) (hspells : Spells radix digits number) :
      Signed radix number ('+' :: digits)

/-- The literal denotes the number. -/
inductive Denotes (number : Nat) : List Char → Prop
  | hexadecimal {numeral : List Char} (hnumeral : Signed 16 number numeral) :
      Denotes number ('0' :: 'x' :: numeral)
  | decimal {numeral : List Char} (hnumeral : Signed 10 number numeral) : Denotes number numeral

variable {radix limit number : Nat} {literal : List Char}

theorem readNumeral_eq_ok_iff (hpos : 0 < radix) (hradix : radix ≤ 16) (hlimit : 0 < limit) :
    readNumeral radix limit literal = .ok number ↔
      number < limit ∧ Signed radix number literal := by
  have hplus {digits : List Char} : ¬Spells radix ('+' :: digits) number := by
    rintro ⟨values, hdigits, -⟩
    exact not_mem_of_forall₂_isDigit hradix hdigits rfl List.mem_cons_self
  unfold readNumeral
  split
  · simp only [reduceCtorEq, false_iff]
    rintro ⟨-, ⟨hdigits, -⟩⟩
    exact hdigits rfl
  · simp only [reduceCtorEq, false_iff]
    rintro ⟨-, ⟨-, hspells⟩ | ⟨hdigits, -⟩⟩
    · exact hplus hspells
    · exact hdigits rfl
  · rename_i digits hdigits
    rw [readDigits_eq_ok_iff hpos hradix hlimit]
    refine and_congr_right fun _ ↦ ⟨.plus hdigits, ?_⟩
    rintro (⟨-, hspells⟩ | ⟨-, hspells⟩)
    · exact absurd hspells hplus
    · exact hspells
  · rename_i hdigits _ hsign
    rw [readDigits_eq_ok_iff hpos hradix hlimit]
    refine and_congr_right fun _ ↦ ⟨.plain hdigits, ?_⟩
    rintro (⟨-, hspells⟩ | ⟨-, -⟩)
    · exact hspells
    · exact absurd rfl (hsign _)

theorem readTrimmed_eq_ok_iff :
    readTrimmed literal = .ok number ↔ number < UInt16.size ∧ Denotes number literal := by
  unfold readTrimmed
  split
  · rename_i numeral
    rw [readNumeral_eq_ok_iff (by decide) (by decide) (by decide)]
    refine and_congr_right fun _ ↦ ⟨.hexadecimal, ?_⟩
    rintro (hnumeral | hnumeral)
    · exact hnumeral
    · -- Read in decimal, the `x` would be a digit.
      cases hnumeral with
      | plain _ hspells =>
        obtain ⟨values, hdigits, -⟩ := hspells
        have hfree : 'x' ∉ '0' :: 'x' :: numeral :=
          not_mem_of_forall₂_isDigit (by decide) hdigits (by decide)
        exact absurd (by simp) hfree
  · rename_i hmark
    rw [readNumeral_eq_ok_iff (by decide) (by decide) (by decide)]
    refine and_congr_right fun _ ↦ ⟨.decimal, ?_⟩
    rintro (hnumeral | hnumeral)
    · exact absurd rfl (hmark _)
    · exact hnumeral

theorem parse_eq_ok_iff {text : String} {address : UInt16} :
    parse text = .ok address ↔ Denotes address.toNat (Blank.trim text.toList) := by
  have hread : Denotes address.toNat (Blank.trim text.toList) ↔
      readTrimmed (Blank.trim text.toList) = .ok address.toNat := by
    rw [readTrimmed_eq_ok_iff, and_iff_right address.toNat_lt]
  rw [hread]
  simp only [parse]
  cases hfound : readTrimmed (Blank.trim text.toList) with
  | error fault => simp
  | ok number =>
    have hnumber := (readTrimmed_eq_ok_iff.mp hfound).1
    rw [Except.ok.injEq, Except.ok.injEq, ← UInt16.toNat_inj, UInt16.toNat_ofNat_of_lt' hnumber]

theorem exists_parse_eq_error_iff {text : String} :
    (∃ message, parse text = .error message) ↔ ∀ address, parse text ≠ .ok address := by
  cases parse text with
  | error message => simp
  | ok address => simp

/-- An address is read from a text exactly if, without the white space at its ends, the text is a
literal that denotes the address. Any other text is refused: one that is no literal, and a literal
of a number that has more than 16 bits. -/
theorem parse_accepts_grammar (text : String) :
    (∃ front back, text.toList = front ++ Blank.trim text.toList ++ back ∧
      ∀ character ∈ front ++ back, Blank.isBlank character) ∧
    (∀ character, (Blank.trim text.toList).head? = some character ∨
      (Blank.trim text.toList).getLast? = some character → Blank.isBlank character = false) ∧
    (∀ address : UInt16, parse text = .ok address ↔
      Denotes address.toNat (Blank.trim text.toList)) ∧
    ((∃ message, parse text = .error message) ↔
      ∀ number, Denotes number (Blank.trim text.toList) → UInt16.size ≤ number) := by
  obtain ⟨htrimmed, hends⟩ := Blank.trim_spec text.toList
  refine ⟨htrimmed, hends, fun address ↦ parse_eq_ok_iff, ?_⟩
  rw [exists_parse_eq_error_iff]
  constructor
  · intro hrefused number hdenotes
    by_contra hsmall
    rw [Nat.not_le] at hsmall
    refine hrefused (UInt16.ofNat number) (parse_eq_ok_iff.mpr ?_)
    rwa [UInt16.toNat_ofNat_of_lt' hsmall]
  · intro hlarge address hparse
    have hsize := hlarge address.toNat (parse_eq_ok_iff.mp hparse)
    exact absurd address.toNat_lt (Nat.not_lt.mpr hsize)

example : (parse "\t0x+00fF ").toOption = some 0xFF ∧ (parse "00065536").toOption = none := by
  decide +kernel

end AddressLiteral

end Aout
