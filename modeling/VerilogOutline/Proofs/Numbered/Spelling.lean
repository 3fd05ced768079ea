import Mathlib.Data.List.Induction
import Mathlib.Data.Nat.Digits.Defs
import VerilogOutline.Proofs.Numbered.Parts

/-!
# Spellings of a numbered name

A name is taken apart exactly as it was put together, whatever the stem looks like. The
names that come apart into a stem and a number are those with the number in plain decimal
and any zeros in front of it. Digits that spell a number beyond the highest one count for
nothing, however many there are.
-/

namespace VerilogOutline.Numbered

/-- The number for which a digit stands. -/
def digitValue (c : Char) : Nat :=
  c.toNat - '0'.toNat

theorem digitChar_digitValue {c : Char} (h : c.isDigit = true) :
    Nat.digitChar (digitValue c) = c ∧ digitValue c < 10 := by
  obtain ⟨hlow, hhigh⟩ : 48 ≤ c.toNat ∧ c.toNat ≤ 57 := Char.isDigit_iff_toNat.mp h
  have hvalue : digitValue c = c.toNat - 48 := rfl
  refine ⟨Char.toNat_inj.mp ?_, by omega⟩
  rw [Nat.toNat_digitChar_of_lt_ten (by omega), hvalue]
  omega

theorem ofDigitChars_concat (front : List Char) (last : Char) :
    Nat.ofDigitChars 10 (front ++ [last]) 0 =
      10 * Nat.ofDigitChars 10 front 0 + digitValue last := by
  rw [Nat.ofDigitChars_append, Nat.ofDigitChars_cons, Nat.ofDigitChars_nil, digitValue]

/-- Digits that are read from the left count by their place from the right. -/
theorem ofDigitChars_eq_ofDigits (digits : List Char) :
    Nat.ofDigitChars 10 digits 0 = Nat.ofDigits 10 (digits.reverse.map digitValue) := by
  induction digits using List.reverseRecOn with
  | nil => rfl
  | append_singleton front last ih =>
      rw [ofDigitChars_concat, ih, List.reverse_concat, List.map_cons, Nat.ofDigits_cons,
        Nat.add_comm]

/-- Digits are the plain decimal of the number they spell, behind some zeros. -/
theorem exists_zeros {digits : List Char} (hne : digits ≠ [])
    (hdigits : ∀ c ∈ digits, c.isDigit = true) :
    ∃ zeros, digits =
      List.replicate zeros '0' ++ Nat.toDigits 10 (Nat.ofDigitChars 10 digits 0) := by
  -- from the end, as the last digit of a text is the last one of its number
  induction digits using List.reverseRecOn with
  | nil => contradiction
  | append_singleton front last ih =>
      rw [List.forall_mem_append, List.forall_mem_singleton] at hdigits
      obtain ⟨hfront, hlast⟩ := hdigits
      obtain ⟨hchar, hvalue⟩ := digitChar_digitValue hlast
      have hdigit : Nat.toDigits 10 (digitValue last) = [last] := by
        rw [Nat.toDigits_of_lt_base hvalue, hchar]
      rw [ofDigitChars_concat]
      obtain rfl | hnil := eq_or_ne front []
      · exact ⟨0, by rw [Nat.ofDigitChars_nil, Nat.mul_zero, Nat.zero_add, hdigit]; rfl⟩
      obtain ⟨zeros, heq⟩ := ih hnil hfront
      obtain hzero | hpos := Nat.eq_zero_or_pos (Nat.ofDigitChars 10 front 0)
      · -- the digits in front are zeros all of them
        refine ⟨zeros + 1, ?_⟩
        rw [hzero, Nat.mul_zero, Nat.zero_add, hdigit, List.replicate_succ']
        rw [hzero] at heq
        exact congrArg (· ++ [last]) heq
      · refine ⟨zeros, ?_⟩
        rw [← Nat.toDigits_append_toDigits (by decide) hpos hvalue, hdigit, ← List.append_assoc,
          ← heq]

theorem isNumbered_iff_zeros {text stem : String} {number : Nat} :
    IsNumbered text stem number ↔ number ≤ highest ∧
      ∃ zeros, text.toList =
        stem.toList ++ '_' :: (List.replicate zeros '0' ++ Nat.toDigits 10 number) := by
  constructor
  · rintro ⟨digits, htext, hne, hdigits, rfl, hlimit⟩
    obtain ⟨zeros, heq⟩ := exists_zeros hne hdigits
    exact ⟨hlimit, zeros, by rw [← heq]; exact htext⟩
  · rintro ⟨hlimit, zeros, htext⟩
    refine ⟨_, htext, List.append_ne_nil_of_right_ne_nil _ Nat.toDigits_ne_nil, ?_, ?_, hlimit⟩
    · rw [List.forall_mem_append]
      refine ⟨?_, isDigit_of_mem_toDigits number⟩
      intro c hc
      obtain rfl := List.eq_of_mem_replicate hc
      rfl
    · rw [Nat.ofDigitChars_append, Nat.ofDigitChars_replicate_zero, Nat.mul_zero,
        Nat.ofDigitChars_ten_toDigits]

theorem split?_eq_none_iff {text : String} :
    split? text = none ↔ ¬ ∃ stem number, IsNumbered text stem number := by
  simp only [Option.eq_none_iff_forall_ne_some, ne_eq, Prod.forall, split?_eq_some_iff, not_exists]

/-- A number beyond the highest one is written into a name, but not read from it. -/
theorem split?_name_eq (stem : String) (number : Nat) :
    split? (name stem number) = if number ≤ highest then some (stem, number) else none := by
  split
  next hlimit => exact split?_name stem hlimit
  next hlimit =>
    rw [split?_eq_none_iff]
    rintro ⟨stem', number', digits, hname, _, hdigits, rfl, hlimit'⟩
    have hcut := Text.cutLast?_append stem'.toList (underscore_not_mem hdigits)
    rw [← hname, cutLast?_name, Option.some.injEq, Prod.mk.injEq] at hcut
    rw [← hcut.2, Nat.ofDigitChars_ten_toDigits] at hlimit'
    exact hlimit hlimit'

/-- A name that is written with a number, in plain decimal, comes apart into its stem and
this number, up to the highest one. The names that come apart are those with digits behind
the last underscore that spell such a number, which is to say its plain decimal behind
some zeros. So two names are the same only if they have the same stem and number. -/
theorem split?_spelling :
    (∀ stem number,
        split? (name stem number) = if number ≤ highest then some (stem, number) else none) ∧
      (∀ stem number, ∃ digits,
        (name stem number).toList = stem.toList ++ '_' :: digits ∧ IsDecimal digits number) ∧
      (∀ text stem number, split? text = some (stem, number) ↔
        ∃ digits, text.toList = stem.toList ++ '_' :: digits ∧ digits ≠ [] ∧
          (∀ c ∈ digits, c.isDigit = true) ∧
          Nat.ofDigits 10 (digits.reverse.map digitValue) = number ∧ number ≤ highest) ∧
      (∀ text stem number, split? text = some (stem, number) ↔
        number ≤ highest ∧ ∃ zeros, text.toList =
          stem.toList ++ '_' :: (List.replicate zeros '0' ++ Nat.toDigits 10 number)) ∧
      (∀ text, split? text = none ↔
        ¬ ∃ stem digits, text.toList = stem ++ '_' :: digits ∧ digits ≠ [] ∧
          (∀ c ∈ digits, c.isDigit = true) ∧
          Nat.ofDigits 10 (digits.reverse.map digitValue) ≤ highest) ∧
      ∀ stem stem' number number',
        name stem number = name stem' number' ↔ stem = stem' ∧ number = number' := by
  refine ⟨split?_name_eq, exists_isDecimal, ?_, ?_, ?_, fun _ _ _ _ => name_inj⟩
  · intro text stem number
    simp only [split?_eq_some_iff, IsNumbered, ofDigitChars_eq_ofDigits]
  · intro text stem number
    rw [split?_eq_some_iff, isNumbered_iff_zeros]
  · intro text
    rw [split?_eq_none_iff, not_iff_not]
    constructor
    · rintro ⟨stem, _, digits, htext, hne, hdigits, rfl, hlimit⟩
      rw [ofDigitChars_eq_ofDigits] at hlimit
      exact ⟨stem.toList, digits, htext, hne, hdigits, hlimit⟩
    · rintro ⟨stem, digits, htext, hne, hdigits, hlimit⟩
      rw [← ofDigitChars_eq_ofDigits] at hlimit
      refine ⟨String.ofList stem, _, digits, ?_, hne, hdigits, rfl, hlimit⟩
      rw [String.toList_ofList, htext]

/-- Only the last underscore counts, and zeros in front of the number do not. -/
example : split? "bank_1_0020" = some ("bank_1", 20) := by
  decide +kernel

end VerilogOutline.Numbered
