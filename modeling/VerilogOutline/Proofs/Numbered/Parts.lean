import Mathlib.Data.List.Basic
import Mathlib.Data.Option.Basic
import VerilogOutline.InstanceNames

/-!
# Parts of a numbered name

Digits hold no underscore, so the last underscore of a numbered name stands in front of
its number. A numbered name has one stem and one number only, even where the stem looks
like a numbered name itself. Names are written with the number in plain decimal, and read
with any zeros in front of it.
-/

namespace VerilogOutline

namespace Text

theorem cutLast?_eq_none_iff {separator : Char} {text : List Char} :
    cutLast? separator text = none ↔ separator ∉ text := by
  induction text with
  | nil => simp [cutLast?]
  | cons c rest ih =>
      rw [cutLast?, List.mem_cons, not_or, ← ih]
      cases cutLast? separator rest with
      | some found => simp
      | none => simp [eq_comm]

theorem cutLast?_append {separator : Char} (before : List Char) {after : List Char}
    (h : separator ∉ after) :
    cutLast? separator (before ++ separator :: after) = some (before, after) := by
  induction before with
  | nil => simp [cutLast?, cutLast?_eq_none_iff.mpr h]
  | cons c before ih => simp [cutLast?, ih]

/-- A text is cut at the last separator, so there is none behind the cut. -/
theorem cutLast?_eq_some_iff {separator : Char} {text before after : List Char} :
    cutLast? separator text = some (before, after) ↔
      text = before ++ separator :: after ∧ separator ∉ after := by
  constructor
  · intro h
    induction text generalizing before with
    | nil => contradiction
    | cons c rest ih =>
        rw [cutLast?] at h
        split at h
        next front back hcut =>
          obtain ⟨rfl, rfl⟩ : c :: front = before ∧ back = after := by simpa using h
          obtain ⟨rfl, hback⟩ := ih hcut
          exact ⟨rfl, hback⟩
        next hnone =>
          split at h
          next hc =>
            obtain ⟨rfl, rfl⟩ : [] = before ∧ rest = after := by simpa using h
            exact ⟨by rw [hc, List.nil_append], cutLast?_eq_none_iff.mp hnone⟩
          next => contradiction
  · rintro ⟨rfl, hafter⟩
    exact cutLast?_append before hafter

end Text

namespace Numbered

open Text

theorem isDigit_of_mem_toDigits (number : Nat) :
    ∀ c ∈ Nat.toDigits 10 number, c.isDigit = true := by
  intro c hc
  exact Nat.isDigit_of_mem_toDigits (by decide) (by decide) hc

theorem toList_name (stem : String) (number : Nat) :
    (name stem number).toList = stem.toList ++ '_' :: Nat.toDigits 10 number := by
  simp [name]

theorem underscore_not_mem {digits : List Char} (h : ∀ c ∈ digits, c.isDigit = true) :
    '_' ∉ digits := by
  intro hmem
  have hdigit := h '_' hmem
  contradiction

/-- The last underscore of a numbered name is the one that was put in front of the number. -/
theorem cutLast?_name (stem : String) (number : Nat) :
    cutLast? '_' (name stem number).toList = some (stem.toList, Nat.toDigits 10 number) := by
  rw [toList_name,
    cutLast?_append stem.toList (underscore_not_mem (isDigit_of_mem_toDigits number))]

/-- The name is made up of the stem, an underscore and digits that spell the number. -/
def IsNumbered (name stem : String) (number : Nat) : Prop :=
  ∃ digits, name.toList = stem.toList ++ '_' :: digits ∧ digits ≠ [] ∧
    (∀ c ∈ digits, c.isDigit = true) ∧ Nat.ofDigitChars 10 digits 0 = number ∧ number ≤ highest

theorem split?_eq_some_iff {name stem : String} {number : Nat} :
    split? name = some (stem, number) ↔ IsNumbered name stem number := by
  simp only [split?, Option.bind_eq_bind, Option.bind_eq_some_iff, Option.guard_eq_some',
    Option.pure_def, Option.some.injEq, Prod.mk.injEq, Prod.exists, Bool.and_eq_true,
    cutLast?_eq_some_iff]
  constructor
  · rintro ⟨before, digits, ⟨hname, _⟩, _, ⟨hne, hdigits⟩, _, hlimit, rfl, rfl⟩
    rw [IsNumbered, String.toList_ofList]
    exact ⟨digits, hname, by simpa using hne, List.all_eq_true.mp hdigits, rfl, hlimit⟩
  · rintro ⟨digits, hname, hne, hdigits, rfl, hlimit⟩
    have hnumber : (!digits.isEmpty) = true ∧ digits.all Char.isDigit = true :=
      ⟨by simpa using hne, List.all_eq_true.mpr hdigits⟩
    exact ⟨_, digits, ⟨hname, underscore_not_mem hdigits⟩, (), hnumber, (), hlimit,
      String.ofList_toList, rfl⟩

theorem isNumbered_name (stem : String) {number : Nat} (h : number ≤ highest) :
    IsNumbered (name stem number) stem number :=
  ⟨_, toList_name stem number, Nat.toDigits_ne_nil, isDigit_of_mem_toDigits number,
    Nat.ofDigitChars_ten_toDigits, h⟩

theorem split?_name (stem : String) {number : Nat} (h : number ≤ highest) :
    split? (name stem number) = some (stem, number) :=
  split?_eq_some_iff.mpr (isNumbered_name stem h)

/-- A name has one stem and one number only. -/
theorem IsNumbered.unique {name stem stem' : String} {number number' : Nat}
    (h : IsNumbered name stem number) (h' : IsNumbered name stem' number') :
    stem = stem' ∧ number = number' := by
  have hsplit := split?_eq_some_iff.mpr h
  rw [split?_eq_some_iff.mpr h'] at hsplit
  obtain ⟨rfl, rfl⟩ := Prod.mk.inj (Option.some.inj hsplit)
  exact ⟨rfl, rfl⟩

theorem name_inj {stem stem' : String} {number number' : Nat} :
    name stem number = name stem' number' ↔ stem = stem' ∧ number = number' := by
  constructor
  · intro h
    have hcut := congrArg (fun text : String => cutLast? '_' text.toList) h
    simp only [cutLast?_name, Option.some.injEq, Prod.mk.injEq] at hcut
    obtain ⟨hstem, hdigits⟩ := hcut
    have hnumber := congrArg (fun digits => Nat.ofDigitChars 10 digits 0) hdigits
    simp only [Nat.ofDigitChars_ten_toDigits] at hnumber
    exact ⟨String.toList_injective hstem, hnumber⟩
  · rintro ⟨rfl, rfl⟩
    rfl

/-- The digits of a number in plain decimal: none in front can be left out. -/
structure IsDecimal (digits : List Char) (number : Nat) : Prop where
  isDigit : ∀ c ∈ digits, c.isDigit = true
  value : Nat.ofDigitChars 10 digits 0 = number
  no_leading_zero : digits.head? = some '0' → digits = ['0']
  ne_nil : digits ≠ []

theorem head?_toDigits_ne_zero {number : Nat} (h : 0 < number) :
    (Nat.toDigits 10 number).head? ≠ some '0' := by
  induction number using Nat.strongRecOn with
  | ind number ih =>
      by_cases hone : number < 10
      · rw [Nat.toDigits_of_lt_base hone, List.head?_cons, ne_eq, Option.some.injEq,
          Nat.digitChar_eq_zero]
        omega
      · -- the first digit is that of the number without its last digit
        have hfront : Nat.toDigits 10 (number / 10) ≠ [] := Nat.toDigits_ne_nil
        rw [Nat.toDigits_of_base_le (by decide) (by omega), List.head?_append_of_ne_nil _ hfront]
        exact ih (number / 10) (by omega) (by omega)

theorem isDecimal_toDigits (number : Nat) : IsDecimal (Nat.toDigits 10 number) number where
  isDigit := isDigit_of_mem_toDigits number
  value := Nat.ofDigitChars_ten_toDigits
  no_leading_zero := by
    intro hhead
    obtain rfl | hpos := Nat.eq_zero_or_pos number
    · rfl
    · exact absurd hhead (head?_toDigits_ne_zero hpos)
  ne_nil := Nat.toDigits_ne_nil

/-- A name is written with its number in plain decimal. -/
theorem exists_isDecimal (stem : String) (number : Nat) :
    ∃ digits, (name stem number).toList = stem.toList ++ '_' :: digits ∧ IsDecimal digits number :=
  ⟨_, toList_name stem number, isDecimal_toDigits number⟩

end Numbered

end VerilogOutline
