import Mathlib.Data.List.Basic
import VerilogOutline.Proofs.Text.Occurrence
import VerilogOutline.Sighting

/-!
# The keyword that is found next

A scan looks for the first `module` that does not go on from an identifier
character of the text searched. Every occurrence before that one is sheltered by
such a character.
-/

namespace VerilogOutline.Sighting

open Text Lexeme

/-- Behind `before`, every `module` that begins in the gap goes on from an identifier
character. It may extend into the text behind the gap. -/
def Sheltered (before gap behind : List Char) : Prop :=
  ∀ first second, gap = first ++ second → second ≠ [] →
    "module".toList <+: second ++ behind → endsInWord (before ++ first) = true

section Sheltered

variable {before gap behind : List Char}

theorem sheltered_nil : Sheltered before [] behind := by
  intro first second hsplit hne
  exact absurd (List.append_eq_nil_iff.mp hsplit.symm).2 hne

theorem sheltered_cons {c : Char} :
    Sheltered before (c :: gap) behind ↔
      ("module".toList <+: c :: gap ++ behind → endsInWord before = true) ∧
        Sheltered (before ++ [c]) gap behind := by
  constructor
  · intro h
    constructor
    · intro hword
      simpa using h [] (c :: gap) rfl (List.cons_ne_nil _ _) hword
    · intro first second hsplit hne hword
      simpa using h (c :: first) second (by rw [hsplit, List.cons_append]) hne hword
  · intro h first second hsplit hne hword
    obtain ⟨hhead, htail⟩ := h
    cases first with
    | nil =>
        obtain rfl : c :: gap = second := hsplit
        rw [List.append_nil]
        exact hhead hword
    | cons d first =>
        obtain ⟨rfl, hgap⟩ := List.cons.inj hsplit
        simpa using htail first second hgap hne hword

end Sheltered

theorem nextKeyword?_of_module {text : List Char} (h : "module".toList <+: text) :
    nextKeyword? false text = some text := by
  cases text with
  | nil => exact absurd (List.prefix_nil.mp h) (by decide)
  | cons c rest =>
      rw [nextKeyword?, List.isPrefixOf_iff_prefix.mpr h]
      rfl

theorem nextKeyword?_cons {inWord : Bool} {c : Char} {rest : List Char}
    (h : "module".toList <+: c :: rest → inWord = true) :
    nextKeyword? inWord (c :: rest) = nextKeyword? (isIdentChar c) rest := by
  rw [nextKeyword?, if_neg]
  intro hfound
  obtain ⟨hword, hstart⟩ := Bool.and_eq_true_iff.mp hfound
  rw [h (List.isPrefixOf_iff_prefix.mp hstart)] at hword
  contradiction

/-- No keyword is found exactly if all are sheltered. -/
theorem nextKeyword?_eq_none_iff (before : List Char) {text : List Char} :
    nextKeyword? (endsInWord before) text = none ↔ Sheltered before text [] := by
  induction text generalizing before with
  | nil => simp [nextKeyword?, sheltered_nil]
  | cons c rest ih =>
      rw [sheltered_cons, List.append_nil]
      by_cases hword : "module".toList <+: c :: rest → endsInWord before = true
      · rw [nextKeyword?_cons hword, ← endsInWord_concat before c, ih]
        exact ⟨fun h => ⟨hword, h⟩, And.right⟩
      · obtain ⟨hstart, hbound⟩ := Classical.not_imp.mp hword
        rw [Bool.not_eq_true] at hbound
        rw [hbound, nextKeyword?_of_module hstart]
        constructor
        · intro h
          contradiction
        · intro h
          exact absurd (h.1 hstart) (by decide)

/-- The keyword found is the first one that is not sheltered. -/
theorem nextKeyword?_eq_some_iff (before : List Char) {text found : List Char} :
    nextKeyword? (endsInWord before) text = some found ↔
      ∃ gap, text = gap ++ found ∧ "module".toList <+: found ∧
        endsInWord (before ++ gap) = false ∧ Sheltered before gap found := by
  induction text generalizing before with
  | nil =>
      simp only [nextKeyword?, reduceCtorEq, false_iff, not_exists, not_and]
      intro gap hsplit hstart
      obtain ⟨_, rfl⟩ := List.append_eq_nil_iff.mp hsplit.symm
      exact absurd (List.prefix_nil.mp hstart) (by decide)
  | cons c rest ih =>
      by_cases hword : "module".toList <+: c :: rest → endsInWord before = true
      · rw [nextKeyword?_cons hword, ← endsInWord_concat before c, ih]
        constructor
        · intro h
          obtain ⟨gap, rfl, hstart, hbound, hsheltered⟩ := h
          exact ⟨c :: gap, rfl, hstart, by simpa using hbound,
            sheltered_cons.mpr ⟨hword, hsheltered⟩⟩
        · intro h
          obtain ⟨gap, hsplit, hstart, hbound, hsheltered⟩ := h
          cases gap with
          | nil =>
              obtain rfl : c :: rest = found := hsplit
              rw [List.append_nil, hword hstart] at hbound
              contradiction
          | cons d gap =>
              obtain ⟨rfl, hrest⟩ := List.cons.inj hsplit
              exact ⟨gap, hrest, hstart, by simpa using hbound, (sheltered_cons.mp hsheltered).2⟩
      · obtain ⟨hstart, hbound⟩ := Classical.not_imp.mp hword
        rw [Bool.not_eq_true] at hbound
        rw [hbound, nextKeyword?_of_module hstart, Option.some.injEq]
        constructor
        · intro h
          subst h
          exact ⟨[], rfl, hstart, by simpa using hbound, sheltered_nil⟩
        · intro h
          obtain ⟨gap, hsplit, _, _, hsheltered⟩ := h
          cases gap with
          | nil => exact hsplit
          | cons d gap =>
              obtain ⟨rfl, rfl⟩ := List.cons.inj hsplit
              rw [(sheltered_cons.mp hsheltered).1 hstart] at hbound
              contradiction

section Overlap

/-- The letter `m` stands only at the beginning of `module`. -/
theorem eq_nil_of_module_eq {first rest : List Char}
    (h : "module".toList = first ++ 'm' :: rest) : first = [] := by
  cases first with
  | nil => rfl
  | cons c first =>
      have htail : "odule".toList = first ++ 'm' :: rest := (List.cons.inj h).2
      have hmem : 'm' ∈ "odule".toList := by rw [htail]; simp
      exact absurd hmem (by decide)

theorem exists_cons_of_module {text : List Char} (h : "module".toList <+: text) :
    ∃ rest, text = 'm' :: rest := by
  obtain ⟨rest, rfl⟩ := h
  exact ⟨_, rfl⟩

/-- Two occurrences of `module` do not overlap: one that begins in front of another
ends in front of it. -/
theorem prefix_of_prefix_append {second behind : List Char} (hne : second ≠ [])
    (h : "module".toList <+: second ++ behind)
    (hbehind : behind = [] ∨ "module".toList <+: behind) : "module".toList <+: second := by
  obtain ⟨rest, hrest⟩ := h
  rcases List.append_eq_append_iff.mp hrest with ⟨middle, hsecond, _⟩ | ⟨middle, hmodule, htail⟩
  · exact ⟨middle, hsecond.symm⟩
  · cases middle with
    | nil => exact ⟨[], by rw [List.append_nil, hmodule, List.append_nil]⟩
    | cons c middle =>
        rcases hbehind with rfl | hbehind
        · contradiction
        · obtain ⟨tail, hcons⟩ := exists_cons_of_module hbehind
          rw [hcons] at htail
          obtain ⟨rfl, _⟩ := List.cons.inj htail
          exact absurd (eq_nil_of_module_eq hmodule) hne

end Overlap

end VerilogOutline.Sighting
