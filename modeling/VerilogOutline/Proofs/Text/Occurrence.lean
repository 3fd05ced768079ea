import Mathlib.Data.List.Basic
import VerilogOutline.Text.Basic

/-!
# Where a word stands in a text

Searching for a word finds its first occurrence, and text behind that occurrence
has no say in it. The keyword of a region, moreover, counts only where it does not
go on from an identifier character.
-/

namespace VerilogOutline

theorem Lexeme.keyword?_eq_some_iff {word : String} {text rest : List Char} :
    keyword? word text = some rest ↔
      text = word.toList ++ rest ∧ startsInWord rest = false := by
  simp [keyword?, Option.filter_eq_some_iff, eq_comm (a := text)]

namespace Text

open Lexeme

/-- Whether a text ends with an identifier character. -/
def endsInWord (text : List Char) : Bool :=
  text.getLast?.any isIdentChar

@[simp] theorem endsInWord_nil : endsInWord [] = false := rfl

@[simp] theorem endsInWord_concat (text : List Char) (c : Char) :
    endsInWord (text ++ [c]) = isIdentChar c := by
  simp [endsInWord]

/-- Only the last piece of a text decides how it ends. -/
theorem endsInWord_append (first : List Char) {second : List Char} (h : second ≠ []) :
    endsInWord (first ++ second) = endsInWord second := by
  simp [endsInWord, List.getLast?_append, List.getLast?_eq_some_getLast h]

/-- There are only so many ways to cut a text in two. -/
theorem forall_append_iff {text : List Char} {p : List Char → List Char → Prop} :
    (∀ first second, text = first ++ second → p first second) ↔
      ∀ n < text.length + 1, p (text.take n) (text.drop n) := by
  constructor
  · intro h n _
    exact h _ _ (List.take_append_drop n text).symm
  · intro h first second hsplit
    have hlength : first.length < text.length + 1 := by
      rw [hsplit, List.length_append]
      omega
    have hcut := h first.length hlength
    rwa [hsplit, List.take_left, List.drop_left] at hcut

/-- In a text followed by a word, the word does not begin earlier than there. -/
def FirstBehind (word before : List Char) : Prop :=
  ∀ first second, before = first ++ second → second ≠ [] → ¬ word <+: second ++ word

instance (word : List Char) : DecidablePred (FirstBehind word) :=
  fun _ => decidable_of_iff _ forall_append_iff.symm

/-- Of two ways to cut a text, the later one cuts the second piece of the earlier one. -/
theorem exists_append_of_length_le {first second front back : List Char}
    (h : first ++ second = front ++ back) (hlength : first.length ≤ front.length) :
    ∃ middle, front = first ++ middle ∧ second = middle ++ back := by
  have hstart : first <+: front :=
    List.prefix_of_prefix_length_le ⟨second, h⟩ (List.prefix_append _ _) hlength
  obtain ⟨middle, rfl⟩ := hstart
  rw [List.append_assoc] at h
  exact ⟨middle, rfl, List.append_cancel_left h⟩

/-- Text behind a word is too far away for another occurrence before the word. -/
theorem prefix_append_word_iff {word second rest : List Char} :
    word <+: second ++ (word ++ rest) ↔ word <+: second ++ word := by
  rw [← List.append_assoc]
  constructor
  · intro h
    exact List.prefix_of_prefix_length_le h (List.prefix_append _ _) (by simp)
  · intro h
    exact h.trans (List.prefix_append _ _)

theorem dropPrefix?_eq_isPrefixOf? (word text : List Char) :
    text.dropPrefix? word = word.isPrefixOf? text := by
  apply Option.ext
  intro rest
  rw [List.dropPrefix?_eq_some_iff, List.isPrefixOf?_eq_some_iff_append_eq]
  simp only [beq_iff_eq, exists_eq_right]
  exact eq_comm

/-- The search is the one that the library has for all lists. -/
theorem breakOn?_eq_dropInfix? (word text : List Char) :
    breakOn? word text = text.dropInfix? word := by
  have hgo : ∀ passed, List.dropInfix?.go word text passed =
      (breakOn? word text).map fun found => (passed.reverse ++ found.1, found.2) := by
    -- `passed` is what the search has left behind, backwards
    induction text with
    | nil =>
        intro passed
        cases word <;> simp [List.dropInfix?.go, breakOn?, List.isPrefixOf?]
    | cons c cs ih =>
        intro passed
        rw [List.dropInfix?.go, breakOn?, dropPrefix?_eq_isPrefixOf?]
        cases word.isPrefixOf? (c :: cs) with
        | some rest => simp
        | none => simp [ih, Function.comp_def]
  rw [List.dropInfix?, hgo]
  simp

/-- Breaking a text at a word finds its first occurrence. -/
theorem breakOn?_eq_some_iff {word text before rest : List Char} :
    breakOn? word text = some (before, rest) ↔
      text = before ++ (word ++ rest) ∧ FirstBehind word before := by
  rw [breakOn?_eq_dropInfix?, List.dropInfix?_eq_some_iff]
  simp only [beq_iff_eq, exists_eq_right, List.append_assoc]
  apply and_congr_right
  intro htext
  constructor
  · intro hshortest first second hbefore hne hstart
    obtain ⟨behind, hbehind⟩ := hstart
    have hearlier : text = first ++ (word ++ (behind ++ rest)) := by
      rw [htext, hbefore, List.append_assoc, ← List.append_assoc second, ← hbehind,
        List.append_assoc]
    have hlength := hshortest first word (behind ++ rest) hearlier rfl
    have hpos := List.length_pos_iff.mpr hne
    rw [hbefore, List.length_append] at hlength
    omega
  · intro hfirst first word' behind hearlier hword
    obtain rfl : word' = word := hword
    by_contra hlength
    obtain ⟨middle, hbefore, hmiddle⟩ :=
      exists_append_of_length_le (hearlier.symm.trans htext) (by omega)
    have hne : middle ≠ [] := by
      rintro rfl
      simp [hbefore] at hlength
    exact hfirst first middle hbefore hne (prefix_append_word_iff.mp ⟨behind, hmiddle⟩)

/-- A word that a text contains is found. -/
theorem exists_breakOn? {word text : List Char} (h : word <:+: text) :
    ∃ before rest, breakOn? word text = some (before, rest) := by
  induction text with
  | nil =>
      obtain rfl : word = [] := List.infix_nil.mp h
      exact ⟨[], [], rfl⟩
  | cons c rest ih =>
      cases hstart : word.isPrefixOf? (c :: rest) with
      | some found => exact ⟨[], found, by rw [breakOn?, hstart]⟩
      | none =>
          have hrest : word <:+: rest := by
            rcases List.infix_cons_iff.mp h with ⟨found, hfound⟩ | hrest
            · rw [List.isPrefixOf?_eq_some_iff_append_eq.mpr hfound] at hstart
              contradiction
            · exact hrest
          obtain ⟨before, found, hfound⟩ := ih hrest
          exact ⟨c :: before, found, by rw [breakOn?, hstart, hfound]; rfl⟩

/-- A search that succeeds does the same in a longer text. -/
theorem breakOn?_append {word text before rest : List Char}
    (h : breakOn? word text = some (before, rest)) (behind : List Char) :
    breakOn? word (text ++ behind) = some (before, rest ++ behind) := by
  obtain ⟨rfl, hfirst⟩ := breakOn?_eq_some_iff.mp h
  exact breakOn?_eq_some_iff.mpr ⟨by simp only [List.append_assoc], hfirst⟩

end Text

end VerilogOutline
