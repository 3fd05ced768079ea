import VerilogOutline.Proofs.Text.Trim

/-!
# Pieces of a text

What is cut out of a text stands in it and holds no separator, and what a reader takes
off a text stands in front of what it leaves.
-/

namespace VerilogOutline

namespace Text

theorem trim_isInfix (text : List Char) : trim text <:+: text := by
  obtain ⟨lead, trail, _, _, htext⟩ := exists_eq_append_trim text
  exact ⟨lead, trail, by rw [List.append_assoc, ← htext]⟩

variable {separator : Char}

theorem isInfix_of_mem_splitOn {text piece : List Char} (h : piece ∈ text.splitOn separator) :
    piece <:+: text := by
  obtain ⟨i, hget⟩ := List.mem_iff_getElem?.mp h
  have hmem : piece ∈ (text.splitOn separator).intersperse [separator] := by
    apply List.mem_of_getElem?
    rw [List.getElem?_intersperse_two_mul]
    exact hget
  have hinside : piece <:+: [separator].intercalate (text.splitOn separator) :=
    List.infix_of_mem_flatten hmem
  rwa [List.intercalate_splitOn] at hinside

theorem not_mem_of_mem_splitOn {text : List Char} :
    ∀ piece ∈ text.splitOn separator, separator ∉ piece := by
  induction text with
  | nil => simp
  | cons c rest ih =>
      rw [List.splitOn_cons_eq_if_modifyHead]
      split
      next => exact List.forall_mem_cons.mpr ⟨List.not_mem_nil, ih⟩
      next hc =>
        obtain ⟨first, later, hpieces⟩ :=
          List.exists_cons_of_ne_nil (List.splitOn_ne_nil separator rest)
        rw [hpieces, List.forall_mem_cons] at ih
        rw [hpieces, List.modifyHead_cons, List.forall_mem_cons, List.mem_cons, not_or]
        exact ⟨⟨fun heq => hc (by simp [heq]), ih.1⟩, ih.2⟩

theorem eq_append_of_cutFirst? {text before after : List Char}
    (h : cutFirst? separator text = some (before, after)) :
    text = before ++ separator :: after := by
  induction text generalizing before with
  | nil => contradiction
  | cons c rest ih =>
      rw [cutFirst?] at h
      split at h
      next hc =>
        obtain ⟨rfl, rfl⟩ : [] = before ∧ rest = after := by simpa using h
        rw [hc, List.nil_append]
      next =>
        simp only [Option.map_eq_some_iff, Prod.mk.injEq, Prod.exists] at h
        obtain ⟨before, _, hcut, rfl, rfl⟩ := h
        rw [ih hcut, List.cons_append]

theorem cutFirst?_append {first : List Char} (h : separator ∉ first) (second : List Char) :
    cutFirst? separator (first ++ separator :: second) = some (first, second) := by
  induction first with
  | nil => simp [cutFirst?]
  | cons c rest ih =>
      rw [List.mem_cons, not_or] at h
      rw [List.cons_append, cutFirst?, if_neg (Ne.symm h.1), ih h.2]
      rfl

theorem cutFirst?_eq_none_iff {text : List Char} :
    cutFirst? separator text = none ↔ separator ∉ text := by
  constructor
  · rintro hnone hmem
    obtain ⟨before, after, rfl, hbefore⟩ := List.eq_append_cons_of_mem hmem
    rw [cutFirst?_append hbefore] at hnone
    contradiction
  · intro h
    rw [Option.eq_none_iff_forall_ne_some]
    rintro ⟨before, after⟩ hcut
    rw [eq_append_of_cutFirst? hcut] at h
    simp at h

/-- A text is cut at the first separator, so there is none in front of the cut. -/
theorem cutFirst?_eq_some_iff {text before after : List Char} :
    cutFirst? separator text = some (before, after) ↔
      text = before ++ separator :: after ∧ separator ∉ before := by
  constructor
  · intro h
    have htext := eq_append_of_cutFirst? h
    have hmem : separator ∈ text := by simp [htext]
    obtain ⟨first, rest, rfl, hfirst⟩ := List.eq_append_cons_of_mem hmem
    rw [cutFirst?_append hfirst] at h
    obtain ⟨rfl, rfl⟩ := Prod.mk.inj (Option.some.inj h)
    exact ⟨rfl, hfirst⟩
  · rintro ⟨rfl, hbefore⟩
    exact cutFirst?_append hbefore after

end Text

namespace Lexeme

open Text

/-- Nothing of the text is lost by reading an identifier. -/
theorem eq_append_of_identifier? {text name rest : List Char}
    (h : identifier? text = some (name, rest)) : text = name ++ rest := by
  unfold identifier? at h
  split at h
  next => contradiction
  next c tail =>
    split at h
    next =>
      obtain ⟨rfl, rfl⟩ : c :: tail.takeWhile isIdentChar = name ∧ _ = rest := by
        simpa using h
      simp [List.takeWhile_append_dropWhile]
    next => contradiction

theorem eq_append_of_range? {text range rest : List Char}
    (h : range? text = some (range, rest)) : text = range ++ rest := by
  unfold range? at h
  split at h
  next inner =>
    split at h
    next c inside after htake hdrop =>
      obtain ⟨rfl, rfl⟩ : '[' :: c :: inside ++ [']'] = range ∧ after = rest := by simpa using h
      have hinner : inner = (c :: inside) ++ ']' :: after := by
        rw [← htake, ← hdrop, List.takeWhile_append_dropWhile]
      rw [hinner]
      simp
    next => contradiction
  next => contradiction

theorem exists_of_optional_eq_some {α : Type} {read? : List Char → Option (α × List Char)}
    {text rest : List Char} {value : α} (h : optional read? text = (some value, rest)) :
    ∃ after, read? (dropSpace text) = some (value, after) := by
  unfold optional at h
  split at h
  next found after hsome =>
    obtain ⟨hvalue, _⟩ := Prod.mk.inj h
    exact ⟨after, by rw [hsome, Option.some.inj hvalue]⟩
  next =>
    obtain ⟨hvalue, _⟩ := Prod.mk.inj h
    contradiction

end Lexeme

end VerilogOutline
