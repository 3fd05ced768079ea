import Mathlib.Data.List.Basic
import Mathlib.Logic.Function.Iterate
import VerilogOutline.Comment

/-!
# The normal form of comment removal

A text is clean when no comment can be removed from it. Removing comments ends in a
clean text and leaves clean texts alone. What is cut out of a clean text is clean, and
so is a text in which no comment opens.
-/

namespace VerilogOutline.Comment

/-- No `/*` has a `*/` behind it. -/
def BlockFree (text : List Char) : Prop :=
  ∀ before after, text = before ++ ("/*".toList ++ after) → ¬ "*/".toList <:+: after

/-- The text holds no line comment and no block comment that is closed. -/
structure Clean (text : List Char) : Prop where
  noLine : ¬ "//".toList <:+: text
  noBlock : BlockFree text

theorem pair_not_prefix_cons {first second c : Char} {rest : List Char}
    (h : ∀ tail, c = first → rest = second :: tail → False) : ¬ [first, second] <+: c :: rest := by
  rintro ⟨tail, htail⟩
  obtain ⟨rfl, rfl⟩ := List.cons.inj htail
  exact h tail rfl rfl

section CloseBlock

variable {text content rest : List Char}

theorem closeBlock?_cons {c : Char} (h : ∀ tail, c = '*' → rest = '/' :: tail → False) :
    closeBlock? (c :: rest) = closeBlock? rest := by
  rw [closeBlock?]
  exact h

theorem closeBlock?_append (h : ¬ "*/".toList <:+: content) (rest : List Char) :
    closeBlock? (content ++ ("*/".toList ++ rest)) = some rest := by
  induction content with
  | nil => rfl
  | cons c content ih =>
      rw [List.cons_append, closeBlock?_cons, ih (mt List.infix_cons h)]
      · rintro tail rfl htail
        -- the two characters cannot overlap with those behind the content
        cases content with
        | nil => exact absurd (List.cons.inj htail).1 (by decide)
        | cons d content =>
            obtain ⟨rfl, _⟩ := List.cons.inj htail
            exact h ⟨[], content, rfl⟩

theorem exists_eq_append_of_closeBlock? (h : closeBlock? text = some rest) :
    ∃ content, text = content ++ ("*/".toList ++ rest) := by
  fun_induction closeBlock? text with
  | case1 tail =>
      obtain rfl : tail = rest := by simpa using h
      exact ⟨[], rfl⟩
  | case2 c tail _ ih =>
      obtain ⟨content, rfl⟩ := ih h
      exact ⟨c :: content, rfl⟩
  | case3 => contradiction

theorem closeBlock?_eq_none_iff : closeBlock? text = none ↔ ¬ "*/".toList <:+: text := by
  fun_induction closeBlock? text with
  | case1 rest =>
      simp only [reduceCtorEq, false_iff, not_not]
      exact ⟨[], rest, rfl⟩
  | case2 c rest hne ih =>
      rw [ih, List.infix_cons_iff, not_or]
      exact (and_iff_right (pair_not_prefix_cons hne)).symm
  | case3 => simp

end CloseBlock

section BlockFree

variable {text : List Char}

theorem blockFree_cons {c : Char} {rest : List Char} :
    BlockFree (c :: rest) ↔
      (∀ after, c = '/' → rest = '*' :: after → ¬ "*/".toList <:+: after) ∧ BlockFree rest := by
  constructor
  · intro h
    refine ⟨?_, ?_⟩
    · rintro after rfl rfl
      exact h [] after rfl
    · intro before after hsplit
      exact h (c :: before) after (by rw [hsplit, List.cons_append])
  · rintro ⟨hhead, htail⟩ before after hsplit
    cases before with
    | nil =>
        obtain ⟨rfl, rfl⟩ := List.cons.inj hsplit
        exact hhead after rfl rfl
    | cons _ before => exact htail before after (List.cons.inj hsplit).2

theorem BlockFree.of_isInfix {part : List Char} (h : BlockFree text) (hpart : part <:+: text) :
    BlockFree part := by
  obtain ⟨front, back, rfl⟩ := hpart
  intro before after hsplit hclose
  have hsplit' : front ++ part ++ back = front ++ before ++ ("/*".toList ++ (after ++ back)) := by
    rw [hsplit]
    simp only [List.append_assoc]
  exact h _ _ hsplit' (hclose.trans (List.prefix_append after back).isInfix)

theorem blockFree_of_not_close (h : ¬ "*/".toList <:+: text) : BlockFree text := by
  rintro before after rfl hclose
  exact h (hclose.trans ⟨before ++ "/*".toList, [], by simp⟩)

end BlockFree

section Passes

variable {text : List Char}

theorem removeBlocks_cons {c : Char} {rest : List Char}
    (h : ∀ tail, c = '/' → rest = '*' :: tail → False) :
    removeBlocks (c :: rest) = c :: removeBlocks rest := by
  rw [removeBlocks]
  exact h

theorem removeBlocks_sublist (text : List Char) : (removeBlocks text).Sublist text := by
  fun_induction removeBlocks text with
  | case1 => exact List.Sublist.refl _
  | case2 rest after hclose ih =>
      obtain ⟨content, rfl⟩ := exists_eq_append_of_closeBlock? hclose
      have hafter : after <:+ '/' :: '*' :: (content ++ ("*/".toList ++ after)) :=
        ⟨'/' :: '*' :: (content ++ "*/".toList), by simp⟩
      exact ih.trans hafter.sublist
  | case3 => exact List.Sublist.refl _
  | case4 c rest _ ih => exact ih.cons_cons c

/-- A pass changes nothing exactly if there is nothing for it to remove. -/
theorem removeBlocks_eq_self_iff : removeBlocks text = text ↔ BlockFree text := by
  fun_induction removeBlocks text with
  | case1 => simp [BlockFree]
  | case2 rest after hclose _ =>
      have hlength := (removeBlocks_sublist after).length_le
      have hshorter := closeBlock?_length hclose
      constructor
      · intro heq
        rw [heq] at hlength
        simp only [List.length_cons] at hlength
        omega
      · intro hfree
        have hnone := closeBlock?_eq_none_iff.mpr ((blockFree_cons.mp hfree).1 rest rfl rfl)
        rw [hclose] at hnone
        contradiction
  | case3 rest hclose =>
      have hrest := closeBlock?_eq_none_iff.mp hclose
      refine iff_of_true rfl (blockFree_cons.mpr ⟨?_, blockFree_cons.mpr ⟨?_, ?_⟩⟩)
      · rintro after _ hafter
        rwa [← (List.cons.inj hafter).2]
      · intro after hslash
        exact absurd hslash (by decide)
      · exact blockFree_of_not_close hrest
  | case4 c rest hne ih =>
      rw [List.cons.injEq, eq_self, true_and, ih, blockFree_cons]
      exact (and_iff_right fun after hc hrest => (hne after hc hrest).elim).symm

theorem removeBlocks_eq_self_of_length (h : ¬ (removeBlocks text).length < text.length) :
    removeBlocks text = text :=
  (removeBlocks_sublist text).eq_of_length_le (Nat.not_lt.mp h)

/-- The passes come to an end: each of them shortens the text, up to the first that changes
nothing. -/
theorem exists_passes (text : List Char) :
    ∃ passes, (∀ n < passes,
        (removeBlocks^[n + 1] text).length < (removeBlocks^[n] text).length) ∧
      removeBlocks (removeBlocks^[passes] text) = removeBlocks^[passes] text ∧
      stripBlocks text = removeBlocks^[passes] text := by
  fun_induction stripBlocks text with
  | case1 text hshorter ih =>
      obtain ⟨passes, hpasses, hlast, heq⟩ := ih
      refine ⟨passes + 1, ?_, hlast, heq⟩
      intro n hn
      cases n with
      | zero => exact hshorter
      | succ n => exact hpasses n (Nat.lt_of_succ_lt_succ hn)
  | case2 text hsame =>
      exact ⟨0, by simp, removeBlocks_eq_self_of_length hsame, rfl⟩

theorem blockFree_stripBlocks (text : List Char) : BlockFree (stripBlocks text) := by
  obtain ⟨passes, _, hlast, heq⟩ := exists_passes text
  rw [heq]
  exact removeBlocks_eq_self_iff.mp hlast

theorem BlockFree.stripBlocks_eq_self (h : BlockFree text) : stripBlocks text = text := by
  rw [stripBlocks, removeBlocks_eq_self_iff.mpr h, if_neg (Nat.lt_irrefl _)]

/-- It makes no difference whether a pass was made before. -/
theorem stripBlocks_removeBlocks (text : List Char) :
    stripBlocks (removeBlocks text) = stripBlocks text := by
  by_cases h : (removeBlocks text).length < text.length
  · rw [stripBlocks.eq_def text, if_pos h]
  · rw [removeBlocks_eq_self_of_length h]

end Passes

section Lines

variable {text : List Char}

theorem dropLine_suffix (rest : List Char) :
    rest.dropWhile (· != '\n') <:+ '/' :: '/' :: rest :=
  (List.dropWhile_suffix _).trans ⟨['/', '/'], rfl⟩

theorem removeLines_cons {c : Char} {rest : List Char}
    (h : ∀ tail, c = '/' → rest = '/' :: tail → False) :
    removeLines (c :: rest) = c :: removeLines rest := by
  rw [removeLines]
  exact h

/-- Where a comment was removed a line ends, so any other character stands in front of
what stood behind it. -/
theorem exists_of_removeLines_eq_cons {c : Char} {tail : List Char} (hc : c ≠ '\n')
    (h : removeLines text = c :: tail) : ∃ rest, text = c :: rest ∧ tail = removeLines rest := by
  fun_induction removeLines text with
  | case1 => contradiction
  | case2 rest ih =>
      obtain ⟨after, hafter, _⟩ := ih h
      have hhead := List.head?_dropWhile_not (fun c => c != '\n') rest
      rw [hafter] at hhead
      simp [hc] at hhead
  | case3 d rest _ _ =>
      obtain ⟨rfl, rfl⟩ := List.cons.inj h
      exact ⟨rest, rfl, rfl⟩

theorem prefix_of_prefix_removeLines {word : List Char} (hword : '\n' ∉ word)
    (h : word <+: removeLines text) : word <+: text := by
  induction word generalizing text with
  | nil => exact List.nil_prefix
  | cons c word ih =>
      rw [List.mem_cons, not_or] at hword
      obtain ⟨tail, htail⟩ := h
      obtain ⟨rest, rfl, hrest⟩ := exists_of_removeLines_eq_cons (Ne.symm hword.1) htail.symm
      exact (List.prefix_cons_inj c).mpr (ih hword.2 ⟨tail, hrest⟩)

/-- Removing line comments does not bring a word about that is within a line. -/
theorem infix_of_infix_removeLines {word : List Char} (hword : '\n' ∉ word)
    (h : word <:+: removeLines text) : word <:+: text := by
  fun_induction removeLines text with
  | case1 => exact h
  | case2 rest ih => exact (ih h).trans (dropLine_suffix rest).isInfix
  | case3 c rest hne ih =>
      rcases List.infix_cons_iff.mp h with hstart | hinner
      · rw [← removeLines_cons hne] at hstart
        exact (prefix_of_prefix_removeLines hword hstart).isInfix
      · exact (ih hinner).trans (List.suffix_cons c rest).isInfix

theorem noLine_removeLines (text : List Char) : ¬ "//".toList <:+: removeLines text := by
  fun_induction removeLines text with
  | case1 => decide
  | case2 rest ih => exact ih
  | case3 c rest hne ih =>
      rw [List.infix_cons_iff, not_or]
      refine ⟨pair_not_prefix_cons ?_, ih⟩
      intro tail hc htail
      obtain ⟨after, hafter, _⟩ := exists_of_removeLines_eq_cons (by decide) htail
      exact hne after hc hafter

theorem BlockFree.removeLines (h : BlockFree text) : BlockFree (removeLines text) := by
  fun_induction Comment.removeLines text with
  | case1 => exact h
  | case2 rest ih => exact ih (h.of_isInfix (dropLine_suffix rest).isInfix)
  | case3 c rest _ ih =>
      obtain ⟨hhead, htail⟩ := blockFree_cons.mp h
      refine blockFree_cons.mpr ⟨?_, ih htail⟩
      intro after hc hafter hclose
      obtain ⟨between, hbetween, rfl⟩ := exists_of_removeLines_eq_cons (by decide) hafter
      exact hhead between hc hbetween (infix_of_infix_removeLines (by decide) hclose)

theorem removeLines_eq_self (h : ¬ "//".toList <:+: text) : Comment.removeLines text = text := by
  fun_induction Comment.removeLines text with
  | case1 => rfl
  | case2 rest _ => exact absurd ⟨[], rest, rfl⟩ h
  | case3 c rest _ ih => rw [ih (mt List.infix_cons h)]

end Lines

section Strip

variable {text : List Char}

theorem Clean.of_isInfix {part : List Char} (h : Clean text) (hpart : part <:+: text) : Clean part where
  noLine := fun hinner => h.noLine (hinner.trans hpart)
  noBlock := h.noBlock.of_isInfix hpart

theorem clean_strip (text : List Char) : Clean (strip text) where
  noLine := noLine_removeLines _
  noBlock := (blockFree_stripBlocks text).removeLines

theorem Clean.strip_eq_self (h : Clean text) : strip text = text := by
  rw [strip, h.noBlock.stripBlocks_eq_self, removeLines_eq_self h.noLine]

end Strip

/-- Neither kind of comment opens anywhere in the text. -/
structure OpensNone (text : List Char) : Prop where
  noLine : ¬ "//".toList <:+: text
  noBlock : ¬ "/*".toList <:+: text

namespace OpensNone

variable {text : List Char}

theorem clean (h : OpensNone text) : Clean text where
  noLine := h.noLine
  noBlock := by
    rintro before after rfl
    exact absurd ⟨before, after, by simp⟩ h.noBlock

theorem strip_eq_self (h : OpensNone text) : strip text = text :=
  h.clean.strip_eq_self

theorem of_cons {c : Char} (h : OpensNone (c :: text)) : OpensNone text where
  noLine := mt List.infix_cons h.noLine
  noBlock := mt List.infix_cons h.noBlock

end OpensNone

end VerilogOutline.Comment
