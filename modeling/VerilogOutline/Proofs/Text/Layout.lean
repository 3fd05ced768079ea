import VerilogOutline.Proofs.Text.Occurrence
import VerilogOutline.Proofs.Text.Trim

/-!
# Words and lists as written

How words are laid out one behind the other, and how lists of them are laid out
between commas. Space may be any run of what the grammar skips.
-/

namespace VerilogOutline.Text

open Lexeme

/-- Words in order with space between them. -/
inductive Spaced : List (List Char) → List Char → Prop
  | single (word : List Char) : Spaced [word] word
  | cons (word : List Char) {space text : List Char} {words : List (List Char)} :
      space ≠ [] → IsSpace space → Spaced words text →
      Spaced (word :: words) (word ++ (space ++ text))

/-- No identifier reaches from one text into the next. -/
def Parted (before behind : List Char) : Prop :=
  endsInWord before = true → startsInWord behind = false

instance (before behind : List Char) : Decidable (Parted before behind) :=
  inferInstanceAs (Decidable (_ → _))

/-- Words in order, and what is behind them. There may be space in front of a word, and
none is needed where words do not run into each other. -/
inductive Laid (behind : List Char) : List (List Char) → List Char → Prop
  | nil : Laid behind [] behind
  | cons (word : List Char) {space text : List Char} {words : List (List Char)} :
      IsSpace space → Parted word text → Laid behind words text →
      Laid behind (word :: words) (space ++ (word ++ text))

/-- Words as they stand between two commas, with or without space around them. -/
def Entry (words : List (List Char)) (text : List Char) : Prop :=
  ∃ lead core trail, text = lead ++ (core ++ trail) ∧ IsSpace lead ∧ IsSpace trail ∧
    Spaced words core

/-- Entries with commas between them. A list without entries is space. -/
inductive Listed : List (List (List Char)) → List Char → Prop
  | nil (space : List Char) : IsSpace space → Listed [] space
  | single (words : List (List Char)) (text : List Char) :
      Entry words text → Listed [words] text
  | cons (words : List (List Char)) (text : List Char) {next : List (List Char)}
      {later : List (List (List Char))} {behind : List Char} :
      Entry words text → Listed (next :: later) behind →
      Listed (words :: next :: later) (text ++ ',' :: behind)

def layWords : List (List Char) → List Char
  | [] => []
  | [word] => word
  | word :: words => word ++ (' ' :: layWords words)

def layList : List (List (List Char)) → List Char
  | [] => []
  | [words] => layWords words
  | words :: later => layWords words ++ ',' :: layList later

theorem spaced_layWords {words : List (List Char)} (h : words ≠ []) :
    Spaced words (layWords words) := by
  induction words with
  | nil => contradiction
  | cons word words ih =>
      cases words with
      | nil => exact .single word
      | cons next later =>
          have hspace : IsSpace [' '] := by decide
          exact .cons word (List.cons_ne_nil _ _) hspace (ih (List.cons_ne_nil _ _))

theorem entry_layWords {words : List (List Char)} (h : words ≠ []) :
    Entry words (layWords words) :=
  ⟨[], layWords words, [], by simp, by decide, by decide, spaced_layWords h⟩

theorem listed_layList {entries : List (List (List Char))} (h : ∀ words ∈ entries, words ≠ []) :
    Listed entries (layList entries) := by
  induction entries with
  | nil => exact .nil [] (by decide)
  | cons words later ih =>
      have hwords := entry_layWords (h words List.mem_cons_self)
      have hlater := ih fun w hw => h w (List.mem_cons_of_mem _ hw)
      cases later with
      | nil => exact .single words _ hwords
      | cons next later => exact .cons words _ hwords hlater

/-- The trimmed texts between the commas of a list, without the empty ones. -/
def pieces (text : List Char) : List (List Char) :=
  ((text.splitOn ',').map trim).filter (!·.isEmpty)

theorem pieces_trim (text : List Char) : pieces (trim text) = pieces text := by
  rw [pieces, pieces, map_trim_splitOn_trim (by decide)]

theorem pieces_of_blank {text : List Char} (h : ∀ c ∈ text, isBlank c) : pieces text = [] := by
  have htrim : trim text = [] := by
    rw [← List.append_nil text, trim_append_left h]
    rfl
  rw [← pieces_trim, htrim]
  rfl

theorem pieces_of_not_mem {text : List Char} (h : ',' ∉ text) (hne : trim text ≠ []) :
    pieces text = [trim text] := by
  simp [pieces, List.splitOn_eq_singleton h, hne]

theorem pieces_append {first : List Char} (h : ',' ∉ first) (hne : trim first ≠ [])
    (second : List Char) : pieces (first ++ ',' :: second) = trim first :: pieces second := by
  simp [pieces, List.splitOn_append_cons_self_of_not_mem h, hne]

theorem IsSpace.not_mem {space : List Char} (h : IsSpace space) {c : Char}
    (hc : c.isWhitespace = false) : c ∉ space := by
  intro hmem
  rw [h c hmem] at hc
  contradiction

theorem IsSpace.startsInWord_append {space : List Char} (h : IsSpace space) (hne : space ≠ [])
    (text : List Char) : startsInWord (space ++ text) = false := by
  obtain ⟨c, rest, rfl⟩ := List.exists_cons_of_ne_nil hne
  have hc : c.isWhitespace := h c List.mem_cons_self
  simp only [Char.isWhitespace, Bool.or_eq_true, decide_eq_true_eq] at hc
  obtain ((rfl | rfl) | rfl) | rfl := hc <;> rfl

theorem Spaced.tail {word text : List Char} {words : List (List Char)}
    (h : Spaced (word :: words) text) (hwords : words ≠ []) :
    ∃ space behind, text = word ++ (space ++ behind) ∧ space ≠ [] ∧ IsSpace space ∧
      Spaced words behind := by
  cases h with
  | single => contradiction
  | cons _ hne hspace h => exact ⟨_, _, rfl, hne, hspace, h⟩

theorem Spaced.eq_of_single {word text : List Char} (h : Spaced [word] text) : text = word := by
  cases h with
  | single => rfl
  | cons _ _ _ h => cases h

theorem Spaced.not_mem {words : List (List Char)} {text : List Char} (h : Spaced words text)
    {c : Char} (hc : c.isWhitespace = false) (hwords : ∀ word ∈ words, c ∉ word) : c ∉ text := by
  induction h with
  | single word => exact hwords word List.mem_cons_self
  | cons word _ hspace _ ih =>
      simp only [List.mem_append, not_or]
      exact ⟨hwords word List.mem_cons_self, hspace.not_mem hc,
        ih fun w hw => hwords w (List.mem_cons_of_mem _ hw)⟩

/-- Words without blank ends make up a text without blank ends. -/
theorem Spaced.solid {words : List (List Char)} {text : List Char} (h : Spaced words text)
    (hwords : ∀ word ∈ words, Solid word) : Solid text := by
  induction h with
  | single word => exact hwords word List.mem_cons_self
  | cons word _ _ _ ih =>
      have hword := hwords word List.mem_cons_self
      have htext := ih fun w hw => hwords w (List.mem_cons_of_mem _ hw)
      rw [← List.append_assoc]
      exact (hword.append htext _)

section Laid

variable {words : List (List Char)} {word behind text : List Char}

theorem Laid.append_left (h : Laid behind words text) (hne : words ≠ []) {space : List Char}
    (hspace : IsSpace space) : Laid behind words (space ++ text) := by
  cases h with
  | nil => contradiction
  | cons word hspace' hparted hlater =>
      have hboth : IsSpace (space ++ _) := List.forall_mem_append.mpr ⟨hspace, hspace'⟩
      rw [← List.append_assoc]
      exact .cons word hboth hparted hlater

/-- Skipping space in front of words leaves the words. -/
theorem Laid.of_dropSpace (h : Laid behind words (dropSpace text)) (hne : words ≠ []) :
    Laid behind words text := by
  have hspace : IsSpace (text.takeWhile Char.isWhitespace) := fun _ => List.mem_takeWhile_imp
  have htext := h.append_left hne hspace
  rwa [dropSpace, List.takeWhile_append_dropWhile] at htext

/-- The first word stands behind the space, and the others behind it. -/
theorem Laid.exists_behind (h : Laid behind (word :: words) text) (hword : Solid word) :
    ∃ later, dropSpace text = word ++ later ∧ Parted word later ∧ Laid behind words later := by
  cases h with
  | cons _ hspace hparted hlater =>
      refine ⟨_, ?_, hparted, hlater⟩
      rw [hspace.dropSpace_append, (hword.startsSolid.append _).dropSpace_eq_self]

theorem Laid.dropSpace (h : Laid behind words text) (hne : words ≠ [])
    (hwords : ∀ word ∈ words, Solid word) : Laid behind words (dropSpace text) := by
  obtain ⟨word, later, rfl⟩ := List.exists_cons_of_ne_nil hne
  obtain ⟨rest, hrest, hparted, hlater⟩ := h.exists_behind (hwords word List.mem_cons_self)
  have hnone : IsSpace [] := by decide
  rw [hrest, ← List.nil_append (word ++ rest)]
  exact .cons word hnone hparted hlater

theorem Laid.isInfix_of_mem (h : Laid behind words text) (hword : word ∈ words) :
    word <:+: text := by
  induction h with
  | nil => contradiction
  | @cons first space text words _ _ _ ih =>
      rcases List.mem_cons.mp hword with rfl | hword
      · exact ⟨space, text, by rw [List.append_assoc]⟩
      · exact (ih hword).trans ⟨space ++ first, [], by simp⟩

/-- What is behind the words does not continue the last one. -/
theorem Laid.parted_last (h : Laid behind (words ++ [word]) text) : Parted word behind := by
  induction words generalizing text with
  | nil =>
      cases h with
      | cons _ _ hparted hlater =>
          cases hlater with
          | nil => exact hparted
  | cons first words ih =>
      cases h with
      | cons _ _ _ hlater => exact ih hlater

theorem Spaced.ne_nil (h : Spaced words text) : words ≠ [] := by
  cases h with
  | single => exact List.cons_ne_nil _ _
  | cons => exact List.cons_ne_nil _ _

/-- Space keeps any two words apart. -/
theorem Spaced.laid (h : Spaced words text) : Laid [] words text := by
  have hnone : IsSpace [] := by decide
  induction h with
  | single word =>
      have hlast : Laid [] [word] ([] ++ (word ++ [])) := .cons word hnone (fun _ => rfl) .nil
      rwa [List.append_nil] at hlast
  | @cons word space text words hne hspace hspaced ih =>
      have hparted : Parted word (space ++ text) := fun _ => hspace.startsInWord_append hne text
      exact .cons word hnone hparted (ih.append_left hspaced.ne_nil hspace)

end Laid

theorem Entry.not_mem_comma {words : List (List Char)} {text : List Char} (h : Entry words text)
    (hwords : ∀ word ∈ words, ',' ∉ word) : ',' ∉ text := by
  obtain ⟨lead, core, trail, rfl, hlead, htrail, hspaced⟩ := h
  simp only [List.mem_append, not_or]
  exact ⟨hlead.not_mem (by decide), hspaced.not_mem (by decide) hwords,
    htrail.not_mem (by decide)⟩

/-- Trimming an entry leaves its words. -/
theorem Entry.spaced_trim {words : List (List Char)} {text : List Char} (h : Entry words text)
    (hwords : ∀ word ∈ words, Solid word) : Spaced words (trim text) := by
  obtain ⟨lead, core, trail, rfl, hlead, htrail, hspaced⟩ := h
  rwa [trim_append_left hlead.blank, trim_append_right htrail.blank,
    (hspaced.solid hwords).trim_eq_self]

/-- The pieces of a list are its entries. -/
theorem Listed.exists_pieces {entries : List (List (List Char))} {text : List Char}
    (h : Listed entries text) (hcomma : ∀ words ∈ entries, ∀ word ∈ words, ',' ∉ word)
    (hne : ∀ words ∈ entries, ∀ text, Entry words text → trim text ≠ []) :
    ∃ texts, List.Forall₂ Entry entries texts ∧ pieces text = texts.map trim := by
  induction h with
  | nil space hspace => exact ⟨[], .nil, pieces_of_blank hspace.blank⟩
  | single words text hentry =>
      refine ⟨[text], .cons hentry .nil, ?_⟩
      exact pieces_of_not_mem (hentry.not_mem_comma (hcomma words List.mem_cons_self))
        (hne words List.mem_cons_self text hentry)
  | cons words text hentry _ ih =>
      obtain ⟨texts, hentries, hpieces⟩ := ih
        (fun w hw => hcomma w (List.mem_cons_of_mem _ hw))
        (fun w hw => hne w (List.mem_cons_of_mem _ hw))
      refine ⟨text :: texts, .cons hentry hentries, ?_⟩
      rw [pieces_append (hentry.not_mem_comma (hcomma words List.mem_cons_self))
        (hne words List.mem_cons_self text hentry), hpieces, List.map_cons]

end VerilogOutline.Text
