import Mathlib.Data.List.Basic
import Mathlib.Data.List.Induction
import Mathlib.Data.List.TakeWhile
import VerilogOutline.Text.Basic

/-!
# Blank ends

Trimming takes blank characters off the ends of a text and nothing else. The pieces
between the separators of a text are the same, up to their blank ends, whether or not
the whole was trimmed before.
-/

namespace VerilogOutline.Text

/-- The text neither starts nor ends with a blank character. -/
structure Trimmed (text : List Char) : Prop where
  head : ∀ c ∈ text.head?, isBlank c = false
  last : ∀ c ∈ text.getLast?, isBlank c = false

instance : DecidablePred Trimmed := fun text =>
  decidable_of_iff
    (text.head?.all (!isBlank ·) = true ∧ text.getLast?.all (!isBlank ·) = true)
    ⟨fun ⟨hhead, hlast⟩ => ⟨by simpa [Option.all_eq_true] using hhead,
        by simpa [Option.all_eq_true] using hlast⟩,
      fun ⟨hhead, hlast⟩ => ⟨by simpa [Option.all_eq_true] using hhead,
        by simpa [Option.all_eq_true] using hlast⟩⟩

/-- There is a text between blank characters, if any. -/
structure Solid (text : List Char) : Prop extends Trimmed text where
  ne_nil : text ≠ []

/-- Something other than a blank character starts the text. -/
def StartsSolid (text : List Char) : Prop :=
  ∃ c rest, text = c :: rest ∧ isBlank c = false

/-- Nothing but spaces, tabs and line ends. -/
def IsSpace (text : List Char) : Prop :=
  ∀ c ∈ text, c.isWhitespace

instance : DecidablePred IsSpace :=
  fun _ => decidable_of_iff _ List.all_eq_true

theorem StartsSolid.append {text : List Char} (h : StartsSolid text) (behind : List Char) :
    StartsSolid (text ++ behind) := by
  obtain ⟨c, rest, rfl, hc⟩ := h
  exact ⟨c, rest ++ behind, rfl, hc⟩

theorem StartsSolid.dropSpace_eq_self {text : List Char} (h : StartsSolid text) :
    dropSpace text = text := by
  obtain ⟨c, rest, rfl, hc⟩ := h
  apply List.dropWhile_cons_of_neg
  intro hspace
  rw [isBlank_of_isWhitespace hspace] at hc
  contradiction

theorem Solid.startsSolid {text : List Char} (h : Solid text) : StartsSolid text := by
  obtain ⟨c, rest, rfl⟩ := List.exists_cons_of_ne_nil h.ne_nil
  exact ⟨c, rest, rfl, h.head c rfl⟩

theorem Solid.append {first second : List Char} (hfirst : Solid first) (hsecond : Solid second)
    (middle : List Char) : Solid (first ++ middle ++ second) where
  head := by
    rw [List.append_assoc, List.head?_append_of_ne_nil _ hfirst.ne_nil]
    exact hfirst.head
  last := by
    rw [List.getLast?_append_of_ne_nil _ hsecond.ne_nil]
    exact hsecond.last
  ne_nil := List.append_ne_nil_of_right_ne_nil _ hsecond.ne_nil

theorem IsSpace.dropSpace_append {space : List Char} (h : IsSpace space) (text : List Char) :
    dropSpace (space ++ text) = dropSpace text :=
  List.dropWhile_append_of_pos h

theorem IsSpace.blank {space : List Char} (h : IsSpace space) : ∀ c ∈ space, isBlank c :=
  fun c hc => isBlank_of_isWhitespace (h c hc)

theorem dropSpace_append {text : List Char} (h : dropSpace text ≠ [])
    (behind : List Char) : dropSpace (text ++ behind) = dropSpace text ++ behind := by
  have hempty : (text.dropWhile Char.isWhitespace).isEmpty = false :=
    List.isEmpty_eq_false_iff.mpr h
  simp only [dropSpace, List.dropWhile_append, hempty, Bool.false_eq_true, ↓reduceIte]

/-- Skipping space stops at the latest in front of a character that is none. -/
theorem dropSpace_append_cons {c : Char} (hc : c.isWhitespace = false) (first after : List Char) :
    dropSpace (first ++ c :: after) = dropSpace first ++ c :: after := by
  by_cases h : dropSpace first = []
  · have hspace : IsSpace first := List.dropWhile_eq_nil_iff.mp h
    rw [hspace.dropSpace_append, h, List.nil_append]
    exact List.dropWhile_cons_of_neg (by simp [hc])
  · exact dropSpace_append h _

/-- A character that skipping space stops at, and that is not the one behind, stands in front
of that one. -/
theorem exists_of_dropSpace_append_eq_cons {first after rest : List Char} {c d : Char}
    (hd : d.isWhitespace = false) (hne : c ≠ d) (h : dropSpace (first ++ d :: after) = c :: rest) :
    ∃ inner, dropSpace first = c :: inner ∧ rest = inner ++ d :: after := by
  rw [dropSpace_append_cons hd] at h
  cases hfirst : dropSpace first with
  | nil =>
      rw [hfirst, List.nil_append] at h
      exact absurd (List.cons.inj h).1.symm hne
  | cons e inner =>
      rw [hfirst, List.cons_append] at h
      obtain ⟨rfl, rfl⟩ := List.cons.inj h
      exact ⟨inner, rfl, rfl⟩

theorem IsSpace.dropSpace_append_cons {space : List Char} (h : IsSpace space) {c : Char}
    (hc : c.isWhitespace = false) (rest : List Char) :
    dropSpace (space ++ c :: rest) = c :: rest := by
  rw [h.dropSpace_append]
  exact List.dropWhile_cons_of_neg (by simp [hc])

/-- What is left behind the space begins with the first character that is none. -/
theorem dropSpace_eq_cons_iff {text rest : List Char} {c : Char} (hc : c.isWhitespace = false) :
    dropSpace text = c :: rest ↔ ∃ space, IsSpace space ∧ text = space ++ c :: rest := by
  constructor
  · intro h
    refine ⟨text.takeWhile Char.isWhitespace, fun _ => List.mem_takeWhile_imp, ?_⟩
    rw [← h, dropSpace, List.takeWhile_append_dropWhile]
  · rintro ⟨space, hspace, rfl⟩
    exact hspace.dropSpace_append_cons hc rest

section Trim

variable {text lead trail : List Char}

theorem trim_cons_of_blank {c : Char} (hc : isBlank c) : trim (c :: text) = trim text := by
  rw [trim, List.dropWhile_cons_of_pos hc, trim]

theorem trim_concat_of_blank {c : Char} (hc : isBlank c) : trim (text ++ [c]) = trim text := by
  rw [trim, trim, List.dropWhile_append]
  split
  next hempty =>
    rw [List.isEmpty_iff.mp hempty, List.dropWhile_cons_of_pos hc]
    rfl
  next => rw [List.reverse_concat, List.dropWhile_cons_of_pos hc]

theorem trim_append_left (hlead : ∀ c ∈ lead, isBlank c) : trim (lead ++ text) = trim text := by
  induction lead with
  | nil => rfl
  | cons c lead ih =>
      rw [List.cons_append, trim_cons_of_blank (hlead c List.mem_cons_self)]
      exact ih fun d hd => hlead d (List.mem_cons_of_mem _ hd)

theorem trim_append_right (htrail : ∀ c ∈ trail, isBlank c) :
    trim (text ++ trail) = trim text := by
  induction trail generalizing text with
  | nil => rw [List.append_nil]
  | cons c trail ih =>
      rw [List.append_cons, ih fun d hd => htrail d (List.mem_cons_of_mem _ hd)]
      exact trim_concat_of_blank (htrail c List.mem_cons_self)

theorem trim_dropSpace (text : List Char) : trim (dropSpace text) = trim text := by
  have hspace : IsSpace (text.takeWhile Char.isWhitespace) := fun _ => List.mem_takeWhile_imp
  rw [← trim_append_left hspace.blank, dropSpace, List.takeWhile_append_dropWhile]

theorem Trimmed.trim_eq_self (h : Trimmed text) : trim text = text := by
  have hdrop : ∀ {text : List Char}, (∀ c ∈ text.head?, isBlank c = false) →
      text.dropWhile isBlank = text := by
    intro text hhead
    cases text with
    | nil => rfl
    | cons c rest =>
        have hc : isBlank c = false := hhead c rfl
        exact List.dropWhile_cons_of_neg (by simp [hc])
  rw [trim, hdrop h.head, hdrop, List.reverse_reverse]
  rw [List.head?_reverse]
  exact h.last

/-- A text is what is left of it with blank characters around. -/
theorem exists_eq_append_trim (text : List Char) :
    ∃ lead trail, (∀ c ∈ lead, isBlank c) ∧ (∀ c ∈ trail, isBlank c) ∧
      text = lead ++ (trim text ++ trail) := by
  refine ⟨text.takeWhile isBlank, ((text.dropWhile isBlank).reverse.takeWhile isBlank).reverse,
    ?_, ?_, ?_⟩
  · intro c hc
    exact List.mem_takeWhile_imp hc
  · intro c hc
    exact List.mem_takeWhile_imp (List.mem_reverse.mp hc)
  · rw [trim, ← List.reverse_append, List.takeWhile_append_dropWhile, List.reverse_reverse,
      List.takeWhile_append_dropWhile]

theorem trim_ne_nil {c : Char} (hmem : c ∈ text) (hc : isBlank c = false) : trim text ≠ [] := by
  intro hnil
  obtain ⟨lead, trail, hlead, htrail, htext⟩ := exists_eq_append_trim text
  rw [htext, hnil, List.nil_append, List.mem_append] at hmem
  have hblank : isBlank c := hmem.elim (hlead c) (htrail c)
  rw [hc] at hblank
  contradiction

/-- Trimming reaches from the end up to a character that is not blank. -/
theorem exists_trim_append_cons {front : List Char} {c : Char} (hfront : StartsSolid front)
    (hc : isBlank c = false) (rest : List Char) :
    ∃ tail, trim (front ++ c :: rest) = front ++ c :: tail ∧ trim tail = trim rest := by
  have htrimmed : ∀ {rest : List Char}, (∀ d ∈ rest.getLast?, isBlank d = false) →
      Trimmed (front ++ c :: rest) := by
    intro rest hlast
    obtain ⟨d, front, rfl, hd⟩ := hfront
    refine ⟨by simpa using hd, ?_⟩
    cases hrest : rest.getLast? with
    | none => simpa [List.getLast?_append, List.getLast?_cons, hrest] using hc
    | some e => simpa [List.getLast?_append, List.getLast?_cons, hrest] using hlast e hrest
  -- from the end, as the last character decides whether anything is trimmed
  induction rest using List.reverseRecOn with
  | nil => exact ⟨[], (htrimmed (by simp)).trim_eq_self, rfl⟩
  | append_singleton rest d ih =>
      by_cases hd : isBlank d
      · rw [← List.cons_append, ← List.append_assoc, trim_concat_of_blank hd,
          trim_concat_of_blank hd]
        exact ih
      · exact ⟨rest ++ [d], (htrimmed (by simpa using hd)).trim_eq_self, rfl⟩

theorem trimmed_trim (text : List Char) : Trimmed (trim text) := by
  have hhead : ∀ text : List Char, ∀ c ∈ (text.dropWhile isBlank).head?, isBlank c = false := by
    intro text c hc
    have hfirst := List.head?_dropWhile_not isBlank text
    rw [hc] at hfirst
    exact hfirst
  constructor
  · -- trimming the end leaves the first character, if it leaves any
    intro c hc
    have hstart : trim text <+: text.dropWhile isBlank := by
      rw [trim, ← List.reverse_suffix, List.reverse_reverse]
      exact List.dropWhile_suffix _
    obtain ⟨rest, hrest⟩ := hstart
    apply hhead text c
    rw [← hrest, List.head?_append, hc]
    rfl
  · intro c hc
    rw [trim, List.getLast?_reverse] at hc
    exact hhead _ c hc

end Trim

section Pieces

variable {separator : Char}

theorem modifyHead_nil_append (texts : List (List Char)) :
    texts.modifyHead ([] ++ ·) = texts :=
  congrFun List.modifyHead_id texts

theorem map_trim_modifyHead_cons {c : Char} (hc : isBlank c) (texts : List (List Char)) :
    (texts.modifyHead (c :: ·)).map trim = texts.map trim := by
  cases texts with
  | nil => rfl
  | cons text texts => simp [trim_cons_of_blank hc]

variable (hseparator : isBlank separator = false)

include hseparator

theorem ne_separator_of_blank {c : Char} (hc : isBlank c) : c ≠ separator := by
  rintro rfl
  rw [hseparator] at hc
  contradiction

theorem map_trim_splitOn_append_left {lead : List Char} (hlead : ∀ c ∈ lead, isBlank c)
    (text : List Char) :
    ((lead ++ text).splitOn separator).map trim = (text.splitOn separator).map trim := by
  induction lead with
  | nil => rfl
  | cons c lead ih =>
      have hc := hlead c List.mem_cons_self
      have hne := ne_separator_of_blank hseparator hc
      rw [List.cons_append, List.splitOn_cons_eq_if_modifyHead, if_neg (by simpa using hne),
        map_trim_modifyHead_cons hc]
      exact ih fun d hd => hlead d (List.mem_cons_of_mem _ hd)

/-- A blank character at the end belongs to the last piece. -/
theorem map_trim_splitOn_concat {c : Char} (hc : isBlank c) (text front : List Char) :
    (((text ++ [c]).splitOn separator).modifyHead (front ++ ·)).map trim =
      ((text.splitOn separator).modifyHead (front ++ ·)).map trim := by
  -- `front` is what the induction has passed of the first piece
  induction text generalizing front with
  | nil =>
      have hne := ne_separator_of_blank hseparator hc
      simp [List.splitOn_cons_eq_if_modifyHead, hne, trim_concat_of_blank hc]
  | cons d rest ih =>
      by_cases hd : d = separator
      · have htail := ih []
        rw [modifyHead_nil_append, modifyHead_nil_append] at htail
        simp [List.splitOn_cons_eq_if_modifyHead, hd, htail]
      · have hhead := ih (front ++ [d])
        simpa [List.splitOn_cons_eq_if_modifyHead, hd, List.modifyHead_modifyHead,
          Function.comp_def] using hhead

theorem map_trim_splitOn_append_right {trail : List Char} (htrail : ∀ c ∈ trail, isBlank c)
    (text : List Char) :
    ((text ++ trail).splitOn separator).map trim = (text.splitOn separator).map trim := by
  induction trail generalizing text with
  | nil => rw [List.append_nil]
  | cons c trail ih =>
      have hlast := map_trim_splitOn_concat hseparator (htrail c List.mem_cons_self) text []
      rw [modifyHead_nil_append, modifyHead_nil_append] at hlast
      rw [List.append_cons, ih fun d hd => htrail d (List.mem_cons_of_mem _ hd)]
      exact hlast

/-- Trimming a text before it is cut makes no difference to pieces that are trimmed. -/
theorem map_trim_splitOn_trim (text : List Char) :
    ((trim text).splitOn separator).map trim = (text.splitOn separator).map trim := by
  obtain ⟨lead, trail, hlead, htrail, htext⟩ := exists_eq_append_trim text
  calc ((trim text).splitOn separator).map trim
      = ((trim text ++ trail).splitOn separator).map trim :=
        (map_trim_splitOn_append_right hseparator htrail _).symm
    _ = ((lead ++ (trim text ++ trail)).splitOn separator).map trim :=
        (map_trim_splitOn_append_left hseparator hlead _).symm
    _ = (text.splitOn separator).map trim := by rw [← htext]

end Pieces

end VerilogOutline.Text
