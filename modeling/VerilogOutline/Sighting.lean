import VerilogOutline.Recorded
import VerilogOutline.Region

/-!
# Scanning for regions

A text is scanned from keyword to keyword. Where `module` begins a region the
scan goes on behind the region, otherwise behind the keyword. Either way the
rest is searched as a text of its own: whether the keyword stands at the
beginning of a word is judged by the characters that are still to be searched.
-/

namespace VerilogOutline

open Text Lexeme

/-- An occurrence of the keyword `module` and what came of it. -/
structure Sighting where
  /-- The byte offset of the keyword in the source. -/
  offset : Nat
  /-- The region that begins there, if one does. -/
  region? : Option Region
  deriving DecidableEq, Repr

namespace Sighting

/-- What is told of an occurrence. -/
def event (sighting : Sighting) : Event :=
  match sighting.region? with
  | some region => .regionFound region
  | none => .keywordPassed sighting.offset

/-- The text from the first `module` on that does not follow an identifier
character. `inWord` tells whether the text itself follows one. -/
def nextKeyword? (inWord : Bool) : List Char → Option (List Char)
  | [] => none
  | c :: rest =>
    if !inWord && "module".toList.isPrefixOf (c :: rest) then some (c :: rest)
    else nextKeyword? (isIdentChar c) rest

theorem nextKeyword?_suffix {inWord : Bool} {text found : List Char}
    (h : nextKeyword? inWord text = some found) : found <:+ text := by
  induction text generalizing inWord with
  | nil => simp [nextKeyword?] at h
  | cons c rest ih =>
    unfold nextKeyword? at h
    split at h
    next =>
      obtain rfl : c :: rest = found := by simpa using h
      exact List.suffix_rfl
    next => exact (ih h).trans (List.suffix_cons c rest)

theorem nextKeyword?_ne_nil {inWord : Bool} {text found : List Char}
    (h : nextKeyword? inWord text = some found) : found ≠ [] := by
  induction text generalizing inWord with
  | nil => simp [nextKeyword?] at h
  | cons c rest ih =>
    unfold nextKeyword? at h
    split at h
    next =>
      obtain rfl : c :: rest = found := by simpa using h
      simp
    next => exact ih h

/-- Scan the last part of a source of `size` bytes. -/
def scanFrom (size : Nat) (text : List Char) : List Sighting :=
  match _hfound : nextKeyword? false text with
  | none => []
  | some found =>
    let offset := size - byteLength found
    match _hread : Region.read? found with
    | some (region, rest) => { offset, region? := some region } :: scanFrom size rest
    | none => { offset, region? := none } :: scanFrom size (found.drop "module".length)
termination_by text.length
decreasing_by
  · have := Region.length_of_read? ‹_›
    have := (nextKeyword?_suffix ‹_›).length_le
    omega
  · have := List.length_pos_iff.mpr (nextKeyword?_ne_nil ‹_›)
    have := (nextKeyword?_suffix ‹_›).length_le
    have : "module".length = 6 := rfl
    simp only [List.length_drop]
    omega

/-- Scan a source, comments already removed. -/
def scan (source : List Char) : List Sighting :=
  scanFrom (byteLength source) source

/-- The regions among the occurrences, in order. -/
def regions (sightings : List Sighting) : List Region :=
  sightings.filterMap (·.region?)

end Sighting

end VerilogOutline
