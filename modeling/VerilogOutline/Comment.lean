/-!
# Comments

Block comments are removed first, in passes over the text until a pass finds
none: removing one can bring a `/` and a `*` together. Line comments are removed
from what is left. String literals have no say in this.
-/

namespace VerilogOutline.Comment

/-- The text behind the first `*/`. -/
def closeBlock? : List Char → Option (List Char)
  | '*' :: '/' :: rest => some rest
  | _ :: rest => closeBlock? rest
  | [] => none

theorem closeBlock?_length {text rest : List Char} (h : closeBlock? text = some rest) :
    rest.length < text.length := by
  fun_induction closeBlock? text with
  | case1 tail =>
    obtain rfl : tail = rest := by simpa using h
    simp only [List.length_cons]
    omega
  | case2 c tail _ ih => exact Nat.lt_succ_of_lt (ih h)
  | case3 => contradiction

/-- One pass: every block comment is removed, up to the first one that is
never closed. -/
def removeBlocks : List Char → List Char
  | [] => []
  | '/' :: '*' :: rest =>
    match _h : closeBlock? rest with
    | some after => removeBlocks after
    | none => '/' :: '*' :: rest
  | c :: rest => c :: removeBlocks rest
termination_by text => text.length
decreasing_by
  · have := closeBlock?_length ‹_›
    simp only [List.length_cons]
    omega
  · simp only [List.length_cons]
    omega

/-- Passes that remove block comments, until one removes nothing. -/
def stripBlocks (text : List Char) : List Char :=
  if (removeBlocks text).length < text.length then stripBlocks (removeBlocks text) else text
termination_by text.length

/-- Every `//` is removed together with what follows it on its line. -/
def removeLines : List Char → List Char
  | [] => []
  | '/' :: '/' :: rest => removeLines (rest.dropWhile (· != '\n'))
  | c :: rest => c :: removeLines rest
termination_by text => text.length
decreasing_by
  · have := (List.dropWhile_suffix (l := rest) (· != '\n')).length_le
    simp only [List.length_cons]
    omega
  · simp only [List.length_cons]
    omega

/-- The text without its comments. -/
def strip (text : List Char) : List Char :=
  removeLines (stripBlocks text)

end VerilogOutline.Comment
