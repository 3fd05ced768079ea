/-!
# Texts

A source text is a list of characters. It is cut apart at separators and at the
first occurrence of a word, and trimmed of what is blank. Identifiers, keywords
and bracketed ranges are read at the start of a text; each reader returns what it
read together with the text behind it.
-/

namespace VerilogOutline

namespace Text

section Blank

/-!
Two notions of empty space meet in a source text. The grammar skips spaces,
tabs and line ends (`Char.isWhitespace`), while list entries are trimmed of
every character that Unicode counts as white space.
-/

/-- The characters with the Unicode property `White_Space`. -/
def blanks : List Char :=
  ['\t', '\n', '\u000b', '\u000c', '\r', ' ', '\u0085', '\u00a0', '\u1680',
   '\u2000', '\u2001', '\u2002', '\u2003', '\u2004', '\u2005', '\u2006', '\u2007',
   '\u2008', '\u2009', '\u200a', '\u2028', '\u2029', '\u202f', '\u205f', '\u3000']

/-- Whether `c` is trimmed from the ends of a list entry. -/
def isBlank (c : Char) : Bool :=
  blanks.contains c

/-- `text` without the blank characters at its two ends. -/
def trim (text : List Char) : List Char :=
  ((text.dropWhile isBlank).reverse.dropWhile isBlank).reverse

/-- `text` without the spaces, tabs and line ends in front. -/
def dropSpace (text : List Char) : List Char :=
  text.dropWhile Char.isWhitespace

/-- What the grammar skips is blank. -/
theorem isBlank_of_isWhitespace {c : Char} (h : c.isWhitespace) : isBlank c := by
  simp only [Char.isWhitespace, Bool.or_eq_true, decide_eq_true_eq] at h
  obtain ((rfl | rfl) | rfl) | rfl := h <;> decide

/-- Skipping space only shortens a text from the front. -/
theorem dropSpace_suffix (text : List Char) : dropSpace text <:+ text :=
  List.dropWhile_suffix _

/-- So does reading the first character behind the space. -/
theorem suffix_of_dropSpace_eq_cons {text rest : List Char} {c : Char}
    (h : dropSpace text = c :: rest) : rest <:+ text :=
  (List.suffix_cons c rest).trans (h ▸ dropSpace_suffix text)

end Blank

section Cut

/-- The texts before and after the first separator. -/
def cutFirst? (separator : Char) : List Char → Option (List Char × List Char)
  | [] => none
  | c :: rest =>
    if c = separator then some ([], rest)
    else (cutFirst? separator rest).map fun (before, after) => (c :: before, after)

/-- The texts before and after the last separator. -/
def cutLast? (separator : Char) : List Char → Option (List Char × List Char)
  | [] => none
  | c :: rest =>
    match cutLast? separator rest with
    | some (before, after) => some (c :: before, after)
    | none => if c = separator then some ([], rest) else none

/-- The texts before and after the first occurrence of `word`. -/
def breakOn? (word : List Char) : List Char → Option (List Char × List Char)
  | [] => (word.isPrefixOf? []).map fun rest => ([], rest)
  | c :: cs =>
    match word.isPrefixOf? (c :: cs) with
    | some rest => some ([], rest)
    | none => (breakOn? word cs).map fun (before, rest) => (c :: before, rest)

theorem isPrefixOf?_suffix {word text rest : List Char} (h : word.isPrefixOf? text = some rest) :
    rest <:+ text := by
  induction word generalizing text with
  | nil =>
    obtain rfl : text = rest := Option.some.inj h
    exact List.suffix_rfl
  | cons c word ih =>
    cases text with
    | nil => exact absurd h.symm (Option.some_ne_none rest)
    | cons d text =>
      have hstep : (if c == d then word.isPrefixOf? text else none) = some rest := h
      split at hstep
      next => exact (ih hstep).trans (List.suffix_cons d text)
      next => contradiction

/-- What follows an occurrence of a word stands at the end of the text. -/
theorem breakOn?_suffix {word text before rest : List Char}
    (h : breakOn? word text = some (before, rest)) : rest <:+ text := by
  induction text generalizing before with
  | nil =>
    simp only [breakOn?, Option.map_eq_some_iff, Prod.mk.injEq] at h
    obtain ⟨_, found, _, rfl⟩ := h
    exact isPrefixOf?_suffix found
  | cons c cs ih =>
    unfold breakOn? at h
    split at h
    next found =>
      obtain ⟨_, rfl⟩ : [] = before ∧ _ = rest := by simpa using h
      exact isPrefixOf?_suffix found
    next =>
      simp only [Option.map_eq_some_iff, Prod.mk.injEq, Prod.exists] at h
      obtain ⟨_, _, found, _, rfl⟩ := h
      exact (ih found).trans (List.suffix_cons c cs)

end Cut

section Bytes

/-- The number of bytes that a text takes in UTF-8. -/
def byteLength : List Char → Nat
  | [] => 0
  | c :: rest => c.utf8Size + byteLength rest

@[simp] theorem byteLength_append (first second : List Char) :
    byteLength (first ++ second) = byteLength first + byteLength second := by
  induction first with
  | nil => simp [byteLength]
  | cons c rest ih => simp [byteLength, ih, Nat.add_assoc]

theorem byteLength_pos {text : List Char} (h : text ≠ []) : 0 < byteLength text := by
  cases text with
  | nil => contradiction
  | cons c rest => exact Nat.add_pos_left c.utf8Size_pos _

/-- Bytes are counted as the encoding of the text has them. -/
theorem utf8ByteSize_ofList (text : List Char) :
    (String.ofList text).utf8ByteSize = byteLength text := by
  induction text with
  | nil => rfl
  | cons c rest ih =>
    have hcons : String.ofList (c :: rest) = String.singleton c ++ String.ofList rest := by
      simp
    simp [hcons, String.utf8ByteSize_append, ih, byteLength]

end Bytes

end Text

namespace Lexeme

open Text

/-- Letters, digits and the underscore, ASCII only. -/
def isIdentChar (c : Char) : Bool :=
  c.isAlphanum || c == '_'

/-- Letters and the underscore, ASCII only. -/
def isIdentStart (c : Char) : Bool :=
  c.isAlpha || c == '_'

/-- Whether a text goes on with an identifier character. -/
def startsInWord (text : List Char) : Bool :=
  text.head?.any isIdentChar

/-- The longest identifier at the start of a text. -/
def identifier? : List Char → Option (List Char × List Char)
  | [] => none
  | c :: rest =>
    if isIdentStart c then some (c :: rest.takeWhile isIdentChar, rest.dropWhile isIdentChar)
    else none

/-- What follows a keyword at the start of a text. A keyword is not the
beginning of a longer word, so `reg` is not read off `region`. -/
def keyword? (word : String) (text : List Char) : Option (List Char) :=
  (word.toList.isPrefixOf? text).filter (!startsInWord ·)

/-- A range such as `[7:0]`, brackets included; there is something between them. -/
def range? : List Char → Option (List Char × List Char)
  | '[' :: rest =>
    match rest.takeWhile (· != ']'), rest.dropWhile (· != ']') with
    | c :: inside, ']' :: after => some ('[' :: c :: inside ++ [']'], after)
    | _, _ => none
  | _ => none

/-- Read something that may be missing. The space around it is skipped only
if it is there. -/
def optional {α : Type} (read? : List Char → Option (α × List Char)) (text : List Char) :
    Option α × List Char :=
  match read? (dropSpace text) with
  | some (value, rest) => (some value, dropSpace rest)
  | none => (none, text)

theorem keyword?_suffix {word : String} {text rest : List Char}
    (h : keyword? word text = some rest) : rest <:+ text :=
  isPrefixOf?_suffix (Option.filter_eq_some_iff.mp h).1

/-- An identifier takes up some of the text. -/
theorem length_of_identifier? {text name rest : List Char}
    (h : identifier? text = some (name, rest)) : rest.length < text.length := by
  unfold identifier? at h
  split at h
  next => contradiction
  next c tail =>
    split at h
    next =>
      obtain ⟨_, rfl⟩ : c :: tail.takeWhile isIdentChar = name ∧ _ = rest := by simpa using h
      exact Nat.lt_succ_of_le (List.dropWhile_suffix _).length_le
    next => contradiction

end Lexeme

end VerilogOutline
