import VerilogOutline.Proofs.Comment.Clean

/-!
# Texts with comments

Comments that are put into a text in which none opens are removed again, and nothing else
is. Block comments may stand anywhere, line comments at the ends of the text's lines.
-/

namespace VerilogOutline.Comment

/-- A part of a text with comments: a character of the text itself, or a comment. -/
inductive Part where
  | char (c : Char)
  | block (content : List Char)
  | line (content : List Char)
  deriving DecidableEq, Repr

namespace Part

def char? : Part → Option Char
  | char c => some c
  | block _ => none
  | line _ => none

def isBlock : Part → Bool
  | char _ => false
  | block _ => true
  | line _ => false

/-- The part as it is written. -/
def write : Part → List Char
  | char c => [c]
  | block content => "/*".toList ++ (content ++ "*/".toList)
  | line content => "//".toList ++ content

/-- A block comment ends only at its end. A line comment stays on its line, and no block
comment opens in it. -/
def Sound : Part → Prop
  | char _ => True
  | block content => ¬ "*/".toList <:+: content
  | line content => '\n' ∉ content ∧ ¬ "/*".toList <:+: "//".toList ++ content

instance : DecidablePred Sound
  | char _ => inferInstanceAs (Decidable True)
  | block content => inferInstanceAs (Decidable (¬ "*/".toList <:+: content))
  | line content =>
    inferInstanceAs (Decidable ('\n' ∉ content ∧ ¬ "/*".toList <:+: "//".toList ++ content))

end Part

/-- The text without the comments among its parts. -/
def plain (parts : List Part) : List Char :=
  parts.filterMap Part.char?

/-- The text with all of its parts. -/
def write (parts : List Part) : List Char :=
  parts.flatMap Part.write

/-- Line comments stand at ends of lines of the plain text, behind the block comments
there, and the lines do not end in `/`. The character in front of the parts is `last?`. -/
def LinesPlaced (last? : Option Char) : List Part → Prop
  | [] => True
  | .char c :: rest => LinesPlaced (some c) rest
  | .block _ :: rest => LinesPlaced last? rest
  | .line _ :: rest =>
    last? ≠ some '/' ∧ (∀ part ∈ rest.head?, part = .char '\n') ∧ LinesPlaced last? rest

/-- Comments are put into a text in such a way that each of them can be told from it. -/
structure Placed (parts : List Part) : Prop where
  sound : ∀ part ∈ parts, part.Sound
  lines : LinesPlaced none parts

instance decidableLinesPlaced :
    (last? : Option Char) → (parts : List Part) → Decidable (LinesPlaced last? parts)
  | _, [] => inferInstanceAs (Decidable True)
  | _, .char c :: rest => decidableLinesPlaced (some c) rest
  | last?, .block _ :: rest => decidableLinesPlaced last? rest
  | last?, .line _ :: rest =>
    have := decidableLinesPlaced last? rest
    inferInstanceAs (Decidable
      (last? ≠ some '/' ∧ (∀ part ∈ rest.head?, part = .char '\n') ∧ LinesPlaced last? rest))

instance : DecidablePred Placed := fun parts =>
  decidable_of_iff ((∀ part ∈ parts, part.Sound) ∧ LinesPlaced none parts)
    ⟨fun ⟨hsound, hlines⟩ => ⟨hsound, hlines⟩, fun ⟨hsound, hlines⟩ => ⟨hsound, hlines⟩⟩

@[simp] theorem plain_cons (part : Part) (rest : List Part) :
    plain (part :: rest) = part.char?.toList ++ plain rest := by
  cases part <;> rfl

@[simp] theorem write_cons (part : Part) (rest : List Part) :
    write (part :: rest) = part.write ++ write rest :=
  rfl

variable {parts : List Part} {last? : Option Char}

/-- What is written starts with a comment or as the plain text does. -/
theorem exists_plain_of_write {c : Char} {tail : List Char} (hc : c ≠ '/')
    (h : write parts = c :: tail) : ∃ rest, plain parts = c :: rest := by
  cases parts with
  | nil => contradiction
  | cons part parts =>
      cases part with
      | char d =>
          obtain ⟨rfl, _⟩ := List.cons.inj h
          exact ⟨plain parts, rfl⟩
      | block content => exact absurd (List.cons.inj h).1.symm hc
      | line content => exact absurd (List.cons.inj h).1.symm hc

theorem write_eq_of_line (h : ∀ part ∈ parts.head?, part = .char '\n') :
    write parts = [] ∨ ∃ tail, write parts = '\n' :: tail := by
  cases parts with
  | nil => exact .inl rfl
  | cons part parts =>
      obtain rfl := h part rfl
      exact .inr ⟨write parts, rfl⟩

section Blocks

theorem removeBlocks_append {first behind : List Char} (h : ¬ "/*".toList <:+: first)
    (hbehind : behind = [] ∨ ∃ tail, behind = '\n' :: tail) :
    removeBlocks (first ++ behind) = first ++ removeBlocks behind := by
  induction first with
  | nil => rfl
  | cons c first ih =>
      rw [List.cons_append, removeBlocks_cons, ih (mt List.infix_cons h)]
      · rfl
      · rintro tail rfl htail
        cases first with
        | nil =>
            rcases hbehind with rfl | ⟨_, rfl⟩
            · contradiction
            · exact absurd (List.cons.inj htail).1 (by decide)
        | cons d first =>
            obtain ⟨rfl, _⟩ := List.cons.inj htail
            exact h ⟨[], first, rfl⟩

theorem removeBlocks_block {content : List Char} (h : ¬ "*/".toList <:+: content)
    (behind : List Char) :
    removeBlocks ("/*".toList ++ (content ++ ("*/".toList ++ behind))) = removeBlocks behind := by
  have hclose := closeBlock?_append h behind
  show removeBlocks ('/' :: '*' :: (content ++ ("*/".toList ++ behind))) = removeBlocks behind
  rw [removeBlocks]
  split
  next after hafter =>
    rw [hclose, Option.some.injEq] at hafter
    rw [hafter]
  next hnone =>
    rw [hclose] at hnone
    contradiction

/-- One pass removes the block comments that were put in. -/
theorem removeBlocks_write (hsound : ∀ part ∈ parts, part.Sound)
    (hlines : LinesPlaced last? parts) (hopen : OpensNone (plain parts)) :
    removeBlocks (write parts) = write (parts.filter (!·.isBlock)) := by
  induction parts generalizing last? with
  | nil => exact removeBlocks.eq_1
  | cons part parts ih =>
      rw [List.forall_mem_cons] at hsound
      obtain ⟨hpart, hsound⟩ := hsound
      cases part with
      | char c =>
          have hnot : ∀ tail, c = '/' → write parts = '*' :: tail → False := by
            rintro tail rfl htail
            obtain ⟨rest, hrest⟩ := exists_plain_of_write (by decide) htail
            exact hopen.noBlock ⟨[], rest, by simp [hrest, Part.char?]⟩
          have hpass := ih hsound hlines hopen.of_cons
          rw [write_cons, Part.write, List.singleton_append, removeBlocks_cons hnot, hpass]
          rfl
      | block content =>
          have hpass := ih hsound hlines hopen
          rw [write_cons, Part.write, List.append_assoc, List.append_assoc,
            removeBlocks_block hpart, hpass]
          rfl
      | line content =>
          obtain ⟨_, hend, hlater⟩ := hlines
          have hpass := ih hsound hlater hopen
          rw [write_cons, Part.write, removeBlocks_append hpart.2 (write_eq_of_line hend), hpass]
          rfl

theorem plain_filter_not_isBlock (parts : List Part) :
    plain (parts.filter (!·.isBlock)) = plain parts := by
  rw [plain, plain, List.filterMap_filter]
  congr 1
  funext part
  cases part <;> rfl

theorem LinesPlaced.filter_not_isBlock (h : LinesPlaced last? parts) :
    LinesPlaced last? (parts.filter (!·.isBlock)) := by
  induction parts generalizing last? with
  | nil => trivial
  | cons part parts ih =>
      cases part with
      | char c => exact ih h
      | block content => exact ih h
      | line content =>
          obtain ⟨hfront, hend, hlater⟩ := h
          refine ⟨hfront, ?_, ih hlater⟩
          -- what stands behind a line comment is no block
          cases parts with
          | nil => simp
          | cons next parts =>
              obtain rfl := hend next rfl
              simp [Part.isBlock]

theorem stripBlocks_write (h : Placed parts) (hopen : OpensNone (plain parts)) :
    stripBlocks (write parts) = write (parts.filter (!·.isBlock)) := by
  have hpass := removeBlocks_write h.sound h.lines hopen
  -- the same pass over what is left finds nothing to remove
  have hfree : BlockFree (write (parts.filter (!·.isBlock))) := by
    rw [← removeBlocks_eq_self_iff, removeBlocks_write _ h.lines.filter_not_isBlock]
    · rw [List.filter_filter]
      simp
    · rwa [plain_filter_not_isBlock]
    · intro part hpart
      exact h.sound part (List.mem_filter.mp hpart).1
  rw [← stripBlocks_removeBlocks, hpass, hfree.stripBlocks_eq_self]

end Blocks

section Lines

theorem removeLines_line {content behind : List Char} (h : '\n' ∉ content)
    (hbehind : behind = [] ∨ ∃ tail, behind = '\n' :: tail) :
    removeLines ("//".toList ++ (content ++ behind)) = removeLines behind := by
  have hcontent : ∀ c ∈ content, (c != '\n') = true := by
    intro c hc
    rw [bne_iff_ne]
    rintro rfl
    exact h hc
  show removeLines ('/' :: '/' :: (content ++ behind)) = removeLines behind
  rw [removeLines, List.dropWhile_append_of_pos hcontent]
  rcases hbehind with rfl | ⟨tail, rfl⟩
  · rfl
  · rfl

/-- The line comments that were put in are removed where there are no others. -/
theorem removeLines_write (hblock : ∀ part ∈ parts, part.isBlock = false)
    (hsound : ∀ part ∈ parts, part.Sound) (hlines : LinesPlaced last? parts)
    (hopen : OpensNone (plain parts)) : removeLines (write parts) = plain parts := by
  induction parts generalizing last? with
  | nil => exact removeLines.eq_1
  | cons part parts ih =>
      rw [List.forall_mem_cons] at hsound
      obtain ⟨hpart, hsound⟩ := hsound
      rw [List.forall_mem_cons] at hblock
      obtain ⟨hkind, hblock⟩ := hblock
      cases part with
      | char c =>
          have hrest := ih hblock hsound hlines hopen.of_cons
          have hnot : ∀ tail, c = '/' → write parts = '/' :: tail → False := by
            rintro tail rfl htail
            cases parts with
            | nil => contradiction
            | cons next parts =>
                cases next with
                | char d =>
                    obtain ⟨rfl, _⟩ := List.cons.inj htail
                    exact hopen.noLine ⟨[], plain parts, rfl⟩
                | block content =>
                    have hnext : (Part.block content).isBlock = false :=
                      hblock _ List.mem_cons_self
                    contradiction
                | line content => exact hlines.1 rfl
          rw [write_cons, Part.write, List.singleton_append, removeLines_cons hnot, hrest]
          rfl
      | block content => contradiction
      | line content =>
          obtain ⟨_, hend, hlater⟩ := hlines
          have hrest := ih hblock hsound hlater hopen
          rw [write_cons, Part.write, List.append_assoc,
            removeLines_line hpart.1 (write_eq_of_line hend), hrest]
          rfl

end Lines

/-- Exactly the comments that were put in are removed. -/
theorem strip_write (h : Placed parts) (hopen : OpensNone (plain parts)) :
    strip (write parts) = plain parts := by
  have hsound : ∀ part ∈ parts.filter (!·.isBlock), part.Sound := fun part hpart =>
    h.sound part (List.mem_filter.mp hpart).1
  have hblock : ∀ part ∈ parts.filter (!·.isBlock), part.isBlock = false := fun part hpart => by
    simpa using (List.mem_filter.mp hpart).2
  rw [strip, stripBlocks_write h hopen,
    removeLines_write hblock hsound h.lines.filter_not_isBlock, plain_filter_not_isBlock]
  rwa [plain_filter_not_isBlock]

/-- Comments where the characters around them, put together, look like other comments. -/
def entangled : List Part :=
  [.char 'm', .block "// /*".toList, .char '/', .block ['*'], .block ['\n'], .char 'n',
    .block ['/'], .line " */ tail".toList, .char '\n', .char '*', .block [], .char '/',
    .char 'z', .line ['e']]

theorem strip_entangled :
    Placed entangled ∧ OpensNone (plain entangled) ∧
      strip "m/*// /**///***//*\n*/n/*/*/// */ tail\n*/**//z//e".toList = "m/n\n*/z".toList := by
  have hplaced : Placed entangled := by decide +kernel
  have hopen : OpensNone (plain entangled) :=
    { noLine := by decide +kernel, noBlock := by decide +kernel }
  have hwritten : "m/*// /**///***//*\n*/n/*/*/// */ tail\n*/**//z//e".toList = write entangled := by
    decide
  refine ⟨hplaced, hopen, ?_⟩
  rw [hwritten, strip_write hplaced hopen]
  rfl

end VerilogOutline.Comment
