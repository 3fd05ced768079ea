import VerilogOutline.Port.Basic
import VerilogOutline.Proofs.Text.Word

/-!
# The grammar of declarations

A declaration is read from a text exactly if the text begins with the words of it. Words
that run into each other need space between them, others do not. What may be left out is
left out only in front of a word that could not be taken for it, so every name that is no
keyword is read as the name.
-/

namespace VerilogOutline

open Text Lexeme

/-- The words that a declaration keeps for itself. -/
def reserved : List String :=
  Direction.all.map Direction.keyword ++ (NetKind.all.map NetKind.keyword ++ ["signed"])

example : reserved = ["input", "output", "inout", "wire", "reg", "signed"] := rfl

theorem isIdent_of_mem_reserved : ∀ keyword ∈ reserved, IsIdent keyword.toList := by
  decide

theorem Direction.keyword_mem_reserved (direction : Direction) : direction.keyword ∈ reserved := by
  cases direction <;> decide

theorem NetKind.keyword_mem_reserved (kind : NetKind) : kind.keyword ∈ reserved := by
  cases kind <;> decide

theorem Direction.takesWords_read? :
    TakesWords Direction.read? (·.keyword.toList) fun _ => True :=
  takesWords_findSome? (fun direction => by cases direction <;> decide)
    (fun direction => isIdent_of_mem_reserved _ direction.keyword_mem_reserved)
    (fun direction other => by cases direction <;> cases other <;> decide)

theorem NetKind.takesWords_read? : TakesWords NetKind.read? (·.keyword.toList) fun _ => True :=
  takesWords_findSome? (fun kind => by cases kind <;> decide)
    (fun kind => isIdent_of_mem_reserved _ kind.keyword_mem_reserved)
    (fun kind other => by cases kind <;> cases other <;> decide)

namespace Declaration

def sign? (decl : Declaration) : Option Unit :=
  if decl.signed then some () else none

def wordsFromRange (decl : Declaration) : List (List Char) :=
  (decl.range.map String.toList).toList ++ [decl.name.toList]

def wordsFromSign (decl : Declaration) : List (List Char) :=
  decl.sign?.toList.map (fun _ => "signed".toList) ++ decl.wordsFromRange

def wordsFromKind (decl : Declaration) : List (List Char) :=
  decl.kind.toList.map (·.keyword.toList) ++ decl.wordsFromSign

/-- The words of a declaration: the attributes that it gives, then the name. -/
def words (decl : Declaration) : List (List Char) :=
  decl.direction.toList.map (·.keyword.toList) ++ decl.wordsFromKind

/-- What can be read as a declaration. An attribute is left out only where the next word is
not one that gives it. -/
structure Readable (decl : Declaration) : Prop where
  name_ident : IsIdent decl.name.toList
  range_bracketed : ∀ range ∈ decl.range, IsBracketed range.toList
  direction_left_out : decl.direction = none →
    ∀ direction : Direction, decl.wordsFromKind.head? ≠ some direction.keyword.toList
  kind_left_out : decl.kind = none →
    ∀ kind : NetKind, decl.wordsFromSign.head? ≠ some kind.keyword.toList
  sign_left_out : decl.signed = false → decl.wordsFromRange.head? ≠ some "signed".toList

theorem wordsFromRange_ne_nil (decl : Declaration) : decl.wordsFromRange ≠ [] :=
  List.append_ne_nil_of_right_ne_nil _ (List.cons_ne_nil _ _)

theorem wordsFromSign_ne_nil (decl : Declaration) : decl.wordsFromSign ≠ [] :=
  List.append_ne_nil_of_right_ne_nil _ decl.wordsFromRange_ne_nil

theorem wordsFromKind_ne_nil (decl : Declaration) : decl.wordsFromKind ≠ [] :=
  List.append_ne_nil_of_right_ne_nil _ decl.wordsFromSign_ne_nil

theorem words_ne_nil (decl : Declaration) : decl.words ≠ [] :=
  List.append_ne_nil_of_right_ne_nil _ decl.wordsFromKind_ne_nil

theorem name_mem_words (decl : Declaration) : decl.name.toList ∈ decl.words := by
  simp [words, wordsFromKind, wordsFromSign, wordsFromRange]

theorem range_mem_words {decl : Declaration} {range : String} (h : range ∈ decl.range) :
    range.toList ∈ decl.words := by
  simp [words, wordsFromKind, wordsFromSign, wordsFromRange, Option.mem_def.mp h]

theorem sign?_isSome (decl : Declaration) : decl.sign?.isSome = decl.signed := by
  rw [sign?]
  cases decl.signed <;> rfl

/-- Reading goes through the parts of a declaration one by one. -/
theorem read_eq_ok_iff {text rest : List Char} {decl : Declaration} :
    read text = .ok (decl, rest) ↔
      ∃ fromKind fromSign fromRange fromName behind,
        optional Direction.read? text = (decl.direction, fromKind) ∧
        optional NetKind.read? fromKind = (decl.kind, fromSign) ∧
        optional (fun text => (keyword? "signed" text).map ((), ·)) fromSign =
          (decl.sign?, fromRange) ∧
        optional range? fromRange = (decl.range.map String.toList, fromName) ∧
        identifier? (dropSpace fromName) = some (decl.name.toList, behind) ∧
        rest = dropSpace behind := by
  unfold Declaration.read
  constructor
  · intro h
    rcases hdirection : optional Direction.read? text with ⟨direction, fromKind⟩
    rcases hkind : optional NetKind.read? fromKind with ⟨kind, fromSign⟩
    rcases hsign : optional (fun text => (keyword? "signed" text).map ((), ·)) fromSign with
      ⟨sign, fromRange⟩
    rcases hrange : optional range? fromRange with ⟨range, fromName⟩
    simp only [hdirection, hkind, hsign, hrange] at h
    split at h
    next name behind hname =>
      obtain ⟨rfl, rfl⟩ := Prod.mk.inj (Except.ok.inj h)
      have hsign? : sign = if sign.isSome then some () else none := by cases sign <;> rfl
      refine ⟨fromKind, fromSign, fromRange, fromName, behind, rfl, hkind, ?_, ?_, ?_, rfl⟩
      · rw [hsign, sign?, ← hsign?]
      · simp [hrange]
      · simpa using hname
    next => contradiction
  · rintro ⟨fromKind, fromSign, fromRange, fromName, behind, hdirection, hkind, hsign, hrange,
      hname, rfl⟩
    simp only [hdirection, hkind, hsign, hrange, hname, sign?_isSome]
    simp

/-- All words but a range are identifiers. -/
theorem isIdent_or_range_of_mem_words {decl : Declaration} (hname : IsIdent decl.name.toList)
    {word : List Char} (hword : word ∈ decl.words) :
    IsIdent word ∨ ∃ range ∈ decl.range, range.toList = word := by
  simp only [words, wordsFromKind, wordsFromSign, wordsFromRange, List.mem_append, List.mem_map,
    Option.mem_toList, Option.map_eq_some_iff, List.mem_singleton] at hword
  rcases hword with ⟨direction, _, rfl⟩ | ⟨kind, _, rfl⟩ | ⟨_, _, rfl⟩ | hrange | rfl
  · exact .inl (isIdent_of_mem_reserved _ direction.keyword_mem_reserved)
  · exact .inl (isIdent_of_mem_reserved _ kind.keyword_mem_reserved)
  · exact .inl (by decide)
  · exact .inr hrange
  · exact .inl hname

section Words

variable {decl : Declaration} (hname : IsIdent decl.name.toList)
  (hrange : ∀ range ∈ decl.range, IsBracketed range.toList)

include hname hrange

theorem isToken_of_mem_words {word : List Char} (hword : word ∈ decl.words) : IsToken word := by
  rcases isIdent_or_range_of_mem_words hname hword with hident | ⟨range, hr, rfl⟩
  · exact .inl hident
  · exact .inr (hrange range hr)

variable {text behind : List Char}

theorem optional_range_iff :
    (∃ rest, optional range? text = (decl.range.map String.toList, rest) ∧
        Laid behind [decl.name.toList] rest) ↔ Laid behind decl.wordsFromRange text := by
  have hname' : ∀ word ∈ [decl.name.toList], IsToken word := by
    intro word hword
    exact List.mem_singleton.mp hword ▸ .inl hname
  have hfound : ∀ range ∈ decl.range.map String.toList, IsBracketed range := by
    intro text htext
    obtain ⟨range, hr, rfl⟩ := Option.map_eq_some_iff.mp htext
    exact hrange range hr
  -- a name cannot be taken for a range that is left out
  have hleft : ∀ range, IsBracketed range → [decl.name.toList].head? ≠ some (id range) := by
    intro range hbracketed heq
    exact hname.not_isBracketed (Option.some.inj heq ▸ hbracketed)
  rw [takesWords_range?.optional_iff (List.cons_ne_nil _ _) hname', and_iff_right hfound,
    and_iff_right fun _ => hleft, List.map_id]
  rfl

theorem optional_sign_iff :
    (∃ rest, optional (fun text => (keyword? "signed" text).map ((), ·)) text =
        (decl.sign?, rest) ∧ Laid behind decl.wordsFromRange rest) ↔
      (decl.signed = false → decl.wordsFromRange.head? ≠ some "signed".toList) ∧
        Laid behind decl.wordsFromSign text := by
  have hsign : decl.sign? = none ↔ decl.signed = false := by
    rw [← sign?_isSome, Option.isSome_eq_false_iff, Option.isNone_iff_eq_none]
  have htokens : ∀ word ∈ decl.wordsFromRange, IsToken word := fun word hword =>
    isToken_of_mem_words hname hrange
      (List.mem_append_right _ (List.mem_append_right _ (List.mem_append_right _ hword)))
  rw [(takesWords_keyword? (by decide)).optional_iff decl.wordsFromRange_ne_nil htokens, hsign]
  simp only [implies_true, true_and, forall_const]
  rfl

theorem optional_kind_iff :
    (∃ rest, optional NetKind.read? text = (decl.kind, rest) ∧
        Laid behind decl.wordsFromSign rest) ↔
      (decl.kind = none →
        ∀ kind : NetKind, decl.wordsFromSign.head? ≠ some kind.keyword.toList) ∧
      Laid behind decl.wordsFromKind text := by
  have htokens : ∀ word ∈ decl.wordsFromSign, IsToken word := fun word hword =>
    isToken_of_mem_words hname hrange (List.mem_append_right _ (List.mem_append_right _ hword))
  rw [NetKind.takesWords_read?.optional_iff decl.wordsFromSign_ne_nil htokens]
  simp only [implies_true, true_and, forall_const]
  rfl

theorem optional_direction_iff :
    (∃ rest, optional Direction.read? text = (decl.direction, rest) ∧
        Laid behind decl.wordsFromKind rest) ↔
      (decl.direction = none →
        ∀ direction : Direction, decl.wordsFromKind.head? ≠ some direction.keyword.toList) ∧
      Laid behind decl.words text := by
  have htokens : ∀ word ∈ decl.wordsFromKind, IsToken word := fun word hword =>
    isToken_of_mem_words hname hrange (List.mem_append_right _ hword)
  rw [Direction.takesWords_read?.optional_iff decl.wordsFromKind_ne_nil htokens]
  simp only [implies_true, true_and, forall_const]
  rfl

end Words

theorem read_iff {text rest : List Char} {decl : Declaration} :
    read text = .ok (decl, rest) ↔
      decl.Readable ∧ ∃ behind, Laid behind decl.words text ∧ rest = dropSpace behind := by
  rw [read_eq_ok_iff]
  constructor
  · rintro ⟨fromKind, fromSign, fromRange, fromName, behind, hdirection, hkind, hsign, hrange,
      hname, hrest⟩
    obtain ⟨hident, hlaid⟩ := identifier?_dropSpace_iff.mp hname
    have hbracketed : ∀ range ∈ decl.range, IsBracketed range.toList := by
      intro range hr
      rw [hr] at hrange
      obtain ⟨_, hread⟩ := exists_of_optional_eq_some hrange
      exact (range?_eq_some_iff.mp hread).2
    -- part by part from the name to the front
    have hlaid := (optional_range_iff hident hbracketed).mp ⟨fromName, hrange, hlaid⟩
    obtain ⟨hsignLeft, hlaid⟩ := (optional_sign_iff hident hbracketed).mp ⟨fromRange, hsign, hlaid⟩
    obtain ⟨hkindLeft, hlaid⟩ := (optional_kind_iff hident hbracketed).mp ⟨fromSign, hkind, hlaid⟩
    obtain ⟨hdirectionLeft, hlaid⟩ :=
      (optional_direction_iff hident hbracketed).mp ⟨fromKind, hdirection, hlaid⟩
    exact ⟨⟨hident, hbracketed, hdirectionLeft, hkindLeft, hsignLeft⟩, behind, hlaid, hrest⟩
  · rintro ⟨⟨hident, hbracketed, hdirectionLeft, hkindLeft, hsignLeft⟩, behind, hlaid, hrest⟩
    obtain ⟨fromKind, hdirection, hlaid⟩ :=
      (optional_direction_iff hident hbracketed).mpr ⟨hdirectionLeft, hlaid⟩
    obtain ⟨fromSign, hkind, hlaid⟩ :=
      (optional_kind_iff hident hbracketed).mpr ⟨hkindLeft, hlaid⟩
    obtain ⟨fromRange, hsign, hlaid⟩ :=
      (optional_sign_iff hident hbracketed).mpr ⟨hsignLeft, hlaid⟩
    obtain ⟨fromName, hrange, hlaid⟩ := (optional_range_iff hident hbracketed).mpr hlaid
    exact ⟨fromKind, fromSign, fromRange, fromName, behind, hdirection, hkind, hsign, hrange,
      identifier?_dropSpace_iff.mpr ⟨hident, hlaid⟩, hrest⟩

section Reserved

variable {decl : Declaration} (hfree : decl.name ∉ reserved)
  (hrange : ∀ range ∈ decl.range, IsBracketed range.toList) {keyword : String}
  (hkeyword : keyword ∈ reserved)

include hfree hrange hkeyword

theorem ne_of_mem_wordsFromRange {word : List Char} (hword : word ∈ decl.wordsFromRange) :
    word ≠ keyword.toList := by
  simp only [wordsFromRange, List.mem_append, Option.mem_toList, Option.map_eq_some_iff,
    List.mem_singleton] at hword
  rcases hword with ⟨range, hr, rfl⟩ | rfl
  · intro heq
    exact (isIdent_of_mem_reserved keyword hkeyword).not_isBracketed (heq ▸ hrange range hr)
  · intro heq
    exact hfree (String.toList_inj.mp heq ▸ hkeyword)

theorem ne_of_mem_wordsFromSign (hsigned : keyword ≠ "signed") {word : List Char}
    (hword : word ∈ decl.wordsFromSign) : word ≠ keyword.toList := by
  rcases List.mem_append.mp hword with hword | hword
  · obtain ⟨_, _, rfl⟩ := List.mem_map.mp hword
    exact fun heq => hsigned (String.toList_inj.mp heq).symm
  · exact ne_of_mem_wordsFromRange hfree hrange hkeyword hword

theorem ne_of_mem_wordsFromKind (hsigned : keyword ≠ "signed")
    (hkind : ∀ kind : NetKind, keyword ≠ kind.keyword) {word : List Char}
    (hword : word ∈ decl.wordsFromKind) : word ≠ keyword.toList := by
  rcases List.mem_append.mp hword with hword | hword
  · obtain ⟨kind, _, rfl⟩ := List.mem_map.mp hword
    exact fun heq => hkind kind (String.toList_inj.mp heq).symm
  · exact ne_of_mem_wordsFromSign hfree hrange hkeyword hsigned hword

end Reserved

/-- A name that is no keyword can stand behind any attributes. -/
theorem readable_of_not_mem_reserved {decl : Declaration} (hname : IsIdent decl.name.toList)
    (hfree : decl.name ∉ reserved) (hrange : ∀ range ∈ decl.range, IsBracketed range.toList) :
    decl.Readable where
  name_ident := hname
  range_bracketed := hrange
  direction_left_out := by
    intro _ direction hhead
    refine ne_of_mem_wordsFromKind hfree hrange direction.keyword_mem_reserved ?_ ?_
      (List.mem_of_mem_head? hhead) rfl
    · cases direction <;> decide
    · intro kind
      cases direction <;> cases kind <;> decide
  kind_left_out := by
    intro _ kind hhead
    refine ne_of_mem_wordsFromSign hfree hrange kind.keyword_mem_reserved ?_
      (List.mem_of_mem_head? hhead) rfl
    cases kind <;> decide
  sign_left_out := by
    intro _ hhead
    exact ne_of_mem_wordsFromRange hfree hrange (by decide) (List.mem_of_mem_head? hhead) rfl

/-- What is left of a text stands behind the name and does not continue it. -/
theorem startsInWord_of_laid_words {decl : Declaration} {behind text : List Char}
    (hname : IsIdent decl.name.toList) (h : Laid behind decl.words text) :
    startsInWord behind = false := by
  simp only [words, wordsFromKind, wordsFromSign, wordsFromRange, ← List.append_assoc] at h
  exact h.parted_last hname.endsInWord

/-- A declaration is read from a text if and only if the text begins with the words of it: the
keywords, the range and the name, in this order, with space or without. What is left is
what stands behind the name, without the space in front of it. A declaration can always be
read if its name is no keyword. -/
theorem read_grammar (text : List Char) (decl : Declaration) :
    (∀ rest, read text = .ok (decl, rest) ↔
      decl.Readable ∧ ∃ behind, Laid behind decl.words text ∧ startsInWord behind = false ∧
        rest = dropSpace behind) ∧
    (decl.name ∉ reserved → IsIdent decl.name.toList →
      (∀ range ∈ decl.range, IsBracketed range.toList) →
      ∀ behind, Laid behind decl.words text → read text = .ok (decl, dropSpace behind)) := by
  constructor
  · intro rest
    rw [read_iff]
    refine and_congr_right fun hreadable => exists_congr fun behind => ?_
    exact and_congr_right fun hlaid =>
      (and_iff_right (startsInWord_of_laid_words hreadable.name_ident hlaid)).symm
  · intro hfree hname hrange behind hlaid
    exact read_iff.mpr ⟨readable_of_not_mem_reserved hname hfree hrange, behind, hlaid, rfl⟩

/-- A register whose name begins with the keyword in front of its range. -/
def regionRegister : Declaration where
  direction := some .output
  kind := some .reg
  range := some "[N-1 : 0]"
  name := "region"

theorem laid_regionRegister :
    Laid " = 4".toList regionRegister.words "\toutput\r\nreg[N-1 : 0]region = 4".toList := by
  have hname : Laid " = 4".toList ["region".toList] ([] ++ ("region".toList ++ " = 4".toList)) :=
    .cons _ (by decide) (by decide) .nil
  have hrange : Laid " = 4".toList regionRegister.wordsFromRange
      ([] ++ ("[N-1 : 0]".toList ++ "region = 4".toList)) :=
    .cons _ (by decide) (by decide) hname
  have hkind : Laid " = 4".toList regionRegister.wordsFromKind
      ("\r\n".toList ++ ("reg".toList ++ "[N-1 : 0]region = 4".toList)) :=
    .cons _ (by decide) (by decide) hrange
  exact .cons "output".toList (by decide : IsSpace "\t".toList) (by decide) hkind

theorem read_regionRegister :
    regionRegister.name ∉ reserved ∧ IsIdent regionRegister.name.toList ∧
      (∀ range ∈ regionRegister.range, IsBracketed range.toList) ∧
      Laid " = 4".toList regionRegister.words "\toutput\r\nreg[N-1 : 0]region = 4".toList ∧
      read "\toutput\r\nreg[N-1 : 0]region = 4".toList = .ok (regionRegister, "= 4".toList) := by
  have hfree : regionRegister.name ∉ reserved := by decide
  have hname : IsIdent regionRegister.name.toList := by decide
  have hrange : ∀ range ∈ regionRegister.range, IsBracketed range.toList := by decide
  have hread := (read_grammar _ regionRegister).2 hfree hname hrange _ laid_regionRegister
  exact ⟨hfree, hname, hrange, laid_regionRegister, hread⟩

/-- Behind an attribute a keyword can be a name, too, but not in the place of one. -/
example :
    read "input input".toList = .ok ({ direction := some .input, name := "input" }, []) ∧
      (read "input wire".toList).toOption = none := by
  decide +kernel

end Declaration

end VerilogOutline
