import VerilogOutline.Proofs.Text.Layout
import VerilogOutline.Proofs.Text.Piece

/-!
# Reading words

What reading a word does when the text goes on behind it with something that is no
part of the word. A text begins with one word only, so a word that may be missing is read
exactly where it is there.
-/

namespace VerilogOutline.Lexeme

open Text

/-- Whether a whole text is one identifier. -/
def IsIdent (text : List Char) : Prop :=
  text.head?.any isIdentStart ∧ text.all isIdentChar

instance : DecidablePred IsIdent :=
  fun _ => inferInstanceAs (Decidable (_ ∧ _))

/-- Whether a whole text is one range. There is something between the brackets. -/
def IsBracketed (text : List Char) : Prop :=
  ∃ inside, text = '[' :: (inside ++ [']']) ∧ inside ≠ [] ∧ ']' ∉ inside

/-- Whether a whole text is one word of a declaration. Keywords are identifiers, too. -/
def IsToken (text : List Char) : Prop :=
  IsIdent text ∨ IsBracketed text

/-- Whether a whole text is one range that a list can hold. -/
def IsRange (text : List Char) : Prop :=
  ∃ inside, text = '[' :: (inside ++ [']']) ∧ inside ≠ [] ∧ ']' ∉ inside ∧ ',' ∉ inside

theorem isBlank_of_isIdentChar {c : Char} (h : isIdentChar c) : isBlank c = false := by
  by_contra hblank
  have hmem : c ∈ blanks := by simpa [isBlank] using hblank
  have hnone : blanks.all (!isIdentChar ·) = true := by decide
  have hc := List.all_eq_true.mp hnone c hmem
  rw [h] at hc
  contradiction

theorem isIdentChar_of_isIdentStart {c : Char} (h : isIdentStart c) : isIdentChar c := by
  simp only [isIdentStart, isIdentChar, Char.isAlphanum, Bool.or_eq_true] at h ⊢
  exact h.imp_left .inl

variable {word behind : List Char}

namespace IsIdent

theorem isIdentChar_of_mem (h : IsIdent word) {c : Char} (hmem : c ∈ word) : isIdentChar c :=
  List.all_eq_true.mp h.2 c hmem

theorem exists_cons (h : IsIdent word) :
    ∃ c rest, word = c :: rest ∧ isIdentStart c ∧ ∀ d ∈ rest, isIdentChar d := by
  cases word with
  | nil => exact absurd h.1 Bool.false_ne_true
  | cons c rest =>
      exact ⟨c, rest, rfl, h.1, fun d hd => h.isIdentChar_of_mem (List.mem_cons_of_mem _ hd)⟩

theorem solid (h : IsIdent word) : Solid word where
  head := fun c hc => isBlank_of_isIdentChar (h.isIdentChar_of_mem (List.mem_of_mem_head? hc))
  last := fun c hc => isBlank_of_isIdentChar (h.isIdentChar_of_mem (List.mem_of_mem_getLast? hc))
  ne_nil := by
    obtain ⟨c, rest, rfl, _⟩ := h.exists_cons
    exact List.cons_ne_nil _ _

theorem not_mem (h : IsIdent word) {c : Char} (hc : isIdentChar c = false) : c ∉ word := by
  intro hmem
  rw [h.isIdentChar_of_mem hmem] at hc
  contradiction

end IsIdent

theorem takeWhile_eq_nil_of_startsInWord (h : startsInWord behind = false) :
    behind.takeWhile isIdentChar = [] := by
  cases behind with
  | nil => rfl
  | cons c rest =>
      have hc : isIdentChar c = false := h
      exact List.takeWhile_cons_of_neg (by simp [hc])

theorem dropWhile_eq_self_of_startsInWord (h : startsInWord behind = false) :
    behind.dropWhile isIdentChar = behind := by
  cases behind with
  | nil => rfl
  | cons c rest =>
      have hc : isIdentChar c = false := h
      exact List.dropWhile_cons_of_neg (by simp [hc])

theorem identifier?_word (hword : IsIdent word) (hbehind : startsInWord behind = false) :
    identifier? (word ++ behind) = some (word, behind) := by
  obtain ⟨c, rest, rfl, hstart, hrest⟩ := hword.exists_cons
  rw [List.cons_append, identifier?, if_pos hstart, List.takeWhile_append_of_pos hrest,
    List.dropWhile_append_of_pos hrest, takeWhile_eq_nil_of_startsInWord hbehind,
    dropWhile_eq_self_of_startsInWord hbehind, List.append_nil]

/-- An identifier is read up to where no identifier character follows. -/
theorem identifier?_eq_some_iff {text name rest : List Char} :
    identifier? text = some (name, rest) ↔
      text = name ++ rest ∧ IsIdent name ∧ startsInWord rest = false := by
  constructor
  · intro h
    refine ⟨eq_append_of_identifier? h, ?_⟩
    unfold identifier? at h
    split at h
    next => contradiction
    next c tail =>
      split at h
      next hstart =>
        obtain ⟨rfl, rfl⟩ : c :: tail.takeWhile isIdentChar = name ∧
            tail.dropWhile isIdentChar = rest := by simpa using h
        refine ⟨⟨hstart, ?_⟩, ?_⟩
        · rw [List.all_cons, List.all_takeWhile, Bool.and_true]
          exact isIdentChar_of_isIdentStart hstart
        · have hhead := List.head?_dropWhile_not isIdentChar tail
          cases hrest : tail.dropWhile isIdentChar with
          | nil => rfl
          | cons d rest =>
              rw [hrest] at hhead
              simpa [startsInWord] using hhead
      next => contradiction
  · rintro ⟨rfl, hname, hrest⟩
    exact identifier?_word hname hrest

theorem IsIdent.endsInWord (h : IsIdent word) : endsInWord word = true := by
  rw [Text.endsInWord, List.getLast?_eq_some_getLast h.solid.ne_nil]
  exact h.isIdentChar_of_mem (List.getLast_mem _)

theorem IsIdent.identifier?_eq (hword : IsIdent word) (hparted : Parted word behind) :
    identifier? (word ++ behind) = some (word, behind) :=
  identifier?_word hword (hparted hword.endsInWord)

/-- An identifier behind space is read as the one word that is there. -/
theorem identifier?_dropSpace_iff {text name rest : List Char} :
    identifier? (dropSpace text) = some (name, rest) ↔ IsIdent name ∧ Laid rest [name] text := by
  constructor
  · intro h
    obtain ⟨htext, hname, hrest⟩ := identifier?_eq_some_iff.mp h
    have hnone : IsSpace [] := by decide
    have hlaid : Laid rest [name] ([] ++ (name ++ rest)) := .cons name hnone (fun _ => hrest) .nil
    rw [List.nil_append, ← htext] at hlaid
    exact ⟨hname, hlaid.of_dropSpace (List.cons_ne_nil _ _)⟩
  · rintro ⟨hname, hlaid⟩
    obtain ⟨later, htext, hparted, hlater⟩ := hlaid.exists_behind hname.solid
    cases hlater with
    | nil => rw [htext, hname.identifier?_eq hparted]

/-- A range is read up to the bracket that closes it. -/
theorem range?_eq_some_iff {text range rest : List Char} :
    range? text = some (range, rest) ↔ text = range ++ rest ∧ IsBracketed range := by
  constructor
  · intro h
    refine ⟨eq_append_of_range? h, ?_⟩
    unfold range? at h
    split at h
    next inner =>
      split at h
      next c inside after htake _ =>
        obtain ⟨rfl, rfl⟩ : '[' :: c :: inside ++ [']'] = range ∧ after = rest := by simpa using h
        refine ⟨c :: inside, rfl, List.cons_ne_nil _ _, ?_⟩
        intro hmem
        rw [← htake] at hmem
        simpa using List.mem_takeWhile_imp hmem
      next => contradiction
    next => contradiction
  · rintro ⟨rfl, inside, rfl, hne, hbracket⟩
    have hinside : ∀ c ∈ inside, (c != ']') = true := by
      intro c hc
      exact bne_iff_ne.mpr fun heq => hbracket (heq ▸ hc)
    obtain ⟨c, later, rfl⟩ := List.exists_cons_of_ne_nil hne
    simp only [List.cons_append, List.append_assoc, range?]
    rw [← List.cons_append, List.takeWhile_append_of_pos hinside,
      List.dropWhile_append_of_pos hinside]
    simp

theorem isBracketed_iff : IsBracketed word ↔ range? word = some (word, []) := by
  rw [range?_eq_some_iff, List.append_nil]
  exact (and_iff_right rfl).symm

instance : DecidablePred IsBracketed :=
  fun _ => decidable_of_iff _ isBracketed_iff.symm

theorem isRange_iff : IsRange word ↔ IsBracketed word ∧ ',' ∉ word := by
  constructor
  · rintro ⟨inside, rfl, hne, hbracket, hcomma⟩
    exact ⟨⟨inside, rfl, hne, hbracket⟩, by simpa using hcomma⟩
  · rintro ⟨⟨inside, rfl, hne, hbracket⟩, hcomma⟩
    exact ⟨inside, rfl, hne, hbracket, by simpa using hcomma⟩

instance : DecidablePred IsRange :=
  fun _ => decidable_of_iff _ isRange_iff.symm

theorem IsBracketed.solid (h : IsBracketed word) : Solid word := by
  obtain ⟨inside, rfl, _⟩ := h
  refine ⟨⟨?_, ?_⟩, List.cons_ne_nil _ _⟩
  · intro c hc
    obtain rfl : '[' = c := by simpa using hc
    decide
  · intro c hc
    rw [← List.cons_append, List.getLast?_concat] at hc
    obtain rfl : ']' = c := by simpa using hc
    decide

theorem IsIdent.not_isBracketed (h : IsIdent word) : ¬ IsBracketed word := by
  rintro ⟨inside, rfl, _⟩
  exact h.not_mem (by decide) List.mem_cons_self

theorem IsIdent.append_ne_of_isBracketed {word' behind' : List Char} (hword : IsIdent word)
    (hword' : IsBracketed word') : word ++ behind ≠ word' ++ behind' := by
  obtain ⟨c, _, rfl, hstart, _⟩ := hword.exists_cons
  obtain ⟨_, rfl, _⟩ := hword'
  intro heq
  obtain rfl : c = '[' := (List.cons.inj heq).1
  contradiction

namespace IsToken

theorem solid (h : IsToken word) : Solid word := by
  rcases h with hident | hrange
  · exact hident.solid
  · exact hrange.solid

/-- A text begins with one word only. -/
theorem eq_of_append_eq {word' behind' : List Char} (hword : IsToken word) (hword' : IsToken word')
    (hparted : Parted word behind) (hparted' : Parted word' behind')
    (h : word ++ behind = word' ++ behind') : word = word' := by
  rcases hword with hident | hrange <;> rcases hword' with hident' | hrange'
  · have hread := hident.identifier?_eq hparted
    rw [h, hident'.identifier?_eq hparted'] at hread
    exact (Prod.mk.inj (Option.some.inj hread)).1.symm
  · exact absurd h (hident.append_ne_of_isBracketed hrange')
  · exact absurd h.symm (hident'.append_ne_of_isBracketed hrange)
  · have hread : range? (word ++ behind) = some (word, behind) :=
      range?_eq_some_iff.mpr ⟨rfl, hrange⟩
    rw [h, range?_eq_some_iff.mpr ⟨rfl, hrange'⟩] at hread
    exact (Prod.mk.inj (Option.some.inj hread)).1.symm

end IsToken

theorem keyword?_word (keyword : String) (hbehind : startsInWord behind = false) :
    keyword? keyword (keyword.toList ++ behind) = some behind :=
  keyword?_eq_some_iff.mpr ⟨rfl, hbehind⟩

variable {α : Type}

/-- The reader takes a word off the start of a text if it is one that is written for a valid
value, and the word ends there. -/
structure TakesWords (read? : List Char → Option (α × List Char)) (written : α → List Char)
    (valid : α → Prop) : Prop where
  isToken : ∀ value, valid value → IsToken (written value)
  read?_iff : ∀ {text value behind}, read? text = some (value, behind) ↔
    valid value ∧ text = written value ++ behind ∧ Parted (written value) behind

theorem takesWords_range? : TakesWords range? id IsBracketed where
  isToken := fun _ => .inr
  read?_iff := by
    intro text range behind
    rw [range?_eq_some_iff, and_comm, id]
    refine and_congr_right fun hrange => (and_iff_left ?_).symm
    -- a range ends in a bracket, and whatever follows is apart from it
    obtain ⟨inside, rfl, _⟩ := hrange
    intro hend
    rw [← List.cons_append, endsInWord_concat] at hend
    contradiction

theorem keyword?_map_iff {keyword : String} (hkeyword : IsIdent keyword.toList) {value value' : α}
    {text behind : List Char} :
    (keyword? keyword text).map (value, ·) = some (value', behind) ↔
      value = value' ∧ text = keyword.toList ++ behind ∧ Parted keyword.toList behind := by
  have hparted : Parted keyword.toList behind ↔ startsInWord behind = false :=
    ⟨fun h => h hkeyword.endsInWord, fun h _ => h⟩
  simp only [Option.map_eq_some_iff, Prod.mk.injEq, keyword?_eq_some_iff, hparted]
  constructor
  · rintro ⟨_, ⟨rfl, hbehind⟩, rfl, rfl⟩
    exact ⟨rfl, rfl, hbehind⟩
  · rintro ⟨rfl, rfl, hbehind⟩
    exact ⟨behind, ⟨rfl, hbehind⟩, rfl, rfl⟩

theorem takesWords_keyword? {keyword : String} (hkeyword : IsIdent keyword.toList) :
    TakesWords (fun text => (keyword? keyword text).map ((), ·)) (fun _ => keyword.toList)
      fun _ => True where
  isToken := fun _ _ => .inl hkeyword
  read?_iff := by
    intro text value behind
    rw [keyword?_map_iff hkeyword, and_iff_right trivial, and_iff_right rfl]

/-- Of several keywords the one that is there is read. -/
theorem takesWords_findSome? {choices : List α} {keyword : α → String}
    (hall : ∀ choice, choice ∈ choices) (hkeyword : ∀ choice, IsIdent (keyword choice).toList)
    (hinjective : ∀ choice other, keyword choice = keyword other → choice = other) :
    TakesWords
      (fun text => choices.findSome? fun choice => (keyword? (keyword choice) text).map (choice, ·))
      (fun choice => (keyword choice).toList) fun _ => True where
  isToken := fun choice _ => .inl (hkeyword choice)
  read?_iff := by
    have hfound : ∀ {text value behind}, (choices.findSome? fun choice =>
          (keyword? (keyword choice) text).map (choice, ·)) = some (value, behind) →
        text = (keyword value).toList ++ behind ∧ Parted (keyword value).toList behind := by
      intro text value behind h
      obtain ⟨choice, _, hchoice⟩ := List.exists_of_findSome?_eq_some h
      obtain ⟨rfl, htext⟩ := (keyword?_map_iff (hkeyword choice)).mp hchoice
      exact htext
    intro text value behind
    rw [and_iff_right trivial]
    refine ⟨hfound, ?_⟩
    rintro ⟨rfl, hparted⟩
    cases hread : choices.findSome? fun choice =>
        (keyword? (keyword choice) ((keyword value).toList ++ behind)).map (choice, ·) with
    | none =>
        have hnone := List.findSome?_eq_none_iff.mp hread value (hall value)
        rw [(keyword?_map_iff (hkeyword value)).mpr ⟨rfl, rfl, hparted⟩] at hnone
        contradiction
    | some found =>
        obtain ⟨other, behind'⟩ := found
        obtain ⟨heq, hparted'⟩ := hfound hread
        have hword := IsToken.eq_of_append_eq (.inl (hkeyword value)) (.inl (hkeyword other))
          hparted hparted' heq
        obtain rfl := hinjective value other (String.toList_inj.mp hword)
        rw [List.append_cancel_left heq]

/-- A word that may be missing is read off laid out words if it is there. It is left out
if the words go on with no word of its kind. -/
theorem TakesWords.optional_iff {read? : List Char → Option (α × List Char)}
    {written : α → List Char} {valid : α → Prop} (hread : TakesWords read? written valid)
    {found : Option α} {words : List (List Char)} (hne : words ≠ [])
    (hwords : ∀ word ∈ words, IsToken word) {text : List Char} :
    (∃ rest, optional read? text = (found, rest) ∧ Laid behind words rest) ↔
      (∀ value ∈ found, valid value) ∧
        (found = none → ∀ value, valid value → words.head? ≠ some (written value)) ∧
        Laid behind (found.toList.map written ++ words) text := by
  constructor
  · rintro ⟨rest, hoptional, hrest⟩
    unfold optional at hoptional
    split at hoptional
    next value after hsome =>
      obtain ⟨rfl, rfl⟩ := Prod.mk.inj hoptional
      obtain ⟨hvalid, htext, hparted⟩ := hread.read?_iff.mp hsome
      have hnone : IsSpace [] := by decide
      have hword : Laid behind (written value :: words) (dropSpace text) := by
        rw [htext]
        exact .cons (written value) hnone hparted (hrest.of_dropSpace hne)
      exact ⟨by simpa using hvalid, by simp, hword.of_dropSpace (List.cons_ne_nil _ _)⟩
    next hnone =>
      obtain ⟨rfl, rfl⟩ := Prod.mk.inj hoptional
      refine ⟨by simp, ?_, hrest⟩
      intro _ value hvalid hhead
      obtain ⟨later, rfl⟩ := List.head?_eq_some_iff.mp hhead
      obtain ⟨_, htext, hparted, _⟩ := hrest.exists_behind (hread.isToken value hvalid).solid
      rw [hread.read?_iff.mpr ⟨hvalid, htext, hparted⟩] at hnone
      contradiction
  · rintro ⟨hvalid, hleft, h⟩
    cases found with
    | some value =>
        have hvalue := hvalid value rfl
        obtain ⟨after, htext, hparted, hafter⟩ :=
          h.exists_behind (hread.isToken value hvalue).solid
        refine ⟨dropSpace after, ?_, hafter.dropSpace hne fun word hw => (hwords word hw).solid⟩
        rw [optional, hread.read?_iff.mpr ⟨hvalue, htext, hparted⟩]
    | none =>
        refine ⟨text, ?_, h⟩
        obtain ⟨word, later, rfl⟩ := List.exists_cons_of_ne_nil hne
        have hword := hwords word List.mem_cons_self
        obtain ⟨_, htext, hparted, _⟩ := Laid.exists_behind h hword.solid
        -- a word of the kind that is left out would be the first of the words
        have hnone : read? (Text.dropSpace text) = none := by
          rw [Option.eq_none_iff_forall_ne_some]
          rintro ⟨value, after⟩ hsome
          obtain ⟨hvalue, htext', hparted'⟩ := hread.read?_iff.mp hsome
          have hfirst := hword.eq_of_append_eq (hread.isToken value hvalue) hparted hparted'
            (htext.symm.trans htext')
          exact hleft rfl value hvalue (congrArg some hfirst)
        rw [optional, hnone]

end VerilogOutline.Lexeme
