import VerilogOutline.Text.Basic

/-!
# Module regions

A region runs from the keyword `module` to the first `endmodule` behind its
header. Its lists are taken as raw text. A list ends at the first closing
parenthesis after which the rest of the header can still be read, so
parentheses inside a list need no balance.
-/

namespace VerilogOutline

open Text Lexeme

/-- A module region, taken apart but not yet read. -/
structure Region where
  name : String
  /-- The parameter list without its parentheses, trimmed; empty if there is none. -/
  parameters : String
  /-- The port list without its parentheses, trimmed; empty if there is none. -/
  ports : String
  /-- Everything between the header and `endmodule`, as written. -/
  body : String
  deriving DecidableEq, Repr

namespace Region

/-- The part of a text before the first `)` behind which `tail?` can read on,
and what `tail?` then read. -/
def group? {α : Type} (tail? : List Char → Option α) : List Char → Option (List Char × α)
  | [] => none
  | c :: rest =>
    match if c = ')' then tail? rest else none with
    | some value => some ([], value)
    | none => (group? tail? rest).map fun (inside, value) => (c :: inside, value)

/-- What follows the `;` that ends a header, after space. -/
def semicolon? (text : List Char) : Option (List Char) :=
  match dropSpace text with
  | ';' :: rest => some rest
  | _ => none

/-- The port list at the end of a header and the text behind the header. -/
def ports? (text : List Char) : Option (List Char × List Char) :=
  match dropSpace text with
  | ';' :: rest => some ([], rest)
  | '(' :: rest => group? semicolon? rest
  | _ => none

/-- The parameter list, the port list and the text behind the header that
follows a module name. -/
def header? (text : List Char) : Option (List Char × List Char × List Char) :=
  match dropSpace text with
  | '#' :: rest =>
    match dropSpace rest with
    | '(' :: rest => group? ports? rest
    | _ => none
  | _ => (ports? text).map ([], ·)

/-- Read a region and return the text behind it. -/
def read? (text : List Char) : Option (Region × List Char) := do
  let afterKeyword ← keyword? "module" text
  guard (afterKeyword.head?.any Char.isWhitespace)
  let (name, afterName) ← identifier? (dropSpace afterKeyword)
  let (parameters, ports, afterHeader) ← header? afterName
  let (body, rest) ← breakOn? "endmodule".toList afterHeader
  let region := {
    name := String.ofList name
    parameters := String.ofList (trim parameters)
    ports := String.ofList (trim ports)
    body := String.ofList body }
  return (region, rest)

section Group

variable {α : Type} {tail? : List Char → Option α} {value : α}

theorem group?_cons_of_some {rest : List Char} (h : tail? rest = some value) :
    group? tail? (')' :: rest) = some ([], value) := by
  simp [group?, h]

theorem group?_cons_of_none {c : Char} {rest : List Char} (h : c = ')' → tail? rest = none) :
    group? tail? (c :: rest) =
      (group? tail? rest).map fun (inside, value) => (c :: inside, value) := by
  rw [group?]
  split
  next found hfound =>
    split at hfound
    next hc => simp [h hc] at hfound
    next => contradiction
  next => rfl

theorem eq_append_of_group? {text inside : List Char} (h : group? tail? text = some (inside, value)) :
    ∃ after, text = inside ++ ')' :: after ∧ tail? after = some value ∧
      ∀ first second, inside = first ++ ')' :: second →
        tail? (second ++ ')' :: after) = none := by
  induction text generalizing inside with
  | nil => simp [group?] at h
  | cons c rest ih =>
      -- the group ends here unless `tail?` fails behind this character
      by_cases hclose : c = ')' → tail? rest = none
      · rw [group?_cons_of_none hclose] at h
        simp only [Option.map_eq_some_iff, Prod.mk.injEq, Prod.exists] at h
        obtain ⟨inside, _, h, rfl, rfl⟩ := h
        obtain ⟨after, rfl, hvalue, hearlier⟩ := ih h
        refine ⟨after, rfl, hvalue, ?_⟩
        intro first second hsplit
        cases first with
        | nil =>
            obtain ⟨rfl, rfl⟩ := List.cons.inj hsplit
            exact hclose rfl
        | cons _ first => exact hearlier first second (List.cons.inj hsplit).2
      · obtain ⟨rfl, hsome⟩ := Classical.not_imp.mp hclose
        obtain ⟨found, hfound⟩ := Option.ne_none_iff_exists'.mp hsome
        obtain ⟨rfl, rfl⟩ : [] = inside ∧ found = value := by
          simpa [group?_cons_of_some hfound] using h
        exact ⟨rest, rfl, hfound, by simp⟩

theorem group?_append_close {inside after : List Char} (hvalue : tail? after = some value)
    (hearlier : ∀ first second, inside = first ++ ')' :: second →
      tail? (second ++ ')' :: after) = none) :
    group? tail? (inside ++ ')' :: after) = some (inside, value) := by
  induction inside with
  | nil => exact group?_cons_of_some hvalue
  | cons c inside ih =>
      have hclose : c = ')' → tail? (inside ++ ')' :: after) = none := by
        rintro rfl
        exact hearlier [] inside rfl
      have hrest := ih fun first second hsplit =>
        hearlier (c :: first) second (by rw [hsplit, List.cons_append])
      rw [List.cons_append, group?_cons_of_none hclose, hrest]
      rfl

/-- A group ends at the first `)` behind which `tail?` can read on. -/
theorem group?_eq_some_iff {text inside : List Char} :
    group? tail? text = some (inside, value) ↔
      ∃ after, text = inside ++ ')' :: after ∧ tail? after = some value ∧
        ∀ first second, inside = first ++ ')' :: second →
          tail? (second ++ ')' :: after) = none := by
  constructor
  · exact eq_append_of_group?
  · intro h
    obtain ⟨after, rfl, hvalue, hearlier⟩ := h
    exact group?_append_close hvalue hearlier

/-- There is no group if `tail?` cannot read on behind any `)`. -/
theorem group?_eq_none_iff {text : List Char} :
    group? tail? text = none ↔
      ∀ first second, text = first ++ ')' :: second → tail? second = none := by
  induction text with
  | nil => simp [group?]
  | cons c rest ih =>
      by_cases hclose : c = ')' → tail? rest = none
      · rw [group?_cons_of_none hclose, Option.map_eq_none_iff, ih]
        constructor
        · intro h first second hsplit
          cases first with
          | nil =>
              obtain ⟨rfl, rfl⟩ := List.cons.inj hsplit
              exact hclose rfl
          | cons _ first => exact h first second (List.cons.inj hsplit).2
        · intro h first second hsplit
          exact h (c :: first) second (by rw [hsplit, List.cons_append])
      · obtain ⟨rfl, hsome⟩ := Classical.not_imp.mp hclose
        obtain ⟨found, hfound⟩ := Option.ne_none_iff_exists'.mp hsome
        rw [group?_cons_of_some hfound]
        constructor
        · intro h
          contradiction
        · intro h
          exact absurd (h [] rest rfl) hsome

/-- If what `tail?` leaves stands at the end of its text, then so does what a group leaves. -/
theorem group?_suffix (rest : α → List Char)
    (htail : ∀ {text value}, tail? text = some value → rest value <:+ text)
    {text inside : List Char} (h : group? tail? text = some (inside, value)) :
    rest value <:+ text := by
  obtain ⟨after, rfl, hvalue, _⟩ := group?_eq_some_iff.mp h
  exact (htail hvalue).trans ((List.suffix_cons _ _).trans (List.suffix_append _ _))

end Group

theorem semicolon?_eq_some_iff {text rest : List Char} :
    semicolon? text = some rest ↔ dropSpace text = ';' :: rest := by
  unfold semicolon?
  split
  next heq => simp [heq]
  next hne =>
    simp only [reduceCtorEq, false_iff]
    exact hne rest

theorem semicolon?_suffix {text rest : List Char} (h : semicolon? text = some rest) :
    rest <:+ text :=
  suffix_of_dropSpace_eq_cons (semicolon?_eq_some_iff.mp h)

/-- Behind the space a header ends at once or after a port list. -/
theorem ports?_eq_some_iff {text ports rest : List Char} :
    ports? text = some (ports, rest) ↔
      (ports = [] ∧ dropSpace text = ';' :: rest) ∨
        ∃ inside, dropSpace text = '(' :: inside ∧
          group? semicolon? inside = some (ports, rest) := by
  unfold ports?
  split
  next after heq =>
    simp only [heq, Option.some.injEq, Prod.mk.injEq, List.cons.injEq, true_and]
    constructor
    · rintro ⟨rfl, rfl⟩
      exact .inl ⟨rfl, rfl⟩
    · rintro (⟨rfl, rfl⟩ | ⟨inside, ⟨hchar, _⟩, _⟩)
      · exact ⟨rfl, rfl⟩
      · exact absurd hchar (by decide)
  next heq => simp [heq]
  next hsemicolon hopen =>
    simp only [reduceCtorEq, false_iff, not_or, not_and, not_exists]
    exact ⟨fun _ => hsemicolon rest, fun inside h => absurd h (hopen inside)⟩

theorem ports?_suffix {text ports rest : List Char} (h : ports? text = some (ports, rest)) :
    rest <:+ text := by
  rcases ports?_eq_some_iff.mp h with ⟨_, hend⟩ | ⟨inside, hopen, hgroup⟩
  · exact suffix_of_dropSpace_eq_cons hend
  · have hrest := group?_suffix id semicolon?_suffix hgroup
    exact hrest.trans (suffix_of_dropSpace_eq_cons hopen)

/-- A header has a parameter list in front of its end, or none. -/
theorem header?_eq_some_iff {text parameters ports rest : List Char} :
    header? text = some (parameters, ports, rest) ↔
      (∃ after inside, dropSpace text = '#' :: after ∧ dropSpace after = '(' :: inside ∧
        group? ports? inside = some (parameters, ports, rest)) ∨
      (parameters = [] ∧ ports? text = some (ports, rest)) := by
  unfold header?
  split
  next after heq =>
    have hports : ports? text = none := by simp [ports?, heq]
    split
    next inside heq' => simp [heq, heq', hports]
    next hopen =>
      simp only [heq, hports, reduceCtorEq, and_false, or_false, false_iff, not_exists, not_and]
      rintro _ inside hafter hinside
      obtain rfl := (List.cons.inj hafter).2
      exact absurd hinside (hopen inside)
  next hhash =>
    rw [Option.map_eq_some_iff]
    constructor
    · rintro ⟨found, h, heq⟩
      obtain ⟨hparameters, rfl⟩ := Prod.mk.inj heq
      exact .inr ⟨hparameters.symm, h⟩
    · rintro (⟨after, _, heq, _⟩ | ⟨rfl, h⟩)
      · exact absurd heq (hhash after)
      · exact ⟨_, h, rfl⟩

theorem header?_suffix {text parameters ports rest : List Char}
    (h : header? text = some (parameters, ports, rest)) : rest <:+ text := by
  rcases header?_eq_some_iff.mp h with ⟨after, inside, hhash, hopen, hgroup⟩ | ⟨_, hports⟩
  · have hrest := group?_suffix Prod.snd ports?_suffix hgroup
    exact hrest.trans
      ((suffix_of_dropSpace_eq_cons hopen).trans (suffix_of_dropSpace_eq_cons hhash))
  · exact ports?_suffix hports

private theorem guard_bind {α : Type} {p : Prop} [Decidable p] (next : Unit → Option α) :
    (guard p >>= next) = if p then next () else none := by
  show ((if p then pure () else failure) >>= next) = if p then next () else none
  split
  next => rfl
  next => rfl

/-- The steps of reading a region. -/
theorem read?_eq_some_iff {text rest : List Char} {region : Region} :
    read? text = some (region, rest) ↔
      ∃ afterKeyword name afterName parameters ports afterHeader body,
        keyword? "module" text = some afterKeyword ∧
        afterKeyword.head?.any Char.isWhitespace ∧
        identifier? (dropSpace afterKeyword) = some (name, afterName) ∧
        header? afterName = some (parameters, ports, afterHeader) ∧
        breakOn? "endmodule".toList afterHeader = some (body, rest) ∧
        region = {
          name := String.ofList name
          parameters := String.ofList (trim parameters)
          ports := String.ofList (trim ports)
          body := String.ofList body } := by
  simp only [read?, ↓guard_bind, Option.ite_none_right_eq_some, Option.bind_eq_bind,
    Option.bind_eq_some_iff, Option.pure_def, Option.some.injEq, Prod.mk.injEq, Prod.exists,
    eq_comm (a := region)]
  constructor
  · rintro ⟨afterKeyword, hkeyword, hspace, name, afterName, hname, parameters, ports,
      afterHeader, hheader, body, afterBody, hbody, hregion, rfl⟩
    exact ⟨afterKeyword, name, afterName, parameters, ports, afterHeader, body, hkeyword, hspace,
      hname, hheader, hbody, hregion⟩
  · rintro ⟨afterKeyword, name, afterName, parameters, ports, afterHeader, body, hkeyword, hspace,
      hname, hheader, hbody, hregion⟩
    exact ⟨afterKeyword, hkeyword, hspace, name, afterName, hname, parameters, ports,
      afterHeader, hheader, body, rest, hbody, hregion, rfl⟩

/-- A region takes up some of the text. -/
theorem length_of_read? {text rest : List Char} {region : Region}
    (h : read? text = some (region, rest)) : rest.length < text.length := by
  obtain ⟨afterKeyword, name, afterName, parameters, ports, afterHeader, body, hkeyword, _, hname,
    hheader, hbody, _⟩ := read?_eq_some_iff.mp h
  have hrest : rest.length ≤ afterName.length :=
    ((breakOn?_suffix hbody).trans (header?_suffix hheader)).length_le
  have hspace : (dropSpace afterKeyword).length ≤ text.length :=
    ((dropSpace_suffix afterKeyword).trans (keyword?_suffix hkeyword)).length_le
  -- of the parts of a region only the name need not be looked into: it is not empty
  have hlonger := length_of_identifier? hname
  omega

end Region

end VerilogOutline
