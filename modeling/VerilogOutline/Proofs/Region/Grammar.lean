import VerilogOutline.Proofs.Region.Written

/-!
# The grammar of regions

A region is read from a text exactly if the text begins with one, whichever way the
parentheses of its header are paired. The lists that are read end as early as the rest of
the header allows. No other choice of parentheses would end the header earlier, so none
would leave more of the text to find the end of the body in.
-/

namespace VerilogOutline.Region

open Text Lexeme

/-- The forms of a header behind the module's name. What a list holds is not restricted. -/
inductive Header : List Char → Prop
  | bare : Header [';']
  | ports {space : List Char} (ports : List Char) :
      IsSpace space → Header ('(' :: (ports ++ ')' :: (space ++ [';'])))
  | parameters {space space' : List Char} (parameters : List Char) :
      IsSpace space → IsSpace space' →
      Header ('#' :: (space ++ '(' :: (parameters ++ ')' :: (space' ++ [';']))))
  | both {space space' space'' : List Char} (parameters ports : List Char) :
      IsSpace space → IsSpace space' → IsSpace space'' →
      Header ('#' :: (space ++ '(' :: (parameters ++ ')' ::
        (space' ++ '(' :: (ports ++ ')' :: (space'' ++ [';']))))))

/-- The text goes on with `;`. -/
def EndFollows (text : List Char) : Prop :=
  ∃ space rest, IsSpace space ∧ text = space ++ ';' :: rest

/-- The text goes on with `;`, or with a list and `;`. -/
def PortsFollow (text : List Char) : Prop :=
  EndFollows text ∨
    ∃ space ports after, IsSpace space ∧ text = space ++ '(' :: (ports ++ ')' :: after) ∧
      EndFollows after

/-- Behind the `)` that closes a list the text goes on as it has to, and behind no earlier
`)` it does. -/
structure ClosesFirst (follows : List Char → Prop) (list after : List Char) : Prop where
  ends : follows after
  first : ∀ front back, list = front ++ ')' :: back → ¬ follows (back ++ ')' :: after)

/-- The port list of a header and what is behind the header. -/
inductive PortsTaken : (text ports behind : List Char) → Prop
  | none {space behind : List Char} :
      IsSpace space → PortsTaken (space ++ ';' :: behind) [] behind
  | list {space ports space' behind : List Char} :
      IsSpace space → IsSpace space' → ClosesFirst EndFollows ports (space' ++ ';' :: behind) →
      PortsTaken (space ++ '(' :: (ports ++ ')' :: (space' ++ ';' :: behind))) ports behind

/-- The lists of a header and what is behind the header. -/
inductive HeaderTaken : (text parameters ports behind : List Char) → Prop
  | ports {text ports behind : List Char} :
      PortsTaken text ports behind → HeaderTaken text [] ports behind
  | parameters {space space' parameters after ports behind : List Char} :
      IsSpace space → IsSpace space' → ClosesFirst PortsFollow parameters after →
      PortsTaken after ports behind →
      HeaderTaken (space ++ '#' :: (space' ++ '(' :: (parameters ++ ')' :: after)))
        parameters ports behind

section Readers

variable {text list ports parameters rest : List Char}

theorem semicolon?_iff :
    semicolon? text = some rest ↔ ∃ space, IsSpace space ∧ text = space ++ ';' :: rest := by
  rw [semicolon?_eq_some_iff, dropSpace_eq_cons_iff (by decide)]

theorem semicolon?_eq_none_iff : semicolon? text = none ↔ ¬ EndFollows text := by
  rw [Option.eq_none_iff_forall_ne_some, EndFollows]
  constructor
  · rintro h ⟨space, rest, hspace, htext⟩
    exact h rest (semicolon?_iff.mpr ⟨space, hspace, htext⟩)
  · intro h rest hrest
    obtain ⟨space, hspace, htext⟩ := semicolon?_iff.mp hrest
    exact h ⟨space, rest, hspace, htext⟩

/-- A group ends where the text goes on in a way that the tail can read. -/
theorem group?_iff {α : Type} {tail? : List Char → Option α} {follows : List Char → Prop}
    (hfollows : ∀ text, tail? text = none ↔ ¬ follows text) {value : α} :
    group? tail? text = some (list, value) ↔
      ∃ after, text = list ++ ')' :: after ∧ tail? after = some value ∧
        ClosesFirst follows list after := by
  simp only [group?_eq_some_iff, hfollows]
  constructor
  · rintro ⟨after, htext, hvalue, hfirst⟩
    have hafter : follows after := by
      by_contra hnot
      rw [(hfollows after).mpr hnot] at hvalue
      contradiction
    exact ⟨after, htext, hvalue, hafter, hfirst⟩
  · rintro ⟨after, htext, hvalue, hcloses⟩
    exact ⟨after, htext, hvalue, hcloses.first⟩

theorem ports?_iff : ports? text = some (ports, rest) ↔ PortsTaken text ports rest := by
  rw [ports?_eq_some_iff, dropSpace_eq_cons_iff (by decide)]
  constructor
  · rintro (⟨rfl, space, hspace, rfl⟩ | ⟨inside, hopen, hgroup⟩)
    · exact .none hspace
    · obtain ⟨space, hspace, rfl⟩ := (dropSpace_eq_cons_iff (by decide)).mp hopen
      obtain ⟨after, rfl, hend, hcloses⟩ := (group?_iff fun _ => semicolon?_eq_none_iff).mp hgroup
      obtain ⟨space', hspace', rfl⟩ := semicolon?_iff.mp hend
      exact .list hspace hspace' hcloses
  · intro h
    cases h with
    | none hspace => exact .inl ⟨rfl, _, hspace, rfl⟩
    | list hspace hspace' hcloses =>
        refine .inr ⟨_, hspace.dropSpace_append_cons (by decide) _, ?_⟩
        exact (group?_iff fun _ => semicolon?_eq_none_iff).mpr
          ⟨_, rfl, semicolon?_iff.mpr ⟨_, hspace', rfl⟩, hcloses⟩

/-- A group closes at some `)` if it can be closed at one. -/
theorem exists_group? {α : Type} {tail? : List Char → Option α} {after : List Char} {value : α}
    (h : tail? after = some value) (front : List Char) :
    ∃ list after' value', group? tail? (front ++ ')' :: after) = some (list, value') ∧
      tail? after' = some value' ∧
        (after' = after ∧ value' = value ∨ ∃ back, after' = back ++ ')' :: after) := by
  induction front with
  | nil => exact ⟨[], after, value, group?_cons_of_some h, h, .inl ⟨rfl, rfl⟩⟩
  | cons c front ih =>
      by_cases hclose : c = ')' → tail? (front ++ ')' :: after) = none
      · obtain ⟨list, after', value', hgroup, hvalue, hafter⟩ := ih
        refine ⟨c :: list, after', value', ?_, hvalue, hafter⟩
        rw [List.cons_append, group?_cons_of_none hclose, hgroup]
        rfl
      · obtain ⟨rfl, hsome⟩ := Classical.not_imp.mp hclose
        obtain ⟨value', hvalue⟩ := Option.ne_none_iff_exists'.mp hsome
        exact ⟨[], _, value', group?_cons_of_some hvalue, hvalue, .inr ⟨front, rfl⟩⟩

theorem ports?_eq_none_iff : ports? text = none ↔ ¬ PortsFollow text := by
  rw [Option.eq_none_iff_forall_ne_some]
  constructor
  · rintro h (⟨space, rest, hspace, htext⟩ | ⟨space, front, after, hspace, rfl, hend⟩)
    · exact h ([], rest) (ports?_iff.mpr (htext ▸ .none hspace))
    · obtain ⟨space', rest, hspace', hafter⟩ := hend
      have hend := semicolon?_iff.mpr ⟨space', hspace', hafter⟩
      obtain ⟨ports, _, rest', hgroup, _⟩ := exists_group? hend front
      exact h (ports, rest') (ports?_eq_some_iff.mpr
        (.inr ⟨_, hspace.dropSpace_append_cons (by decide) _, hgroup⟩))
  · rintro h ⟨ports, rest⟩ hsome
    apply h
    cases ports?_iff.mp hsome with
    | none hspace => exact .inl ⟨_, _, hspace, rfl⟩
    | list hspace _ hcloses => exact .inr ⟨_, _, _, hspace, rfl, hcloses.ends⟩

theorem header?_iff :
    header? text = some (parameters, ports, rest) ↔ HeaderTaken text parameters ports rest := by
  rw [header?_eq_some_iff]
  constructor
  · rintro (⟨after, inside, hhash, hopen, hgroup⟩ | ⟨rfl, hports⟩)
    · obtain ⟨space, hspace, rfl⟩ := (dropSpace_eq_cons_iff (by decide)).mp hhash
      obtain ⟨space', hspace', rfl⟩ := (dropSpace_eq_cons_iff (by decide)).mp hopen
      obtain ⟨after, rfl, hports, hcloses⟩ := (group?_iff fun _ => ports?_eq_none_iff).mp hgroup
      exact .parameters hspace hspace' hcloses (ports?_iff.mp hports)
    · exact .ports (ports?_iff.mp hports)
  · intro h
    cases h with
    | ports hports => exact .inr ⟨rfl, ports?_iff.mpr hports⟩
    | parameters hspace hspace' hcloses hports =>
        refine .inl ⟨_, _, hspace.dropSpace_append_cons (by decide) _,
          hspace'.dropSpace_append_cons (by decide) _, ?_⟩
        exact (group?_iff fun _ => ports?_eq_none_iff).mpr
          ⟨_, rfl, ports?_iff.mpr hports, hcloses⟩

end Readers

section Exchange

variable {after ports rest : List Char}

theorem suffix_append_close (inner : List Char) (h : rest <:+ after) :
    rest <:+ inner ++ ')' :: after :=
  h.trans ((List.suffix_cons _ _).trans (List.suffix_append _ _))

/-- A list that can be closed in front of `;` is closed there or before, and leaves no less. -/
theorem exists_group?_semicolon? (h : semicolon? after = some rest) (front : List Char) :
    ∃ list rest', group? semicolon? (front ++ ')' :: after) = some (list, rest') ∧
      rest <:+ rest' := by
  obtain ⟨list, after', rest', hgroup, hend, ⟨_, rfl⟩ | ⟨back, rfl⟩⟩ := exists_group? h front
  · exact ⟨list, rest', hgroup, List.suffix_rfl⟩
  · obtain ⟨inner, _, rfl⟩ := exists_of_dropSpace_append_eq_cons (by decide) (by decide)
      (semicolon?_eq_some_iff.mp hend)
    exact ⟨list, _, hgroup, suffix_append_close inner (semicolon?_suffix h)⟩

/-- A list that runs on into a header is closed at the latest where the header's own list is. -/
theorem exists_group?_of_ports? (h : ports? after = some (ports, rest)) (front : List Char) :
    ∃ list rest', group? semicolon? (front ++ ')' :: after) = some (list, rest') ∧
      rest <:+ rest' := by
  cases ports?_iff.mp h with
  | @none space _ hspace =>
      exact exists_group?_semicolon? (semicolon?_iff.mpr ⟨space, hspace, rfl⟩) front
  | @list space _ space' _ hspace hspace' _ =>
      have hend : semicolon? (space' ++ ';' :: rest) = some rest :=
        semicolon?_iff.mpr ⟨space', hspace', rfl⟩
      have hlist := exists_group?_semicolon? hend (front ++ ')' :: (space ++ '(' :: ports))
      simpa only [List.append_assoc, List.cons_append] using hlist

/-- A parameter list that can be closed in front of the end of a header is closed there or
before, and the header leaves no less. -/
theorem exists_group?_ports? (h : ports? after = some (ports, rest)) (front : List Char) :
    ∃ parameters ports' rest',
      group? ports? (front ++ ')' :: after) = some (parameters, ports', rest') ∧
        rest <:+ rest' := by
  obtain ⟨parameters, after', ⟨ports', rest'⟩, hgroup, hports, ⟨_, heq⟩ | ⟨back, rfl⟩⟩ :=
    exists_group? h front
  · obtain ⟨rfl, rfl⟩ := Prod.mk.inj heq
    exact ⟨parameters, ports', rest', hgroup, List.suffix_rfl⟩
  · refine ⟨parameters, ports', rest', hgroup, ?_⟩
    rcases ports?_eq_some_iff.mp hports with ⟨_, hend⟩ | ⟨inside, hopen, hlist⟩
    · obtain ⟨inner, _, rfl⟩ := exists_of_dropSpace_append_eq_cons (by decide) (by decide) hend
      exact suffix_append_close inner (ports?_suffix h)
    · -- the port list reaches over the `)`, and then ends with the header or before
      obtain ⟨inner, _, rfl⟩ := exists_of_dropSpace_append_eq_cons (by decide) (by decide) hopen
      obtain ⟨list, rest'', hlist', hsuffix⟩ := exists_group?_of_ports? h inner
      obtain ⟨_, rfl⟩ := Prod.mk.inj (Option.some.inj (hlist.symm.trans hlist'))
      exact hsuffix

/-- A port list is read in front of `;`, and leaves no less than what is behind it. -/
theorem exists_ports? {space space' : List Char} (hspace : IsSpace space) (hspace' : IsSpace space')
    (front behind : List Char) :
    ∃ ports rest, ports? (space ++ '(' :: (front ++ ')' :: (space' ++ ';' :: behind))) =
      some (ports, rest) ∧ behind <:+ rest := by
  have hend : semicolon? (space' ++ ';' :: behind) = some behind :=
    semicolon?_iff.mpr ⟨space', hspace', rfl⟩
  obtain ⟨ports, rest, hlist, hsuffix⟩ := exists_group?_semicolon? hend front
  have hopen := hspace.dropSpace_append_cons (c := '(') (by decide)
  exact ⟨ports, rest, ports?_eq_some_iff.mpr (.inr ⟨_, hopen _, hlist⟩), hsuffix⟩

/-- A parameter list is read in front of the end of a header, and leaves no less than that. -/
theorem exists_header? {space space' : List Char} (hspace : IsSpace space)
    (hspace' : IsSpace space') (front : List Char) (h : ports? after = some (ports, rest)) :
    ∃ parameters ports' rest',
      header? (space ++ '#' :: (space' ++ '(' :: (front ++ ')' :: after))) =
        some (parameters, ports', rest') ∧ rest <:+ rest' := by
  obtain ⟨parameters, ports', rest', hgroup, hsuffix⟩ := exists_group?_ports? h front
  have hhash := hspace.dropSpace_append_cons (c := '#') (by decide)
  have hopen := hspace'.dropSpace_append_cons (c := '(') (by decide) (front ++ ')' :: after)
  exact ⟨parameters, ports', rest', header?_eq_some_iff.mpr (.inl ⟨_, _, hhash _, hopen, hgroup⟩),
    hsuffix⟩

/-- Every form of a header is read as some header, and no less is left than behind it. -/
theorem Header.exists_header? {header : List Char} (h : Header header) {space : List Char}
    (hspace : IsSpace space) (behind : List Char) :
    ∃ parameters ports rest,
      header? (space ++ (header ++ behind)) = some (parameters, ports, rest) ∧
        behind <:+ rest := by
  cases h with
  | bare => exact ⟨[], [], behind, header?_iff.mpr (.ports (.none hspace)), List.suffix_rfl⟩
  | ports front hspace' =>
      obtain ⟨ports, rest, hports, hsuffix⟩ := exists_ports? hspace hspace' front behind
      refine ⟨[], ports, rest, header?_eq_some_iff.mpr (.inr ⟨rfl, ?_⟩), hsuffix⟩
      simpa only [List.append_assoc, List.cons_append, List.nil_append] using hports
  | parameters front hspace' hend =>
      have hheader := Region.exists_header? hspace hspace' front
        (ports?_iff.mpr (.none hend : PortsTaken _ [] behind))
      simpa only [List.append_assoc, List.cons_append, List.nil_append] using hheader
  | both front list hspace' hopen hend =>
      obtain ⟨ports, rest, hports, hsuffix⟩ := exists_ports? hopen hend list behind
      obtain ⟨parameters, ports', rest', hheader, hsuffix'⟩ :=
        Region.exists_header? hspace hspace' front hports
      refine ⟨parameters, ports', rest', ?_, hsuffix.trans hsuffix'⟩
      simpa only [List.append_assoc, List.cons_append, List.nil_append] using hheader

end Exchange

section Forms

variable {text : List Char}

/-- A header does not continue the module's name. -/
theorem HeaderTaken.startsInWord {parameters ports behind : List Char}
    (h : HeaderTaken text parameters ports behind) : startsInWord text = false := by
  have hspace : ∀ {space rest : List Char} {c : Char}, IsSpace space → isIdentChar c = false →
      Lexeme.startsInWord (space ++ c :: rest) = false := by
    intro space rest c hspace hc
    cases space with
    | nil => exact hc
    | cons => exact hspace.startsInWord_append (List.cons_ne_nil _ _) _
  cases h with
  | parameters hhash => exact hspace hhash (by decide)
  | ports hports =>
      cases hports with
      | none hend => exact hspace hend (by decide)
      | list hopen => exact hspace hopen (by decide)

/-- The forms that are read are forms of the grammar. -/
theorem HeaderTaken.exists_header {parameters ports behind : List Char}
    (h : HeaderTaken text parameters ports behind) :
    ∃ space header, IsSpace space ∧ Header header ∧ text = space ++ (header ++ behind) := by
  cases h with
  | ports hports =>
      cases hports with
      | @none space _ hend => exact ⟨space, [';'], hend, .bare, rfl⟩
      | @list space _ _ _ hopen hend _ =>
          exact ⟨space, _, hopen, .ports ports hend, by simp⟩
  | @parameters space _ _ _ _ _ hhash hopen _ hports =>
      cases hports with
      | none hend => exact ⟨space, _, hhash, .parameters parameters hopen hend, by simp⟩
      | list hspace hend _ =>
          exact ⟨space, _, hhash, .both parameters ports hopen hspace hend, by simp⟩

/-- A region as it is taken apart. -/
theorem read?_iff {rest : List Char} {region : Region} :
    read? text = some (region, rest) ↔
      ∃ space name header parameters ports body, IsSpace space ∧ space ≠ [] ∧ IsIdent name ∧
        HeaderTaken header parameters ports (body ++ ("endmodule".toList ++ rest)) ∧
        FirstBehind "endmodule".toList body ∧
        text = "module".toList ++ (space ++ (name ++ header)) ∧
        region = {
          name := String.ofList name
          parameters := String.ofList (trim parameters)
          ports := String.ofList (trim ports)
          body := String.ofList body } := by
  constructor
  · intro h
    obtain ⟨afterKeyword, name, afterName, parameters, ports, afterHeader, body, hkeyword, hspace,
      hname, hheader, hbody, hregion⟩ := read?_eq_some_iff.mp h
    obtain ⟨hafter, hident, _⟩ := identifier?_eq_some_iff.mp hname
    obtain ⟨rfl, hfirst⟩ := breakOn?_eq_some_iff.mp hbody
    refine ⟨afterKeyword.takeWhile Char.isWhitespace, name, afterName, parameters, ports, body,
      fun _ => List.mem_takeWhile_imp, ?_, hident, header?_iff.mp hheader, hfirst, ?_, hregion⟩
    · intro hnil
      cases afterKeyword with
      | nil => contradiction
      | cons c tail =>
          have hc : c.isWhitespace = true := hspace
          rw [List.takeWhile_cons_of_pos hc] at hnil
          contradiction
    · rw [(keyword?_eq_some_iff.mp hkeyword).1, ← hafter, dropSpace,
        List.takeWhile_append_dropWhile]
  · rintro ⟨space, name, header, parameters, ports, body, hspace, hne, hident, hheader, hfirst,
      rfl, rfl⟩
    exact read?_of_header? hspace hne hident hheader.startsInWord (header?_iff.mpr hheader) hfirst

/-- A region is read from a text if and only if the text begins with one, for any choice of
parentheses. The name is the one that is there. Each list is what stands, trimmed, in
front of the first `)` behind which the header can go on, and empty where there is no list.
The body is what stands in front of the first `endmodule`, and the rest is what stands
behind it. -/
theorem read?_grammar (text : List Char) :
    ((read? text).isSome ↔
      ∃ space name space' header body rest, IsSpace space ∧ space ≠ [] ∧ IsIdent name ∧
        IsSpace space' ∧ Header header ∧ text = "module".toList ++ (space ++ (name ++
          (space' ++ (header ++ (body ++ ("endmodule".toList ++ rest))))))) ∧
    ∀ region rest, read? text = some (region, rest) ↔
      ∃ space name header parameters ports body, IsSpace space ∧ space ≠ [] ∧ IsIdent name ∧
        HeaderTaken header parameters ports (body ++ ("endmodule".toList ++ rest)) ∧
        FirstBehind "endmodule".toList body ∧
        text = "module".toList ++ (space ++ (name ++ header)) ∧
        region = {
          name := String.ofList name
          parameters := String.ofList (trim parameters)
          ports := String.ofList (trim ports)
          body := String.ofList body } := by
  refine ⟨?_, fun _ _ => read?_iff⟩
  constructor
  · intro h
    obtain ⟨⟨region, rest⟩, hread⟩ := Option.isSome_iff_exists.mp h
    obtain ⟨space, name, afterName, parameters, ports, body, hspace, hne, hident, htaken, _, htext,
      _⟩ := read?_iff.mp hread
    obtain ⟨space', header, hspace', hheader, rfl⟩ := htaken.exists_header
    exact ⟨space, name, space', header, body, rest, hspace, hne, hident, hspace', hheader, htext⟩
  · rintro ⟨space, name, space', header, body, rest, hspace, hne, hident, hspace', hheader, rfl⟩
    obtain ⟨parameters, ports, left, hleft, hsuffix⟩ :=
      hheader.exists_header? hspace' (body ++ ("endmodule".toList ++ rest))
    -- what the header leaves still contains the word at the end of the region
    have hword : "endmodule".toList <:+: left :=
      List.IsInfix.trans ⟨body, rest, by simp⟩ hsuffix.isInfix
    obtain ⟨body', rest', hbody⟩ := exists_breakOn? hword
    obtain ⟨rfl, hfirst⟩ := breakOn?_eq_some_iff.mp hbody
    have htaken := header?_iff.mp hleft
    rw [read?_iff.mpr ⟨space, name, _, parameters, ports, body', hspace, hne, hident, htaken,
      hfirst, rfl, rfl⟩]
    rfl

/-- The list of parameters ends as early as a list of ports can follow it. -/
example :
    (read? "module m #(W = (1)(2)) (a);endmodule".toList).map
        (fun found => (found.1.parameters, found.1.ports)) = some ("W = (1", "2)) (a") := by
  decide +kernel

end Forms

end VerilogOutline.Region
