import Mathlib.Data.List.Basic
import Mathlib.Data.List.TakeWhile
import VerilogOutline.Proofs.Text.Occurrence
import VerilogOutline.Proofs.Text.Piece
import VerilogOutline.Region

/-!
# Regions in a longer text

A region takes up the text from its `module` to its `endmodule`. Where it can be read
from a text, it is read in the same way when more text follows. The search for the
closing parenthesis of a parameter list could in principle stop earlier there, at a
`)` whose port list borrows its end from the text behind. It does not: the end of the
header itself is closer.
-/

namespace VerilogOutline

open Text Lexeme

theorem Lexeme.keyword?_append {word : String} {text rest : List Char}
    (h : keyword? word text = some rest) (hrest : rest ≠ []) (behind : List Char) :
    keyword? word (text ++ behind) = some (rest ++ behind) := by
  obtain ⟨rfl, hbound⟩ := keyword?_eq_some_iff.mp h
  refine keyword?_eq_some_iff.mpr ⟨List.append_assoc .., ?_⟩
  rw [startsInWord, List.head?_append_of_ne_nil _ hrest]
  exact hbound

theorem Lexeme.identifier?_append {text name rest : List Char}
    (h : identifier? text = some (name, rest)) (hrest : rest ≠ []) (behind : List Char) :
    identifier? (text ++ behind) = some (name, rest ++ behind) := by
  cases text with
  | nil => simp [identifier?] at h
  | cons c tail =>
      rw [identifier?] at h
      split at h
      next hstart =>
        obtain ⟨rfl, rfl⟩ : c :: tail.takeWhile isIdentChar = name ∧
            tail.dropWhile isIdentChar = rest := by simpa using h
        have hempty : (tail.dropWhile isIdentChar).isEmpty = false :=
          List.isEmpty_eq_false_iff.mpr hrest
        have hlength : (tail.takeWhile isIdentChar).length ≠ tail.length := by
          intro hall
          have happend := congrArg List.length (List.takeWhile_append_dropWhile (p := isIdentChar)
            (l := tail))
          rw [List.length_append, hall] at happend
          exact hrest (List.length_eq_zero_iff.mp (by omega))
        rw [List.cons_append, identifier?, if_pos hstart, List.takeWhile_append,
          if_neg hlength, List.dropWhile_append, hempty]
        rfl
      next => contradiction

namespace Region

variable {text behind : List Char}

/-- A group is not affected by the text behind if neither success nor failure of its
tail is, as long as the tail is tried in front of a `)` that does close the group. -/
theorem group?_append {α : Type} {tail? : List Char → Option α} {inside : List Char} {value : α}
    (extend : α → α)
    (hsome : ∀ {after value}, tail? after = some value →
      tail? (after ++ behind) = some (extend value))
    (hnone : ∀ {second after value}, tail? after = some value →
      tail? (second ++ ')' :: after) = none → tail? (second ++ ')' :: (after ++ behind)) = none)
    (h : group? tail? text = some (inside, value)) :
    group? tail? (text ++ behind) = some (inside, extend value) := by
  obtain ⟨after, rfl, hvalue, hearlier⟩ := group?_eq_some_iff.mp h
  refine group?_eq_some_iff.mpr ⟨after ++ behind, by simp, hsome hvalue, ?_⟩
  intro first second hsplit
  exact hnone hvalue (hearlier first second hsplit)

theorem semicolon?_append {rest : List Char} (h : semicolon? text = some rest) :
    semicolon? (text ++ behind) = some (rest ++ behind) := by
  have hspace := semicolon?_eq_some_iff.mp h
  apply semicolon?_eq_some_iff.mpr
  rw [dropSpace_append (by simp [hspace]), hspace, List.cons_append]

/-- Whether a `;` follows is settled before the next `)`. -/
theorem semicolon?_eq_none_append {second after : List Char}
    (h : semicolon? (second ++ ')' :: after) = none) :
    semicolon? (second ++ ')' :: (after ++ behind)) = none := by
  rw [Option.eq_none_iff_forall_ne_some] at h ⊢
  intro rest hrest
  have hspace := semicolon?_eq_some_iff.mp hrest
  obtain ⟨front, hfront, _⟩ := exists_of_dropSpace_append_eq_cons (by decide) (by decide) hspace
  refine h (front ++ ')' :: after) (semicolon?_eq_some_iff.mpr ?_)
  rw [dropSpace_append_cons (by decide), hfront, List.cons_append]

theorem ports?_append {ports rest : List Char} (h : ports? text = some (ports, rest)) :
    ports? (text ++ behind) = some (ports, rest ++ behind) := by
  rcases ports?_eq_some_iff.mp h with ⟨hports, hspace⟩ | ⟨inside, hspace, hgroup⟩
  · refine ports?_eq_some_iff.mpr (.inl ⟨hports, ?_⟩)
    rw [dropSpace_append (by simp [hspace]), hspace, List.cons_append]
  · refine ports?_eq_some_iff.mpr (.inr ⟨inside ++ behind, ?_, ?_⟩)
    · rw [dropSpace_append (by simp [hspace]), hspace, List.cons_append]
    · exact group?_append (· ++ behind) semicolon?_append
        (fun _ => semicolon?_eq_none_append) hgroup

/-- If a header ends behind a `)`, then every group begun before has a `)` and `;` to
end with: that of the port list, or that `)` itself. -/
theorem group?_semicolon?_ne_none (front : List Char) {after : List Char}
    {value : List Char × List Char} (h : ports? after = some value) :
    group? semicolon? (front ++ ')' :: after) ≠ none := by
  intro hnone
  have hclose := group?_eq_none_iff.mp hnone
  obtain ⟨ports, rest⟩ := value
  rcases ports?_eq_some_iff.mp h with ⟨_, hspace⟩ | ⟨inside, hspace, hgroup⟩
  · have hsemicolon := hclose front after rfl
    rw [semicolon?_eq_some_iff.mpr hspace] at hsemicolon
    contradiction
  · obtain ⟨last, rfl, hlast, _⟩ := group?_eq_some_iff.mp hgroup
    obtain ⟨space, hafter⟩ := hspace ▸ dropSpace_suffix after
    have hsemicolon := hclose (front ++ ')' :: (space ++ '(' :: ports)) last (by simp [← hafter])
    rw [hlast] at hsemicolon
    contradiction

/-- What the search for the end of a parameter list has passed over stays passed over:
an earlier `)` cannot borrow the end of its port list from the text behind. -/
theorem ports?_eq_none_append {second after : List Char} {value : List Char × List Char}
    (hvalue : ports? after = some value) (h : ports? (second ++ ')' :: after) = none) :
    ports? (second ++ ')' :: (after ++ behind)) = none := by
  rw [Option.eq_none_iff_forall_ne_some] at h ⊢
  rintro ⟨ports, rest⟩ hrest
  have hshort : ∀ {c : Char} {front : List Char}, dropSpace second = c :: front →
      dropSpace (second ++ ')' :: after) = c :: (front ++ ')' :: after) := by
    intro c front hfront
    rw [dropSpace_append_cons (by decide), hfront, List.cons_append]
  rcases ports?_eq_some_iff.mp hrest with ⟨_, hspace⟩ | ⟨inside, hspace, _⟩
  · obtain ⟨front, hfront, _⟩ :=
      exists_of_dropSpace_append_eq_cons (by decide) (by decide) hspace
    exact h _ (ports?_eq_some_iff.mpr (.inl ⟨rfl, hshort hfront⟩))
  · obtain ⟨front, hfront, _⟩ :=
      exists_of_dropSpace_append_eq_cons (by decide) (by decide) hspace
    obtain ⟨⟨inside, last⟩, hgroup⟩ :=
      Option.ne_none_iff_exists'.mp (group?_semicolon?_ne_none front hvalue)
    exact h _ (ports?_eq_some_iff.mpr (.inr ⟨_, hshort hfront, hgroup⟩))

theorem header?_append {parameters ports rest : List Char}
    (h : header? text = some (parameters, ports, rest)) :
    header? (text ++ behind) = some (parameters, ports, rest ++ behind) := by
  rcases header?_eq_some_iff.mp h with ⟨after, inside, hspace, hspace', hgroup⟩ | ⟨hnil, hports⟩
  · refine header?_eq_some_iff.mpr (.inl ⟨after ++ behind, inside ++ behind, ?_, ?_, ?_⟩)
    · rw [dropSpace_append (by simp [hspace]), hspace, List.cons_append]
    · rw [dropSpace_append (by simp [hspace']), hspace', List.cons_append]
    · exact group?_append (fun found => (found.1, found.2 ++ behind)) ports?_append
        ports?_eq_none_append hgroup
  · exact header?_eq_some_iff.mpr (.inr ⟨hnil, ports?_append hports⟩)

/-- A region starts with `module` and ends with `endmodule`. -/
theorem exists_eq_append_of_read? {rest : List Char} {region : Region}
    (h : read? text = some (region, rest)) :
    ∃ inside, text = "module".toList ++ inside ++ "endmodule".toList ++ rest := by
  obtain ⟨afterKeyword, name, afterName, parameters, ports, afterHeader, body, hkeyword, _, hname,
    hheader, hbody, _⟩ := read?_eq_some_iff.mp h
  have hsuffix : afterHeader <:+ afterKeyword :=
    (header?_suffix hheader).trans
      ((eq_append_of_identifier? hname ▸ List.suffix_append _ _).trans
        (dropSpace_suffix afterKeyword))
  obtain ⟨front, hfront⟩ := hsuffix
  refine ⟨front ++ body, ?_⟩
  rw [(keyword?_eq_some_iff.mp hkeyword).1, ← hfront, (breakOn?_eq_some_iff.mp hbody).1]
  simp only [List.append_assoc]

/-- A region is read in the same way whatever follows it. -/
theorem read?_append {region : Region} {rest : List Char}
    (h : read? text = some (region, rest)) (behind : List Char) :
    read? (text ++ behind) = some (region, rest ++ behind) := by
  obtain ⟨afterKeyword, name, afterName, parameters, ports, afterHeader, body, hkeyword, hspace,
    hname, hheader, hbody, hregion⟩ := read?_eq_some_iff.mp h
  have hafterName : afterName ≠ [] := by
    rintro rfl
    simp [header?, ports?, dropSpace] at hheader
  have hafterKeyword : afterKeyword ≠ [] := by
    rintro rfl
    simp at hspace
  have hdrop : dropSpace afterKeyword ≠ [] := by
    intro hnil
    simp [hnil, identifier?] at hname
  refine read?_eq_some_iff.mpr ⟨afterKeyword ++ behind, name, afterName ++ behind, parameters,
    ports, afterHeader ++ behind, body, keyword?_append hkeyword hafterKeyword behind, ?_, ?_,
    header?_append hheader, breakOn?_append hbody behind, hregion⟩
  · rwa [List.head?_append_of_ne_nil _ hafterKeyword]
  · rw [dropSpace_append hdrop]
    exact identifier?_append hname hafterName behind

end Region

end VerilogOutline
