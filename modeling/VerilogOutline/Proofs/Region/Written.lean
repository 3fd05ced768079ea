import VerilogOutline.Proofs.Text.Occurrence
import VerilogOutline.Proofs.Text.Word
import VerilogOutline.Region

/-!
# Regions as written

A region with both of its lists is taken apart where it was put together. A list may
hold parentheses, as long as none of them looks like the end of the list.
-/

namespace VerilogOutline

open Text Lexeme

namespace Region

/-- Behind no `)` of the text, and the space there, does one of the characters stand. -/
def Unclosed (ends text : List Char) : Prop :=
  ∀ first second, text = first ++ ')' :: second → ∀ c ∈ ends, (dropSpace second).head? ≠ some c

theorem unclosed_iff {ends text : List Char} :
    Unclosed ends text ↔ ∀ n < text.length, text[n]? = some ')' →
      ends.all fun c => (dropSpace (text.drop (n + 1))).head? ≠ some c := by
  simp only [List.all_eq_true, decide_eq_true_eq]
  constructor
  · intro h n hn hclose
    refine h (text.take n) _ ?_
    obtain ⟨_, hclose⟩ := List.getElem?_eq_some_iff.mp hclose
    rw [← hclose, List.getElem_cons_drop, List.take_append_drop]
  · intro h first second hsplit
    have hclose := h first.length (by simp [hsplit]) (by simp [hsplit])
    simpa [hsplit] using hclose

instance (ends : List Char) : DecidablePred (Unclosed ends) :=
  fun _ => decidable_of_iff _ unclosed_iff.symm

/-- Nor does one when the list is closed and the text goes on. -/
theorem Unclosed.dropSpace_ne {ends first second : List Char}
    (h : Unclosed ends (first ++ ')' :: second)) {c : Char} (hc : c ∈ ends) (hne : c ≠ ')')
    (after rest : List Char) : dropSpace (second ++ ')' :: after) ≠ c :: rest := by
  intro heq
  obtain ⟨inner, hsecond, _⟩ := exists_of_dropSpace_append_eq_cons (by decide) hne heq
  exact h first second rfl c hc (by rw [hsecond]; rfl)

variable {parameters ports : List Char}

theorem group?_semicolon?_written (hports : Unclosed [';'] ports) (rest : List Char) :
    group? semicolon? (ports ++ ')' :: ';' :: rest) = some (ports, rest) := by
  have hend : semicolon? (';' :: rest) = some rest := rfl
  apply group?_append_close hend
  intro first second hsplit
  rw [hsplit] at hports
  rw [Option.eq_none_iff_forall_ne_some]
  intro value hvalue
  exact hports.dropSpace_ne List.mem_cons_self (by decide) _ _ (semicolon?_eq_some_iff.mp hvalue)

theorem ports?_written (hports : Unclosed [';'] ports) {space : List Char} (hspace : IsSpace space)
    (rest : List Char) :
    ports? (space ++ '(' :: (ports ++ ')' :: ';' :: rest)) = some (ports, rest) := by
  refine ports?_eq_some_iff.mpr (.inr ⟨_, ?_, group?_semicolon?_written hports rest⟩)
  rw [hspace.dropSpace_append]
  rfl

theorem group?_ports?_written (hparameters : Unclosed [';', '('] parameters) {after rest : List Char}
    (hafter : ports? after = some (ports, rest)) :
    group? ports? (parameters ++ ')' :: after) = some (parameters, ports, rest) := by
  apply group?_append_close hafter
  intro first second hsplit
  rw [hsplit] at hparameters
  rw [Option.eq_none_iff_forall_ne_some]
  rintro ⟨_, _⟩ hvalue
  rcases ports?_eq_some_iff.mp hvalue with ⟨_, hspace⟩ | ⟨_, hspace, _⟩
  · exact hparameters.dropSpace_ne (by decide) (by decide) _ _ hspace
  · exact hparameters.dropSpace_ne (by decide) (by decide) _ _ hspace

theorem header?_written (hparameters : Unclosed [';', '('] parameters) {space : List Char}
    (hspace : IsSpace space) {after rest : List Char} (hafter : ports? after = some (ports, rest)) :
    header? (space ++ '#' :: '(' :: (parameters ++ ')' :: after)) =
      some (parameters, ports, rest) := by
  refine header?_eq_some_iff.mpr (.inl ⟨'(' :: (parameters ++ ')' :: after), _, ?_, rfl, ?_⟩)
  · rw [hspace.dropSpace_append]
    rfl
  · exact group?_ports?_written hparameters hafter

theorem read?_of_header? {space name afterName body rest : List Char} (hspace : IsSpace space)
    (hne : space ≠ []) (hname : IsIdent name) (hbound : startsInWord afterName = false)
    (hheader : header? afterName = some (parameters, ports, body ++ ("endmodule".toList ++ rest)))
    (hbody : FirstBehind "endmodule".toList body) :
    read? ("module".toList ++ (space ++ (name ++ afterName))) =
      some ({ name := String.ofList name
              parameters := String.ofList (trim parameters)
              ports := String.ofList (trim ports)
              body := String.ofList body }, rest) := by
  refine read?_eq_some_iff.mpr ⟨space ++ (name ++ afterName), name, afterName, parameters, ports,
    _, body, keyword?_word _ (hspace.startsInWord_append hne _), ?_, ?_, hheader,
    breakOn?_eq_some_iff.mpr ⟨rfl, hbody⟩, rfl⟩
  · obtain ⟨c, tail, rfl⟩ := List.exists_cons_of_ne_nil hne
    exact hspace c List.mem_cons_self
  · rw [hspace.dropSpace_append, (hname.solid.startsSolid.append _).dropSpace_eq_self]
    exact identifier?_word hname hbound

/-- The words of a header with the texts of its two lists. -/
def headerWords (name parameters ports : List Char) : List (List Char) :=
  ["module".toList, name, '#' :: '(' :: (parameters ++ [')']), '(' :: (ports ++ [')', ';'])]

/-- A region is read from its header, its body and the word at its end. -/
theorem read?_written {name header body : List Char} (hname : IsIdent name)
    (hparameters : Unclosed [';', '('] parameters) (hports : Unclosed [';'] ports)
    (hheader : Spaced (headerWords name parameters ports) header)
    (hbody : FirstBehind "endmodule".toList body) (rest : List Char) :
    read? (header ++ (body ++ ("endmodule".toList ++ rest))) =
      some ({ name := String.ofList name
              parameters := String.ofList (trim parameters)
              ports := String.ofList (trim ports)
              body := String.ofList body }, rest) := by
  -- space lies behind the keyword, behind the name and between the lists
  obtain ⟨space, _, rfl, hne, hspace, hheader⟩ := hheader.tail (List.cons_ne_nil _ _)
  obtain ⟨space', _, rfl, hne', hspace', hheader⟩ := hheader.tail (List.cons_ne_nil _ _)
  obtain ⟨space'', _, rfl, _, hspace'', hheader⟩ := hheader.tail (List.cons_ne_nil _ _)
  obtain rfl := hheader.eq_of_single
  have hlists := header?_written hparameters hspace'
    (ports?_written hports hspace'' (body ++ ("endmodule".toList ++ rest)))
  have hread := read?_of_header? hspace hne hname (hspace'.startsInWord_append hne' _) hlists hbody
  simpa only [List.append_assoc, List.cons_append, List.nil_append] using hread

end Region

end VerilogOutline
