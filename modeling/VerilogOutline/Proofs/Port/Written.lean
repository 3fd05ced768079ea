import Mathlib.Data.List.Forall2
import VerilogOutline.Port.List
import VerilogOutline.Proofs.Port.Grammar

/-!
# Port lists as written

A list of declarations that is written entry by entry is read back as it was, as no name
in it is a keyword and no range holds a comma.
-/

namespace VerilogOutline

open Text Lexeme

namespace Declaration

/-- The name can be told from a keyword, and the range ends where it seems to. -/
structure Plain (decl : Declaration) : Prop where
  name_ident : IsIdent decl.name.toList
  name_free : decl.name ∉ reserved
  range_bracketed : ∀ range ∈ decl.range, IsRange range.toList

instance : DecidablePred Plain := fun decl =>
  decidable_of_iff
    (IsIdent decl.name.toList ∧ decl.name ∉ reserved ∧ ∀ range ∈ decl.range, IsRange range.toList)
    ⟨fun ⟨h₁, h₂, h₃⟩ => ⟨h₁, h₂, h₃⟩, fun ⟨h₁, h₂, h₃⟩ => ⟨h₁, h₂, h₃⟩⟩

namespace Plain

variable {decl : Declaration} (h : decl.Plain)

include h

theorem bracketed : ∀ range ∈ decl.range, IsBracketed range.toList :=
  fun range hr => (isRange_iff.mp (h.range_bracketed range hr)).1

theorem solid {word : List Char} (hword : word ∈ decl.words) : Solid word :=
  (isToken_of_mem_words h.name_ident h.bracketed hword).solid

theorem no_comma {word : List Char} (hword : word ∈ decl.words) : ',' ∉ word := by
  rcases isIdent_or_range_of_mem_words h.name_ident hword with hident | ⟨range, hr, rfl⟩
  · exact hident.not_mem (by decide)
  · exact (isRange_iff.mp (h.range_bracketed range hr)).2

/-- The words of a declaration are read as the declaration. -/
theorem read_spaced {text : List Char} (hspaced : Spaced decl.words text) :
    read text = .ok (decl, []) :=
  read_iff.mpr ⟨readable_of_not_mem_reserved h.name_ident h.name_free h.bracketed, [],
    hspaced.laid, rfl⟩

end Plain

end Declaration

namespace PortList

@[simp] theorem ports_map_port (ports : List Port) :
    PortList.ports { entries := ports.map (PortEntry.port · "") } = ports := by
  simp [PortList.ports, List.filterMap_map, Function.comp_def, PortEntry.port?]

@[simp] theorem skipped_map_port (ports : List Port) :
    PortList.skipped { entries := ports.map (PortEntry.port · "") } = 0 := by
  simp [skipped, List.countP_map, Function.comp_def, PortEntry.isUnreadable]

variable {decls : List Declaration}

theorem readEntries_map_trim (hplain : ∀ decl ∈ decls, decl.Plain) {texts : List (List Char)}
    (h : List.Forall₂ Entry (decls.map Declaration.words) texts) (carried : Attributes) :
    readEntries carried (texts.map trim) =
      (Port.ofDeclarations carried decls).map (PortEntry.port · "") := by
  rw [List.forall₂_map_left_iff] at h
  induction h generalizing carried with
  | nil => rfl
  | @cons decl text decls texts hentry _ ih =>
      have hdecl := hplain decl List.mem_cons_self
      have hread := hdecl.read_spaced (hentry.spaced_trim fun _ => hdecl.solid)
      have hlater := ih fun decl hd => hplain decl (List.mem_cons_of_mem _ hd)
      rw [List.map_cons, readEntries, hread]
      simp [Port.ofDeclarations, hlater]

/-- A port list that is written entry by entry is read as the ports of the declarations. -/
theorem read_listed (hplain : ∀ decl ∈ decls, decl.Plain) {text : List Char}
    (h : Listed (decls.map Declaration.words) text) :
    read (trim text) =
      { entries := (Port.ofDeclarations {} decls).map (PortEntry.port · "") } := by
  obtain ⟨texts, hentries, hpieces⟩ := h.exists_pieces
    (by
      intro words hwords word hword
      obtain ⟨decl, hd, rfl⟩ := List.mem_map.mp hwords
      exact (hplain decl hd).no_comma hword)
    (by
      intro words hwords text hentry
      obtain ⟨decl, hd, rfl⟩ := List.mem_map.mp hwords
      have hspaced := hentry.spaced_trim fun _ => (hplain decl hd).solid
      exact (hspaced.solid fun _ => (hplain decl hd).solid).ne_nil)
  have htexts : entryTexts (trim text) = texts.map trim := by
    rw [← hpieces, ← pieces_trim]
    rfl
  rw [read, htexts, readEntries_map_trim hplain hentries]

end PortList

end VerilogOutline
