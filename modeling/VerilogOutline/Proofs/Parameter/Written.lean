import Mathlib.Data.List.Forall2
import VerilogOutline.Module
import VerilogOutline.Proofs.Text.Layout
import VerilogOutline.Proofs.Text.Piece

/-!
# Parameter lists as written

A list of parameters that is written entry by entry is read back as it was. Only the
first `=` of an entry counts, so the value may hold more of them.
-/

namespace VerilogOutline

open Text Lexeme

namespace Parameter

/-- The words of the entry that declares a parameter. -/
def words (parameter : Parameter) : List (List Char) :=
  ["parameter".toList, parameter.name.toList, ['='], parameter.value.toList]

/-- Name and value can be told from what stands around them. -/
structure Plain (parameter : Parameter) : Prop where
  name_trimmed : Trimmed parameter.name.toList
  value_trimmed : Trimmed parameter.value.toList
  name_comma : ',' ∉ parameter.name.toList
  value_comma : ',' ∉ parameter.value.toList
  name_equals : '=' ∉ parameter.name.toList

instance : DecidablePred Plain := fun parameter =>
  decidable_of_iff
    ((Trimmed parameter.name.toList ∧ Trimmed parameter.value.toList) ∧
      (',' ∉ parameter.name.toList ∧ ',' ∉ parameter.value.toList) ∧ '=' ∉ parameter.name.toList)
    ⟨fun ⟨⟨h₁, h₂⟩, ⟨h₃, h₄⟩, h₅⟩ => ⟨h₁, h₂, h₃, h₄, h₅⟩,
      fun ⟨h₁, h₂, h₃, h₄, h₅⟩ => ⟨⟨h₁, h₂⟩, ⟨h₃, h₄⟩, h₅⟩⟩

/-- Pieces that are empty need not be dropped before the keyword is. -/
theorem entries_eq (text : List Char) :
    entries text =
      ((pieces text).map withoutKeyword).filter fun entry => !(trim entry).isEmpty := by
  have hentries : entries text =
      (((text.splitOn ',').map trim).map withoutKeyword).filter
        fun entry => !(trim entry).isEmpty := by
    rw [List.map_map]
    rfl
  rw [hentries, pieces, List.filter_map (f := withoutKeyword),
    List.filter_map (f := withoutKeyword), List.filter_filter]
  congr 1
  apply List.filter_congr
  intro entry _
  cases entry with
  | nil => rfl
  | cons => exact (Bool.and_true _).symm

variable {parameter : Parameter}

theorem Plain.no_comma (h : parameter.Plain) : ∀ word ∈ parameter.words, ',' ∉ word := by
  intro word hword
  simp only [words, List.mem_cons, List.not_mem_nil, or_false] at hword
  rcases hword with rfl | rfl | rfl | rfl
  · decide
  · exact h.name_comma
  · decide
  · exact h.value_comma

/-- An entry as trimmed: the name lies between the keyword and the first `=`, with space
around it, and the value behind, with blank characters around it. -/
theorem Plain.exists_trim_eq (h : parameter.Plain) {text : List Char}
    (hentry : Entry parameter.words text) :
    ∃ front tail, trim text = "parameter".toList ++ (front ++ '=' :: tail) ∧
      startsInWord front = false ∧ '=' ∉ front ∧ trim front = parameter.name.toList ∧
      trim tail = parameter.value.toList := by
  obtain ⟨lead, _, trail, rfl, hlead, htrail, hspaced⟩ := hentry
  -- the keyword, the name and the `=`, each with the space behind it, and then the value
  obtain ⟨space, _, rfl, hne, hspace, hspaced⟩ := hspaced.tail (List.cons_ne_nil _ _)
  obtain ⟨space', _, rfl, _, hspace', hspaced⟩ := hspaced.tail (List.cons_ne_nil _ _)
  obtain ⟨space'', _, rfl, _, hspace'', hspaced⟩ := hspaced.tail (List.cons_ne_nil _ _)
  obtain rfl := hspaced.eq_of_single
  have hsolid : StartsSolid ("parameter".toList ++ (space ++ (parameter.name.toList ++ space'))) :=
    ⟨'p', _, rfl, by decide⟩
  obtain ⟨tail, htrim, htail⟩ := exists_trim_append_cons hsolid (c := '=') (by decide)
    (space'' ++ (parameter.value.toList ++ trail))
  refine ⟨space ++ (parameter.name.toList ++ space'), tail, ?_, ?_, ?_, ?_, ?_⟩
  · rw [trim_append_left hlead.blank]
    simpa using htrim
  · exact hspace.startsInWord_append hne _
  · simp only [List.mem_append, not_or]
    exact ⟨hspace.not_mem (by decide), h.name_equals, hspace'.not_mem (by decide)⟩
  · rw [trim_append_left hspace.blank, trim_append_right hspace'.blank,
      h.name_trimmed.trim_eq_self]
  · rw [htail, trim_append_left hspace''.blank, trim_append_right htrail.blank,
      h.value_trimmed.trim_eq_self]

/-- Without its keyword the entry is read as the parameter. -/
theorem Plain.read_entry (h : parameter.Plain) {text : List Char}
    (hentry : Entry parameter.words text) :
    read (withoutKeyword (trim text)) = .ok parameter ∧
      trim (withoutKeyword (trim text)) ≠ [] := by
  obtain ⟨front, tail, htrim, hbound, hequals, hname, hvalue⟩ := h.exists_trim_eq hentry
  have hkeyword : keyword? "parameter" (trim text) = some (front ++ '=' :: tail) := by
    refine keyword?_eq_some_iff.mpr ⟨htrim, ?_⟩
    cases front with
    | nil => rfl
    | cons => exact hbound
  have hentry : withoutKeyword (trim text) = dropSpace front ++ '=' :: tail := by
    rw [withoutKeyword, hkeyword]
    exact dropSpace_append_cons (by decide) front tail
  have hfirst : '=' ∉ dropSpace front := fun hmem => hequals ((dropSpace_suffix front).subset hmem)
  rw [hentry]
  constructor
  · rw [read, cutFirst?_append hfirst]
    simp [trim_dropSpace, hname, hvalue]
  · exact trim_ne_nil (c := '=') (by simp) (by decide)

/-- A list is read entry by entry. -/
theorem mapM_read_eq_ok_iff {entries : List (List Char)} {parameters : List Parameter} :
    entries.mapM read = .ok parameters ↔
      List.Forall₂ (fun entry parameter => read entry = .ok parameter) entries parameters := by
  induction entries generalizing parameters with
  | nil => cases parameters <;> simp [pure, Except.pure]
  | cons entry entries ih =>
      rw [List.mapM_cons, List.forall₂_cons_left_iff]
      cases hread : read entry with
      | error complaint => simp [bind, Except.bind]
      | ok first =>
          cases hlater : entries.mapM read with
          | error complaint => simp [bind, Except.bind, ← ih, hlater]
          | ok later =>
              simp only [bind, Except.bind, pure, Except.pure, Except.ok.injEq, ← ih, hlater,
                exists_eq_left', ↓existsAndEq, true_and]
              exact eq_comm

theorem mapM_read_entries {parameters : List Parameter} {texts : List (List Char)}
    (hplain : ∀ parameter ∈ parameters, parameter.Plain)
    (h : List.Forall₂ Entry (parameters.map words) texts) :
    (((texts.map trim).map withoutKeyword).filter fun entry => !(trim entry).isEmpty).mapM read =
      .ok parameters := by
  rw [List.forall₂_map_left_iff] at h
  rw [mapM_read_eq_ok_iff]
  induction h with
  | nil => exact .nil
  | cons hentry _ ih =>
      obtain ⟨hread, hne⟩ := (hplain _ List.mem_cons_self).read_entry hentry
      have hlater := ih fun parameter hp => hplain parameter (List.mem_cons_of_mem _ hp)
      rw [List.map_cons, List.map_cons, List.filter_cons_of_pos (by simpa using hne)]
      exact .cons hread hlater

/-- A parameter list that is written entry by entry is read as the parameters. -/
theorem readList_listed {parameters : List Parameter} {text : List Char}
    (hplain : ∀ parameter ∈ parameters, parameter.Plain)
    (h : Listed (parameters.map words) text) :
    readList (trim text) = .ok parameters := by
  obtain ⟨texts, hentries, hpieces⟩ := h.exists_pieces
    (by
      intro words hwords
      obtain ⟨parameter, hp, rfl⟩ := List.mem_map.mp hwords
      exact (hplain parameter hp).no_comma)
    (by
      intro words hwords text hentry hnil
      obtain ⟨parameter, hp, rfl⟩ := List.mem_map.mp hwords
      obtain ⟨_, _, htrim, _⟩ := (hplain parameter hp).exists_trim_eq hentry
      rw [hnil] at htrim
      contradiction)
  rw [readList, entries_eq, pieces_trim, hpieces]
  exact mapM_read_entries hplain hentries

end Parameter

end VerilogOutline
