import VerilogOutline.Proofs.Parameter.Written
import VerilogOutline.Proofs.Text.Piece

/-!
# Parameter lists that are read and written

What becomes of each text between two commas of a parameter list, and which of them is
complained about. Parameters that are written as a list are read back as they were, and
all parameters that are read can be written.
-/

namespace VerilogOutline

open Text Lexeme

namespace Parameter

/-- What stands between the commas of a parameter list, without blank ends and without the
keyword. Blank ones are among them. -/
def segments (text : List Char) : List (List Char) :=
  (text.splitOn ',').map fun piece => withoutKeyword (trim piece)

/-- What is left of a text without its blank ends and without the keyword `parameter`, which
is dropped once if it does not go on as a longer word. -/
inductive Strips (piece : List Char) : List Char → Prop
  | keyword {behind : List Char} :
      trim piece = "parameter".toList ++ behind → startsInWord behind = false →
      Strips piece (dropSpace behind)
  | bare :
      (∀ behind, trim piece = "parameter".toList ++ behind → startsInWord behind = true) →
      Strips piece (trim piece)

/-- There is something in the segment, but no `=`. -/
def lacksValue (segment : List Char) : Bool :=
  trim segment != [] && !segment.contains '='

/-- The segment has the name in front of its first `=` and the value behind. -/
def Declares (segment : List Char) (parameter : Parameter) : Prop :=
  ∃ name value, segment = name ++ '=' :: value ∧ '=' ∉ name ∧
    parameter = { name := String.ofList (trim name), value := String.ofList (trim value) }

/-- The declaration of a parameter. -/
def written (parameter : Parameter) : List Char :=
  "parameter".toList ++
    ' ' :: (parameter.name.toList ++ ' ' :: '=' :: ' ' :: parameter.value.toList)

/-- The list that declares parameters one by one. -/
def writeList (parameters : List Parameter) : List Char :=
  [','].intercalate (parameters.map written)

section Read

theorem strips_withoutKeyword (piece : List Char) :
    Strips piece (withoutKeyword (trim piece)) := by
  unfold withoutKeyword
  split
  next behind hkeyword =>
    obtain ⟨htrim, hbound⟩ := keyword?_eq_some_iff.mp hkeyword
    exact .keyword htrim hbound
  next hnone =>
    refine .bare fun behind htrim => ?_
    by_contra hbound
    have hkeyword := keyword?_eq_some_iff.mpr ⟨htrim, Bool.eq_false_iff.mpr hbound⟩
    rw [hnone] at hkeyword
    contradiction

theorem forall₂_strips (text : List Char) :
    List.Forall₂ Strips (text.splitOn ',') (segments text) := by
  rw [segments, List.forall₂_map_right_iff, List.forall₂_same]
  exact fun piece _ => strips_withoutKeyword piece

theorem withoutKeyword_suffix (entry : List Char) : withoutKeyword entry <:+ entry := by
  unfold withoutKeyword
  split
  next behind hkeyword => exact (dropSpace_suffix behind).trans (keyword?_suffix hkeyword)
  next => exact List.suffix_rfl

theorem comma_not_mem_segment {text : List Char} :
    ∀ segment ∈ segments text, ',' ∉ segment := by
  intro segment hsegment
  obtain ⟨piece, hpiece, rfl⟩ := List.mem_map.mp hsegment
  have hinside := (withoutKeyword_suffix (trim piece)).isInfix.trans (trim_isInfix piece)
  exact fun hmem => not_mem_of_mem_splitOn piece hpiece (hinside.subset hmem)

theorem readList_eq (text : List Char) :
    readList text = ((segments text).filter (trim · != [])).mapM read := by
  rw [readList, entries, segments]
  congr 2
  funext entry
  cases trim entry <;> rfl

theorem read_eq_ok_iff {segment : List Char} {parameter : Parameter} :
    read segment = .ok parameter ↔ Declares segment parameter := by
  simp only [Declares, ← and_assoc, ← cutFirst?_eq_some_iff]
  rw [read]
  cases cutFirst? '=' segment with
  | none => simp
  | some found => simp [Prod.ext_iff, eq_comm]

theorem read_eq_error_iff {segment : List Char} {complaint : MissingValue} :
    read segment = .error complaint ↔
      '=' ∉ segment ∧ complaint = { segment := String.ofList (trim segment) } := by
  rw [← cutFirst?_eq_none_iff, read]
  cases cutFirst? '=' segment with
  | none => simp [eq_comm]
  | some found => simp

/-- The complaint is about the first entry without a value. -/
theorem mapM_read_eq_error_iff {entries : List (List Char)} {complaint : MissingValue} :
    entries.mapM read = .error complaint ↔
      ∃ entry, entries.find? (fun entry => !entry.contains '=') = some entry ∧
        complaint = { segment := String.ofList (trim entry) } := by
  induction entries with
  | nil => simp [pure, Except.pure]
  | cons entry entries ih =>
      rw [List.mapM_cons, List.find?_cons]
      cases hread : read entry with
      | error found =>
          obtain ⟨hequals, rfl⟩ := read_eq_error_iff.mp hread
          simp [bind, Except.bind, hequals, eq_comm]
      | ok parameter =>
          obtain ⟨name, value, rfl, _⟩ := read_eq_ok_iff.mp hread
          have hequals : (name ++ '=' :: value).contains '=' = true := by simp
          rw [hequals, Bool.not_true, ← ih]
          cases entries.mapM read <;> simp [bind, Except.bind, pure, Except.pure]

theorem readList_eq_error_iff {text : List Char} {complaint : MissingValue} :
    readList text = .error complaint ↔
      ∃ segment, (segments text).find? lacksValue = some segment ∧
        complaint = { segment := String.ofList (trim segment) } := by
  rw [readList_eq, mapM_read_eq_error_iff, List.find?_filter]
  simp only [Bool.decide_and, Bool.decide_eq_true]
  rfl

theorem readList_eq_ok_iff {text : List Char} {parameters : List Parameter} :
    readList text = .ok parameters ↔
      List.Forall₂ Declares ((segments text).filter (trim · != [])) parameters := by
  simp only [readList_eq, mapM_read_eq_ok_iff, read_eq_ok_iff]

theorem Declares.plain {segment : List Char} {parameter : Parameter}
    (h : Declares segment parameter) (hcomma : ',' ∉ segment) : parameter.Plain := by
  obtain ⟨name, value, rfl, hequals, rfl⟩ := h
  simp only [List.mem_append, List.mem_cons, not_or] at hcomma
  have hname := (trim_isInfix name).subset
  have hvalue := (trim_isInfix value).subset
  constructor <;> rw [String.toList_ofList]
  · exact trimmed_trim name
  · exact trimmed_trim value
  · exact fun hmem => hcomma.1 (hname hmem)
  · exact fun hmem => hcomma.2.2 (hvalue hmem)
  · exact fun hmem => hequals (hname hmem)

/-- Every parameter that is read can be told from what stands around it. -/
theorem plain_of_readList {text : List Char} {parameters : List Parameter}
    (h : readList text = .ok parameters) : ∀ parameter ∈ parameters, parameter.Plain := by
  have hcomma : ∀ segment ∈ (segments text).filter (trim · != []), ',' ∉ segment :=
    fun segment hsegment => comma_not_mem_segment segment (List.mem_of_mem_filter hsegment)
  rw [readList_eq_ok_iff] at h
  generalize (segments text).filter (trim · != []) = kept at h hcomma
  induction h with
  | nil => simp
  | cons hdeclares _ ih =>
      rw [List.forall_mem_cons] at hcomma ⊢
      exact ⟨hdeclares.plain hcomma.1, ih hcomma.2⟩

end Read

section Write

theorem layWords_words (parameter : Parameter) : layWords parameter.words = parameter.written :=
  rfl

theorem layList_words (parameters : List Parameter) :
    layList (parameters.map words) = writeList parameters := by
  induction parameters with
  | nil => rfl
  | cons parameter later ih =>
      cases later with
      | nil =>
          rw [writeList, List.map_singleton, List.map_singleton, List.intercalate_singleton]
          exact layWords_words parameter
      | cons next later =>
          have hlist : layList ((parameter :: next :: later).map words) =
            layWords parameter.words ++ ',' :: layList ((next :: later).map words) := rfl
          rw [hlist, ih, layWords_words, writeList, writeList, List.map_cons, List.map_cons,
            List.map_cons, List.intercalate_cons_cons, List.append_assoc, List.singleton_append]

/-- A written list is read as the parameters that it declares. -/
theorem readList_writeList {parameters : List Parameter}
    (h : ∀ parameter ∈ parameters, parameter.Plain) :
    readList (writeList parameters) = .ok parameters := by
  have hlisted : Listed (parameters.map words) (writeList parameters) := by
    rw [← layList_words]
    apply listed_layList
    intro _ hwords
    obtain ⟨parameter, _, rfl⟩ := List.mem_map.mp hwords
    exact List.cons_ne_nil _ _
  have hread := readList_listed h hlisted
  rwa [readList, entries_eq, pieces_trim, ← entries_eq] at hread

end Write

theorem exists_readList_eq_error_iff {text : List Char} :
    (∃ complaint, readList text = .error complaint) ↔
      ∃ segment ∈ segments text, lacksValue segment = true := by
  simp only [readList_eq_error_iff]
  constructor
  · rintro ⟨_, segment, hfirst, _⟩
    exact ⟨segment, List.mem_of_find?_eq_some hfirst, List.find?_some hfirst⟩
  · intro hlacks
    obtain ⟨segment, hfirst⟩ := Option.isSome_iff_exists.mp (List.find?_isSome.mpr hlacks)
    exact ⟨_, segment, hfirst, rfl⟩

/-- A parameter list fails just if some segment lacks a value, and the first such segment is
complained about. Otherwise the segments that are not blank declare the parameters, one
each. Parameters that are written as a list are read back, and so can be
all parameters that are read. -/
theorem readList_roundTrip :
    (∀ text,
      List.Forall₂ Strips (text.splitOn ',') (segments text) ∧
        ((∃ complaint, readList text = .error complaint) ↔
          ∃ segment ∈ segments text, lacksValue segment = true) ∧
        (∀ complaint, readList text = .error complaint ↔
          ∃ segment, (segments text).find? lacksValue = some segment ∧
            complaint = { segment := String.ofList (trim segment) }) ∧
        (∀ parameters, readList text = .ok parameters ↔
          List.Forall₂ Declares ((segments text).filter (trim · != [])) parameters) ∧
        ∀ parameters, readList text = .ok parameters →
          (∀ parameter ∈ parameters, parameter.Plain) ∧
            readList (writeList parameters) = .ok parameters) ∧
      ∀ parameters, (∀ parameter ∈ parameters, parameter.Plain) →
        readList (writeList parameters) = .ok parameters := by
  refine ⟨fun text => ⟨forall₂_strips text, exists_readList_eq_error_iff,
    fun _ => readList_eq_error_iff, fun _ => readList_eq_ok_iff, ?_⟩,
    fun _ => readList_writeList⟩
  intro parameters hread
  have hplain := plain_of_readList hread
  exact ⟨hplain, readList_writeList hplain⟩

/-- Names and values that are empty, look like the keyword, or hold another `=`. -/
def oddParameters : List Parameter :=
  [{ name := "", value := "" }, { name := "parameter W", value := "a == b" },
    { name := "parameter", value := "" }, { name := "\u00e9_x y", value := "=" }]

/-- The same parameters with as little around them as possible, and with blank segments. -/
def oddList : List Char :=
  "=,\u00a0parameter parameter W=a == b ,parameter, ,parameter\tparameter=,\u00e9_x y==".toList

theorem readList_oddParameters :
    (∀ parameter ∈ oddParameters, parameter.Plain) ∧
      readList (writeList oddParameters) = .ok oddParameters ∧
      readList oddList = .ok oddParameters ∧
      writeList oddParameters =
        ("parameter  = ,parameter parameter W = a == b,parameter parameter = ," ++
          "parameter \u00e9_x y = =").toList := by
  have hread : readList oddList = .ok oddParameters := by decide +kernel
  have hplain := ((readList_roundTrip.1 oddList).2.2.2.2 oddParameters hread).1
  exact ⟨hplain, readList_roundTrip.2 oddParameters hplain, hread, by decide +kernel⟩

end Parameter

end VerilogOutline
