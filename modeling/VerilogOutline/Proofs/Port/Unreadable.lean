import Mathlib.Data.List.Forall2
import VerilogOutline.Proofs.Port.Settled

/-!
# Unreadable entries

An entry of a port list that cannot be read is counted and leaves no other trace. Whatever
it gives in front of the place where reading fails is not handed on, so the ports are those
of the readable entries alone.
-/

namespace VerilogOutline.PortList

open Text

/-- The declaration that is read from an entry as it stands between its commas. -/
def entryDeclaration? (entry : List Char) : Option Declaration :=
  declaration? (trim entry)

/-- A declaration is read from the entry. -/
def isReadable (entry : List Char) : Bool :=
  (entryDeclaration? entry).isSome

/-- There is something in the entry, but no declaration is read from it. -/
def isUnreadable (entry : List Char) : Bool :=
  trim entry != [] && !isReadable entry

/-- The text of a port list that has the entries between its commas. -/
def join (entries : List (List Char)) : List Char :=
  [','].intercalate entries

/-- The port has its name from the entry. -/
def NamedIn (entry : List Char) (port : Port) : Prop :=
  ∃ decl, entryDeclaration? entry = some decl ∧ port.name = decl.name

/-- An entry in which nothing is written gives no declaration. -/
theorem declaration?_nil : declaration? [] = none := by
  decide +kernel

section Join

variable {entries : List (List Char)}

theorem entryTexts_join (h : ∀ entry ∈ entries, ',' ∉ entry) :
    entryTexts (join entries) = (entries.map trim).filter (!·.isEmpty) := by
  cases entries with
  | nil => rfl
  | cons entry later =>
      rw [entryTexts, join, List.splitOn_intercalate ',' h (List.cons_ne_nil _ _)]

theorem declarations_join (h : ∀ entry ∈ entries, ',' ∉ entry) :
    declarations (join entries) = entries.filterMap entryDeclaration? := by
  rw [declarations, entryTexts_join h, List.filterMap_filter, List.filterMap_map]
  apply List.filterMap_congr
  intro entry _
  cases htrim : trim entry with
  | nil => simp [entryDeclaration?, htrim, declaration?_nil]
  | cons => simp [entryDeclaration?, htrim]

theorem filterMap_filter_isReadable (entries : List (List Char)) :
    (entries.filter isReadable).filterMap entryDeclaration? =
      entries.filterMap entryDeclaration? := by
  rw [List.filterMap_filter]
  apply List.filterMap_congr
  intro entry _
  cases hdecl : entryDeclaration? entry with
  | none => simp
  | some decl => simp [isReadable, hdecl]

theorem ports_read_join (h : ∀ entry ∈ entries, ',' ∉ entry) :
    (read (join entries)).ports =
      Port.ofDeclarations {} (entries.filterMap entryDeclaration?) := by
  rw [ports_read, declarations_join h]

/-- What an unreadable entry would give is not carried on. -/
theorem ports_read_join_filter (h : ∀ entry ∈ entries, ',' ∉ entry) :
    (read (join (entries.filter isReadable))).ports = (read (join entries)).ports := by
  have hreadable : ∀ entry ∈ entries.filter isReadable, ',' ∉ entry :=
    fun entry hentry => h entry (List.mem_of_mem_filter hentry)
  rw [ports_read_join hreadable, filterMap_filter_isReadable, ports_read_join h]

end Join

theorem skipped_readEntries (carried : Attributes) (entries : List (List Char)) :
    (readEntries carried entries).countP PortEntry.isUnreadable =
      entries.countP fun entry => (declaration? entry).isNone := by
  induction entries generalizing carried with
  | nil => rfl
  | cons entry entries ih =>
      rw [readEntries, List.countP_cons, declaration?]
      cases Declaration.read entry with
      | ok found => simp [ih, PortEntry.isUnreadable, Except.toOption]
      | error complaint => simp [List.countP_cons, ih, PortEntry.isUnreadable, Except.toOption]

theorem skipped_read_join {entries : List (List Char)} (h : ∀ entry ∈ entries, ',' ∉ entry) :
    (read (join entries)).skipped = entries.countP isUnreadable := by
  rw [skipped, read, skipped_readEntries, entryTexts_join h, List.countP_filter, List.countP_map]
  apply List.countP_congr
  intro entry _
  simp [isUnreadable, isReadable, entryDeclaration?, and_comm]

theorem forall₂_namedIn (carried : Attributes) (entries : List (List Char)) :
    List.Forall₂ NamedIn (entries.filter isReadable)
      (Port.ofDeclarations carried (entries.filterMap entryDeclaration?)) := by
  induction entries generalizing carried with
  | nil => exact .nil
  | cons entry entries ih =>
      cases hdecl : entryDeclaration? entry with
      | none =>
          have hunreadable : ¬ isReadable entry = true := by simp [isReadable, hdecl]
          rw [List.filter_cons_of_neg hunreadable, List.filterMap_cons_none hdecl]
          exact ih carried
      | some decl =>
          have hreadable : isReadable entry = true := by rw [isReadable, hdecl]; rfl
          rw [List.filter_cons_of_pos hreadable, List.filterMap_cons_some hdecl,
            Port.ofDeclarations_cons]
          exact .cons ⟨decl, hdecl, rfl⟩ (ih _)

/-- The unreadable entries of a port list are counted, and its ports are those of the
readable entries: one for each, in order, under the name that is read from it. So entries
from which nothing is read can be put in and taken out anywhere. -/
theorem ports_of_readable {entries : List (List Char)} (h : ∀ entry ∈ entries, ',' ∉ entry) :
    (read (join entries)).skipped = entries.countP isUnreadable ∧
      (read (join entries)).ports = (read (join (entries.filter isReadable))).ports ∧
      List.Forall₂ NamedIn (entries.filter isReadable) (read (join entries)).ports ∧
      ∀ others : List (List Char), (∀ entry ∈ others, ',' ∉ entry) →
        others.filter isReadable = entries.filter isReadable →
        (read (join others)).ports = (read (join entries)).ports := by
  refine ⟨skipped_read_join h, (ports_read_join_filter h).symm, ?_, ?_⟩
  · rw [ports_read_join h]
    exact forall₂_namedIn {} entries
  · intro others hothers hreadable
    rw [← ports_read_join_filter hothers, hreadable, ports_read_join_filter h]

/-- Three entries between some that are blank and some that break off. -/
def mixedEntries : List (List Char) :=
  ["input reg [3:0] a", "  ", "output signed [7:0] 3x", "b", "", "\u00a0wire", "signed c = 1",
    "output"].map String.toList

/-- The same three entries among others that break off. -/
def otherEntries : List (List Char) :=
  ["inout wire [", "input reg [3:0] a", "b", "signed", "signed c = 1"].map String.toList

theorem ports_of_mixedEntries :
    (∀ entry ∈ mixedEntries, ',' ∉ entry) ∧ (read (join mixedEntries)).skipped = 3 ∧
      (read (join mixedEntries)).ports =
        (read "input reg [3:0] a,b,signed c = 1".toList).ports ∧
      (∀ entry ∈ otherEntries, ',' ∉ entry) ∧
      otherEntries.filter isReadable = mixedEntries.filter isReadable ∧
      (read (join otherEntries)).ports = (read (join mixedEntries)).ports := by
  have hcomma : ∀ entry ∈ mixedEntries, ',' ∉ entry := by decide
  have hcomma' : ∀ entry ∈ otherEntries, ',' ∉ entry := by decide
  obtain ⟨hskipped, hports, _, hothers⟩ := ports_of_readable hcomma
  have hcount : mixedEntries.countP isUnreadable = 3 := by decide +kernel
  have hreadable : join (mixedEntries.filter isReadable) =
      "input reg [3:0] a,b,signed c = 1".toList := by decide +kernel
  have hsame : otherEntries.filter isReadable = mixedEntries.filter isReadable := by
    decide +kernel
  rw [hcount] at hskipped
  rw [hreadable] at hports
  exact ⟨hcomma, hskipped, hports, hcomma', hsame, hothers otherEntries hcomma' hsame⟩

end VerilogOutline.PortList
