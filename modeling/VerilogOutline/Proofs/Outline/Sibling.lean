import VerilogOutline.Outline
import VerilogOutline.Proofs.Comment.Clean
import VerilogOutline.Proofs.Sighting.Segment

/-!
# Modules beside each other

Regions that can each be read alone are read in the same way beside each other, as
long as the text between them neither holds a keyword nor runs into one. So what
becomes of a module does not depend on its neighbours.
-/

namespace VerilogOutline

open Text Lexeme

namespace Sighting

/-- Every `module` in the gap goes on from an identifier character of the gap. -/
def Harmless (gap : List Char) : Prop :=
  ∀ front back, gap = front ++ ("module".toList ++ back) → endsInWord front = true

theorem harmless_iff (gap : List Char) :
    Harmless gap ↔ ∀ n < gap.length + 1,
      "module".toList <+: gap.drop n → endsInWord (gap.take n) = true := by
  rw [← forall_append_iff (p := fun front second => "module".toList <+: second →
    endsInWord front = true)]
  constructor
  · rintro h front _ hsplit ⟨back, rfl⟩
    exact h front back hsplit
  · intro h front back hsplit
    exact h front _ hsplit (List.prefix_append _ _)

instance : DecidablePred Harmless :=
  fun gap => decidable_of_iff _ (harmless_iff gap).symm

theorem Harmless.sheltered {gap behind : List Char} (h : Harmless gap)
    (hbehind : behind = [] ∨ "module".toList <+: behind) : Sheltered [] gap behind := by
  intro first second hsplit hne hword
  obtain ⟨back, rfl⟩ := prefix_of_prefix_append hne hword hbehind
  exact h first back hsplit

/-- Regions that can each be read alone, put together with harmless gaps. A gap in front of
a region must not end in an identifier character. -/
structure Siblings (gap : List Char) (segments : List Segment) : Prop where
  read_text : ∀ segment ∈ segments, Region.read? segment.text = some (segment.region, [])
  harmless : Harmless gap
  harmless_gap : ∀ segment ∈ segments, Harmless segment.gap
  bound : segments ≠ [] → endsInWord gap = false
  bound_gap : ∀ segment ∈ segments.dropLast, endsInWord segment.gap = false

theorem Siblings.tail {gap : List Char} {segment : Segment} {later : List Segment}
    (h : Siblings gap (segment :: later)) : Siblings segment.gap later where
  read_text := fun s hs => h.read_text s (List.mem_cons_of_mem _ hs)
  harmless := h.harmless_gap segment List.mem_cons_self
  harmless_gap := fun s hs => h.harmless_gap s (List.mem_cons_of_mem _ hs)
  bound := by
    intro hne
    apply h.bound_gap
    rw [List.dropLast_cons_of_ne_nil hne]
    exact List.mem_cons_self
  bound_gap := by
    intro s hs
    apply h.bound_gap
    cases later with
    | nil => contradiction
    | cons => exact List.mem_cons_of_mem _ hs

/-- A scan finds the regions that were put together, each with the text of its segment. -/
theorem Siblings.regions_scanFrom {gap : List Char} {segments : List Segment}
    (h : Siblings gap segments) (size : Nat) :
    regions (scanFrom size (gap ++ Segment.join segments)) = segments.map (·.region) := by
  induction segments generalizing gap with
  | nil =>
      rw [Segment.join_nil, List.append_nil,
        scanFrom_of_sheltered size (h.harmless.sheltered (.inl rfl))]
      rfl
  | cons segment later ih =>
      have htakes : Takes segment.text (segment.gap ++ Segment.join later) (some segment.region) :=
        Region.read?_append (h.read_text segment List.mem_cons_self) _
      have hsheltered := h.harmless.sheltered
        (.inr (htakes.module_first.trans (List.prefix_append _ (segment.gap ++ Segment.join later))))
      rw [Segment.join_cons, scanFrom_append size (h.bound (List.cons_ne_nil _ _)) hsheltered htakes,
        List.map_cons, ← ih h.tail]
      rfl

end Sighting

namespace Outline

open Sighting

variable {gap : List Char} {segments : List Segment}

theorem readModules_join (options : Options) (h : Siblings gap segments)
    (hopen : Comment.OpensNone (gap ++ Segment.join segments)) :
    (readModules options (String.ofList (gap ++ Segment.join segments))).value =
      segments.map fun segment => (Module.ofRegion options segment.region).value := by
  rw [value_readModules, String.toList_ofList, hopen.strip_eq_self, scan, h.regions_scanFrom,
    List.map_map]
  rfl

/-- Each module beside others is what its region alone yields. So a region that takes the
place of another makes no difference to the rest. -/
theorem readModules_siblings (options : Options) (h : Siblings gap segments)
    (hopen : Comment.OpensNone (gap ++ Segment.join segments)) :
    (readModules options (String.ofList (gap ++ Segment.join segments))).value =
        segments.map (fun segment => (Module.ofRegion options segment.region).value) ∧
      ∀ index other, Siblings gap (segments.set index other) →
        Comment.OpensNone (gap ++ Segment.join (segments.set index other)) →
        ∀ i ≠ index,
          (readModules options
              (String.ofList (gap ++ Segment.join (segments.set index other)))).value[i]? =
            (readModules options (String.ofList (gap ++ Segment.join segments))).value[i]? := by
  refine ⟨readModules_join options h hopen, ?_⟩
  intro index other hother hopen' i hne
  rw [readModules_join options h hopen, readModules_join options hother hopen',
    List.getElem?_map, List.getElem?_map, List.getElem?_set_ne hne.symm]

/-- A module whose parameter has no value, beside one that can be read. -/
def brokenAndSound : List Segment :=
  [{ text := "module a #(W) (x); endmodule".toList
     region := { name := "a", parameters := "W", ports := "x", body := " " }
     gap := " submodule\n".toList },
   { text := "module b(input y);endmodule".toList
     region := { name := "b", parameters := "", ports := "input y", body := "" }
     gap := [] }]

theorem brokenAndSound_siblings : Siblings [] brokenAndSound where
  read_text := by decide +kernel
  harmless := by decide
  harmless_gap := by decide +kernel
  bound := fun _ => rfl
  bound_gap := by decide

/-- The module that can be read is read, whatever stands in front of it. -/
theorem readModules_brokenAndSound :
    Siblings [] brokenAndSound ∧ Comment.OpensNone (Segment.join brokenAndSound) ∧
      (readModules {} (String.ofList (Segment.join brokenAndSound))).value =
        [.error (.parameters "a" { segment := "W" }),
         .ok { name := "b"
               ports := [{ direction := some .input, kind := some .wire, name := "y" }] }] := by
  have hopen : Comment.OpensNone (Segment.join brokenAndSound) :=
    { noLine := by decide +kernel, noBlock := by decide +kernel }
  refine ⟨brokenAndSound_siblings, hopen, ?_⟩
  have h := (readModules_siblings {} brokenAndSound_siblings hopen).1
  rw [List.nil_append] at h
  rw [h]
  decide +kernel

end Outline

end VerilogOutline
