import VerilogOutline.Proofs.Sighting.Stop

/-!
# Keywords inside words

The keyword of a region should begin a word of the source. A scan looks for it in
the text that is still to be searched, so right behind a stop the end of what was
taken up is out of sight. There, and nowhere else, a region is found inside a word.
-/

namespace VerilogOutline.Sighting

open Text Lexeme

variable {source : List Char}

/-- The source up to the end of the last stop. -/
def reached (done : List Char) : List (Stop source) → List Char
  | [] => done
  | stop :: later => reached (stop.before ++ stop.taken) later

@[simp] theorem reached_concat (done : List Char) (stops : List (Stop source))
    (stop : Stop source) : reached done (stops ++ [stop]) = stop.before ++ stop.taken := by
  induction stops generalizing done with
  | nil => rfl
  | cons _ later ih => exact ih _

/-- What a stop leaves out of sight is the source up to the end of the one before. -/
theorem Consecutive.gap {done : List Char} {earlier later : List (Stop source)}
    {stop : Stop source} (h : Consecutive done (earlier ++ stop :: later)) :
    ∃ gap, stop.before = reached done earlier ++ gap ∧ endsInWord gap = false := by
  induction earlier generalizing done with
  | nil =>
      obtain ⟨gap, hbefore, hbound, _⟩ := h.1
      exact ⟨gap, hbefore, hbound⟩
  | cons _ earlier ih => exact ih h.2

theorem Consecutive.endsInWord_before_iff {earlier later : List (Stop source)}
    {stop : Stop source} (h : Consecutive [] (earlier ++ stop :: later)) :
    endsInWord stop.before = true ↔
      ∃ previous ∈ earlier.getLast?, previous.before ++ previous.taken = stop.before := by
  obtain ⟨gap, hbefore, hbound⟩ := h.gap
  rcases List.eq_nil_or_concat earlier with rfl | ⟨init, previous, rfl⟩
  · rw [reached, List.nil_append] at hbefore
    simp [hbefore, hbound]
  · rw [List.concat_eq_append, reached_concat] at hbefore
    by_cases hgap : gap = []
    · -- the stop before ends here, and it ends with `module`
      rw [hgap, List.append_nil] at hbefore
      simp [hbefore, previous.takes.endsInWord_append]
    · have hend : endsInWord stop.before = false := by
        rw [hbefore, endsInWord_append _ hgap, hbound]
      have hlonger : ∀ previous' ∈ (init.concat previous).getLast?,
          previous'.before ++ previous'.taken ≠ stop.before := by
        intro previous' hlast
        obtain rfl : previous = previous' := by simpa using hlast
        simp [hbefore, hgap]
      simpa [hend] using hlonger

theorem modulemodule_of_glued {previous stop : Stop source}
    (h : previous.before ++ previous.taken = stop.before) :
    "modulemodule".toList <:+: source := by
  obtain ⟨front, hfront⟩ := previous.takes.module_last
  obtain ⟨back, hback⟩ := stop.takes.module_first
  have hword : "modulemodule".toList = "module".toList ++ "module".toList := rfl
  refine ⟨previous.before ++ front, back ++ stop.behind, Eq.trans ?_ stop.eq_source⟩
  rw [← h, ← hfront, ← hback, hword]
  simp only [List.append_assoc]

/-- A scan looks at a keyword inside a word exactly where the stop before ends, which is
with the word `module`. In a source without `modulemodule` it never does. -/
theorem module_in_word_iff_glued (source : List Char) :
    ∃ stops : List (Stop source), scan source = stops.map Stop.sighting ∧
      (∀ earlier stop later, stops = earlier ++ stop :: later →
        (endsInWord stop.before = true ↔
          ∃ previous ∈ earlier.getLast?, previous.before ++ previous.taken = stop.before)) ∧
      (¬ "modulemodule".toList <:+: source →
        ∀ stop ∈ stops, endsInWord stop.before = false) := by
  obtain ⟨stops, hscan, hconsecutive⟩ := exists_stops source
  refine ⟨stops, hscan, ?_, ?_⟩
  · intro earlier stop later hstops
    rw [hstops] at hconsecutive
    exact hconsecutive.endsInWord_before_iff
  · intro hfree stop hstop
    obtain ⟨earlier, later, hstops⟩ := List.append_of_mem hstop
    rw [hstops] at hconsecutive
    rw [Bool.eq_false_iff, ne_eq, hconsecutive.endsInWord_before_iff]
    intro hglued
    obtain ⟨previous, _, hbefore⟩ := hglued
    exact hfree (modulemodule_of_glued hbefore)

/-- A source in which a scan passes over the first keyword and then finds a region glued to it. -/
def gluedSource : List Char :=
  "modulemodule a; endmodule".toList

def passedStop : Stop gluedSource where
  before := []
  taken := "module".toList
  behind := "module a; endmodule".toList
  region? := none
  eq_source := rfl
  takes := ⟨rfl, by decide +kernel⟩

def gluedStop : Stop gluedSource where
  before := "module".toList
  taken := "module a; endmodule".toList
  behind := []
  region? := some { name := "a", parameters := "", ports := "", body := " " }
  eq_source := rfl
  takes := by unfold Takes; decide +kernel

/-- Not every region that a scan finds begins a word of the source. -/
theorem not_every_region_begins_word :
    ¬ ∀ (source : List Char) (stops : List (Stop source)), scan source = stops.map Stop.sighting →
      ∀ stop ∈ stops, stop.region?.isSome = true → endsInWord stop.before = false := by
  intro h
  have hscan : scan gluedSource = [passedStop, gluedStop].map Stop.sighting := by decide +kernel
  have hmem : gluedStop ∈ [passedStop, gluedStop] := .tail _ (.head _)
  have hbound := h gluedSource [passedStop, gluedStop] hscan gluedStop hmem rfl
  exact absurd hbound (by decide)

end VerilogOutline.Sighting
