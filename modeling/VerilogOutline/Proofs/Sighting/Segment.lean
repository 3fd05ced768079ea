import VerilogOutline.Proofs.Sighting.Stop

/-!
# Taking a source apart

The regions that a scan finds divide the source into their texts and the gaps
around them. Each region can be read where it stands, and no region begins in a
gap, unless its keyword goes on from an identifier character.
-/

namespace VerilogOutline

open Text Lexeme

/-- A region in a source and the gap behind it. -/
structure Segment where
  text : List Char
  region : Region
  gap : List Char

/-- The text that consecutive segments make up. -/
def Segment.join (segments : List Segment) : List Char :=
  segments.flatMap fun segment => segment.text ++ segment.gap

@[simp] theorem Segment.join_nil : Segment.join [] = [] := rfl

@[simp] theorem Segment.join_cons (segment : Segment) (later : List Segment) :
    Segment.join (segment :: later) = segment.text ++ (segment.gap ++ Segment.join later) := by
  simp [Segment.join]

namespace Sighting

/-- No region can be read from a keyword in the gap, with the text behind it, unless the
keyword goes on from an identifier character of the source. -/
def Idle (before gap behind : List Char) : Prop :=
  ∀ first second, gap = first ++ second → second ≠ [] → "module".toList <+: second ++ behind →
    endsInWord (before ++ first) = false → Region.read? (second ++ behind) = none

/-- Behind `before` the source consists of an idle gap and the segments: each of them is
a region that runs from `module` to `endmodule` and can be read in front of what follows,
with an idle gap behind it. -/
def Segmented (before gap : List Char) : List Segment → Prop
  | [] => Idle before gap []
  | segment :: later =>
    Idle before gap (Segment.join (segment :: later)) ∧
    "module".toList <+: segment.text ∧ "endmodule".toList <:+ segment.text ∧
    Region.read? (Segment.join (segment :: later)) =
      some (segment.region, segment.gap ++ Segment.join later) ∧
    Segmented (before ++ gap ++ segment.text) segment.gap later

theorem Sheltered.idle {gap behind : List Char} (h : Sheltered [] gap behind)
    (before : List Char) : Idle before gap behind := by
  intro first second hsplit hne hword hbound
  have hfirst : endsInWord first = true := h first second hsplit hne hword
  have hne' : first ≠ [] := by
    intro hnil
    rw [hnil] at hfirst
    contradiction
  rw [endsInWord_append _ hne', hfirst] at hbound
  contradiction

theorem idle_append {before first second behind : List Char}
    (hfirst : Idle before first (second ++ behind)) (hsecond : Idle (before ++ first) second behind) :
    Idle before (first ++ second) behind := by
  intro front back hsplit hne hword hbound
  rcases List.append_eq_append_iff.mp hsplit with ⟨middle, hfront, hback⟩ | ⟨middle, hfront, hback⟩
  · refine hsecond middle back hback hne hword ?_
    rwa [hfront, ← List.append_assoc] at hbound
  · by_cases hmiddle : middle = []
    · rw [hmiddle, List.append_nil] at hfront
      rw [hmiddle, List.nil_append] at hback
      refine hsecond [] back (by simp [hback]) hne hword ?_
      rwa [List.append_nil, hfront]
    · rw [hback, List.append_assoc] at hword ⊢
      exact hfirst front middle hfront hmiddle hword hbound

/-- A keyword from which no region can be read is idle throughout. -/
theorem idle_module {before behind : List Char}
    (h : Region.read? ("module".toList ++ behind) = none) :
    Idle before "module".toList behind := by
  intro first second hsplit hne hword _
  obtain ⟨rest, hrest⟩ := exists_cons_of_module hword
  cases second with
  | nil => contradiction
  | cons c second =>
      obtain ⟨rfl, _⟩ := List.cons.inj hrest
      rw [eq_nil_of_module_eq hsplit, List.nil_append] at hsplit
      rwa [← hsplit]

theorem Segmented.cons_gap {before first second : List Char} {segments : List Segment}
    (hfirst : Idle before first (second ++ Segment.join segments))
    (hsecond : Segmented (before ++ first) second segments) :
    Segmented before (first ++ second) segments := by
  cases segments with
  | nil =>
      rw [Segment.join_nil, List.append_nil] at hfirst
      exact idle_append (by rwa [List.append_nil]) hsecond
  | cons segment later =>
      obtain ⟨hidle, hrest⟩ := hsecond
      rw [List.append_assoc before first second] at hrest
      exact ⟨idle_append hfirst hidle, hrest⟩

theorem Segmented.cons_module {before gap after : List Char} {segments : List Segment}
    (h : Segmented (before ++ gap ++ "module".toList) after segments)
    (hidle : Idle before gap ("module".toList ++ (after ++ Segment.join segments)))
    (hread : Region.read? ("module".toList ++ (after ++ Segment.join segments)) = none) :
    Segmented before (gap ++ ("module".toList ++ after)) segments := by
  apply Segmented.cons_gap (by rwa [List.append_assoc])
  apply Segmented.cons_gap
  · exact idle_module hread
  · exact h

theorem Segmented.cons_region {before gap text after : List Char} {region : Region}
    {segments : List Segment} (h : Segmented (before ++ gap ++ text) after segments)
    (hidle : Idle before gap (text ++ (after ++ Segment.join segments)))
    (hread : Region.read? (text ++ (after ++ Segment.join segments)) =
      some (region, after ++ Segment.join segments)) :
    Segmented before gap ({ text, region, gap := after } :: segments) := by
  obtain ⟨inside, htext⟩ := Region.exists_eq_append_of_read? hread
  have htext := List.append_cancel_right htext
  refine ⟨by rwa [Segment.join_cons], ?_, ?_, by rwa [Segment.join_cons], h⟩
  · rw [htext, List.append_assoc]
    exact List.prefix_append _ _
  · rw [htext]
    exact List.suffix_append _ _

/-- Leaving out the stops at which nothing was read joins the gaps around them. -/
theorem Consecutive.exists_segments {source : List Char} {stops : List (Stop source)}
    {done : List Char} (h : Consecutive done stops) :
    ∃ gap segments, done ++ (gap ++ Segment.join segments) = source ∧
      regions (stops.map Stop.sighting) = segments.map (·.region) ∧
      Segmented done gap segments := by
  induction stops generalizing done with
  | nil =>
      obtain ⟨gap, hsource, hgap⟩ := h
      exact ⟨gap, [], by simpa using hsource, rfl, hgap.idle done⟩
  | cons stop later ih =>
      obtain ⟨⟨gap, hbefore, _, hgap⟩, hlater⟩ := h
      obtain ⟨after, segments, hsource, hregions, hsegmented⟩ := ih hlater
      obtain ⟨before, taken, behind, region?, heq, htakes⟩ := stop
      dsimp only at hbefore hgap hsource hsegmented
      subst hbefore
      -- the source behind this stop is what the later ones divide
      obtain rfl : after ++ Segment.join segments = behind := by
        rw [← heq, List.append_assoc (done ++ gap)] at hsource
        simpa using hsource
      have hidle := hgap.idle done
      cases region? with
      | none =>
          obtain ⟨rfl, hread⟩ := htakes
          refine ⟨gap ++ ("module".toList ++ after), segments, ?_, hregions,
            hsegmented.cons_module hidle hread⟩
          rw [← heq]
          simp only [List.append_assoc]
      | some region =>
          refine ⟨gap, { text := taken, region, gap := after } :: segments, ?_, ?_,
            hsegmented.cons_region hidle htakes⟩
          · rw [← heq, Segment.join_cons]
            simp only [List.append_assoc]
          · simpa [regions, Stop.sighting] using hregions

theorem Idle.read?_eq_none {before gap behind front text : List Char} (h : Idle before gap behind)
    (hsplit : gap ++ behind = front ++ text) (hlength : front.length < gap.length)
    (hword : "module".toList <+: text) (hbound : endsInWord (before ++ front) = false) :
    Region.read? text = none := by
  obtain ⟨second, rfl, rfl⟩ := exists_append_of_length_le hsplit.symm hlength.le
  refine h front second rfl ?_ hword hbound
  intro hnil
  simp [hnil] at hlength

/-- A region that can be read somewhere begins in the text of a segment, as the gaps are idle. -/
theorem Segmented.exists_segment {before gap : List Char} {segments : List Segment}
    (h : Segmented before gap segments) {front text : List Char}
    (hsplit : gap ++ Segment.join segments = front ++ text) (hword : "module".toList <+: text)
    (hbound : endsInWord (before ++ front) = false) (hread : Region.read? text ≠ none) :
    ∃ earlier segment later, segments = earlier ++ segment :: later ∧
      (gap ++ Segment.join earlier).length ≤ front.length ∧
      front.length < (gap ++ Segment.join earlier ++ segment.text).length := by
  induction segments generalizing before gap front with
  | nil =>
      have hlength : front.length < gap.length := by
        obtain ⟨rest, rfl⟩ := exists_cons_of_module hword
        have hsplit := congrArg List.length hsplit
        simp only [Segment.join_nil, List.length_append, List.length_cons, List.length_nil] at hsplit
        omega
      exact absurd (Idle.read?_eq_none h hsplit hlength hword hbound) hread
  | cons segment later ih =>
      obtain ⟨hidle, _, _, _, hlater⟩ := h
      by_cases hgap : front.length < gap.length
      · exact absurd (hidle.read?_eq_none hsplit hgap hword hbound) hread
      · obtain ⟨inner, rfl, htext⟩ := exists_append_of_length_le hsplit (not_lt.mp hgap)
        rw [Segment.join_cons] at htext
        by_cases hinside : inner.length < segment.text.length
        · refine ⟨[], segment, later, rfl, by simp, ?_⟩
          simpa using hinside
        · -- behind the segment's text the rest of the source takes the place of the source
          obtain ⟨last, rfl, hlast⟩ := exists_append_of_length_le htext (not_lt.mp hinside)
          obtain ⟨earlier, found, rest, rfl, hlower, hupper⟩ :=
            ih hlater hlast (by simpa using hbound)
          refine ⟨segment :: earlier, found, rest, rfl, ?_, ?_⟩
          · simp only [Segment.join_cons, List.length_append] at hlower ⊢
            omega
          · simp only [Segment.join_cons, List.length_append] at hupper ⊢
            omega

/-- A scan reports every region whose keyword begins a word of the source, but for those
that begin inside a region reported before, and it reports nothing else. -/
theorem exists_segmented_scan (source : List Char) :
    ∃ gap segments, source = gap ++ Segment.join segments ∧
      regions (scan source) = segments.map (·.region) ∧ Segmented [] gap segments ∧
      ∀ before text, source = before ++ text → "module".toList <+: text →
        endsInWord before = false → Region.read? text ≠ none →
        ∃ earlier segment later, segments = earlier ++ segment :: later ∧
          (gap ++ Segment.join earlier).length ≤ before.length ∧
          before.length < (gap ++ Segment.join earlier ++ segment.text).length := by
  obtain ⟨stops, hscan, hconsecutive⟩ := exists_stops source
  obtain ⟨gap, segments, hsource, hregions, hsegmented⟩ := hconsecutive.exists_segments
  refine ⟨gap, segments, by simpa using hsource.symm, by rw [hscan, hregions], hsegmented, ?_⟩
  intro before text hsplit hword hbound hread
  exact hsegmented.exists_segment (hsource.trans hsplit) hword hbound hread

end Sighting

end VerilogOutline
