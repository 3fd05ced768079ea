import VerilogOutline.Proofs.Region.Append
import VerilogOutline.Proofs.Sighting.Keyword

/-!
# The stops of a scan

A scan stops at a keyword, takes up a region or the keyword alone, and goes on
behind it. Every sighting belongs to such a stop, and what lies between two stops
holds no keyword that a scan would look at.
-/

namespace VerilogOutline.Sighting

open Text Lexeme

/-- What a scan takes up at a keyword: a region if one can be read there, and otherwise
the keyword alone. -/
def Takes (taken behind : List Char) : Option Region → Prop
  | some region => Region.read? (taken ++ behind) = some (region, behind)
  | none => taken = "module".toList ∧ Region.read? (taken ++ behind) = none

section Takes

variable {taken behind : List Char} {region? : Option Region}

theorem Takes.module_first (h : Takes taken behind region?) : "module".toList <+: taken := by
  cases region? with
  | none => exact h.1 ▸ List.prefix_rfl
  | some region =>
      obtain ⟨inside, htext⟩ := Region.exists_eq_append_of_read? h
      rw [List.append_cancel_right htext, List.append_assoc]
      exact List.prefix_append _ _

theorem Takes.module_last (h : Takes taken behind region?) : "module".toList <:+ taken := by
  cases region? with
  | none => exact h.1 ▸ List.suffix_rfl
  | some region =>
      obtain ⟨inside, htext⟩ := Region.exists_eq_append_of_read? h
      have hword : "module".toList <:+ "endmodule".toList := ⟨"end".toList, rfl⟩
      rw [List.append_cancel_right htext]
      exact hword.trans (List.suffix_append _ _)

theorem Takes.ne_nil (h : Takes taken behind region?) : taken ≠ [] := by
  obtain ⟨rest, rfl⟩ := exists_cons_of_module h.module_first
  exact List.cons_ne_nil _ _

theorem Takes.endsInWord_append (h : Takes taken behind region?) (before : List Char) :
    endsInWord (before ++ taken) = true := by
  obtain ⟨front, hfront⟩ := h.module_last
  rw [← hfront, ← List.append_assoc, Text.endsInWord_append _ (by decide)]
  decide

end Takes

theorem scanFrom_of_sheltered {text : List Char} (size : Nat) (h : Sheltered [] text []) :
    scanFrom size text = [] := by
  have hnone : nextKeyword? false text = none := (nextKeyword?_eq_none_iff []).mpr h
  rw [scanFrom]
  split
  next => rfl
  next found hfound => cases hnone.symm.trans hfound

/-- One step of a scan. -/
theorem scanFrom_append {gap taken behind : List Char} {region? : Option Region} (size : Nat)
    (hbound : endsInWord gap = false) (hgap : Sheltered [] gap (taken ++ behind))
    (htakes : Takes taken behind region?) :
    scanFrom size (gap ++ (taken ++ behind)) =
      { offset := size - byteLength (taken ++ behind), region? } :: scanFrom size behind := by
  have hnext : nextKeyword? false (gap ++ (taken ++ behind)) = some (taken ++ behind) :=
    (nextKeyword?_eq_some_iff []).mpr
      ⟨gap, rfl, htakes.module_first.trans (List.prefix_append _ _), hbound, hgap⟩
  rw [scanFrom]
  split
  next hfound => cases hnext.symm.trans hfound
  next found hfound =>
    obtain rfl : taken ++ behind = found := Option.some.inj (hnext.symm.trans hfound)
    cases region? with
    | none =>
        obtain ⟨rfl, hread⟩ := htakes
        have hdrop : ("module".toList ++ behind).drop "module".length = behind :=
          List.drop_left' String.length_toList
        split
        next hsome => cases hread.symm.trans hsome
        next => rw [hdrop]
    | some region =>
        have hread : Region.read? (taken ++ behind) = some (region, behind) := htakes
        split
        next hsome =>
          obtain ⟨rfl, rfl⟩ := Prod.mk.inj (Option.some.inj (hread.symm.trans hsome))
          rfl
        next hnone => cases hread.symm.trans hnone

/-- What holds of a text without keywords to look at, and holds of a text if it holds
behind the first stop, holds of every text. -/
theorem scan_induction {motive : List Char → Prop}
    (finish : ∀ gap, Sheltered [] gap [] → motive gap)
    (step : ∀ gap taken behind region?, endsInWord gap = false →
      Sheltered [] gap (taken ++ behind) → Takes taken behind region? → motive behind →
      motive (gap ++ (taken ++ behind)))
    (text : List Char) : motive text := by
  induction hlength : text.length using Nat.strongRecOn generalizing text with
  | ind length ih =>
      cases hnext : nextKeyword? false text with
      | none => exact finish text ((nextKeyword?_eq_none_iff []).mp hnext)
      | some found =>
          obtain ⟨gap, rfl, hstart, hbound, hgap⟩ := (nextKeyword?_eq_some_iff []).mp hnext
          have htaken : ∃ taken behind region?, found = taken ++ behind ∧
              Takes taken behind region? := by
            cases hread : Region.read? found with
            | none =>
                obtain ⟨behind, rfl⟩ := hstart
                exact ⟨_, behind, none, rfl, rfl, hread⟩
            | some read =>
                obtain ⟨region, behind⟩ := read
                obtain ⟨inside, rfl⟩ := Region.exists_eq_append_of_read? hread
                exact ⟨_, behind, some region, rfl, hread⟩
          obtain ⟨taken, behind, region?, rfl, htakes⟩ := htaken
          refine step gap taken behind region? hbound hgap htakes (ih behind.length ?_ behind rfl)
          have hpos := List.length_pos_iff.mpr htakes.ne_nil
          simp only [List.length_append] at hlength
          omega

/-- An occurrence of the keyword at which a scan stops, with the source around it. -/
structure Stop (source : List Char) where
  before : List Char
  /-- The text of a region, or the keyword alone. -/
  taken : List Char
  behind : List Char
  region? : Option Region
  eq_source : before ++ (taken ++ behind) = source
  takes : Takes taken behind region?

/-- What a scan records of a stop. -/
def Stop.sighting {source : List Char} (stop : Stop source) : Sighting :=
  { offset := byteLength stop.before, region? := stop.region? }

/-- Stops in the order of the source, the first one behind `done`, with nothing but
sheltered keywords in the gaps. -/
def Consecutive {source : List Char} : List Char → List (Stop source) → Prop
  | done, [] => ∃ gap, done ++ gap = source ∧ Sheltered [] gap []
  | done, stop :: later =>
    (∃ gap, stop.before = done ++ gap ∧ endsInWord gap = false ∧
      Sheltered [] gap (stop.taken ++ stop.behind)) ∧
    Consecutive (stop.before ++ stop.taken) later

theorem exists_stops_behind (source text : List Char) :
    ∀ done, done ++ text = source → ∃ stops : List (Stop source),
      scanFrom (byteLength source) text = stops.map Stop.sighting ∧ Consecutive done stops := by
  induction text using scan_induction with
  | finish gap hgap =>
      intro done hsource
      exact ⟨[], scanFrom_of_sheltered _ hgap, gap, hsource, hgap⟩
  | step gap taken behind region? hbound hgap htakes ih =>
      intro done hsource
      let stop : Stop source :=
        { before := done ++ gap
          taken
          behind
          region?
          eq_source := by rw [← hsource, List.append_assoc]
          takes := htakes }
      obtain ⟨later, hscan, hlater⟩ := ih (stop.before ++ stop.taken) (by
        rw [List.append_assoc]
        exact stop.eq_source)
      refine ⟨stop :: later, ?_, ⟨gap, rfl, hbound, hgap⟩, hlater⟩
      have hoffset : byteLength source - byteLength (taken ++ behind) =
          byteLength stop.before := by
        have hsize := congrArg byteLength stop.eq_source
        rw [byteLength_append] at hsize
        exact Nat.sub_eq_of_eq_add hsize.symm
      rw [scanFrom_append _ hbound hgap htakes, hscan, hoffset]
      rfl

/-- The sightings of a scan are those of consecutive stops. -/
theorem exists_stops (source : List Char) :
    ∃ stops : List (Stop source),
      scan source = stops.map Stop.sighting ∧ Consecutive [] stops :=
  exists_stops_behind source source [] rfl

end VerilogOutline.Sighting
