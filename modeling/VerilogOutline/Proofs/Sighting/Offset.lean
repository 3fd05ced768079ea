import VerilogOutline.Proofs.Sighting.Stop

/-!
# Where the keywords stand

The offset of a keyword is the difference of two sizes, that of the source and that of the text
from the keyword on. As a scan only ever looks at ends of the source, the difference counts
the bytes in front of the keyword. Each stop lies behind all that was taken up before it, so
the offsets ascend and no keyword is looked at twice.
-/

namespace VerilogOutline.Sighting

open Text Lexeme

/-- The sighting in a source that has so many more bytes in front. -/
def shift (bytes : Nat) (sighting : Sighting) : Sighting :=
  { sighting with offset := bytes + sighting.offset }

/-- The sighting is made at the keyword in front of `rest`: it tells how far that is into the
source and what can be read there. -/
structure MadeAt (source before rest : List Char) (sighting : Sighting) : Prop where
  eq_source : before ++ rest = source
  module_first : "module".toList <+: rest
  region?_eq : sighting.region? = (Region.read? rest).map Prod.fst
  offset_eq : sighting.offset = (String.ofList before).utf8ByteSize
  /-- The size of the rest can be taken from that of the source. -/
  offset_add : sighting.offset + (String.ofList rest).utf8ByteSize =
    (String.ofList source).utf8ByteSize

theorem Takes.region?_eq {taken behind : List Char} {region? : Option Region}
    (h : Takes taken behind region?) : region? = (Region.read? (taken ++ behind)).map Prod.fst := by
  cases region? with
  | none => rw [h.2, Option.map_none]
  | some region =>
      have hread : Region.read? (taken ++ behind) = some (region, behind) := h
      rw [hread, Option.map_some]

theorem Stop.madeAt {source : List Char} (stop : Stop source) :
    MadeAt source stop.before (stop.taken ++ stop.behind) stop.sighting where
  eq_source := stop.eq_source
  module_first := stop.takes.module_first.trans (List.prefix_append _ _)
  region?_eq := stop.takes.region?_eq
  offset_eq := (utf8ByteSize_ofList stop.before).symm
  offset_add := by
    have hsize := congrArg byteLength stop.eq_source
    rw [byteLength_append] at hsize
    rwa [utf8ByteSize_ofList, utf8ByteSize_ofList]

section Consecutive

variable {source done : List Char} {stops : List (Stop source)}

theorem Consecutive.done_first (h : Consecutive done stops) :
    ∀ stop ∈ stops, done <+: stop.before := by
  induction stops generalizing done with
  | nil =>
      intro stop hstop
      contradiction
  | cons first later ih =>
      obtain ⟨⟨gap, hbefore, _⟩, hlater⟩ := h
      have hfirst : done <+: first.before := hbefore ▸ List.prefix_append done gap
      rw [List.forall_mem_cons]
      refine ⟨hfirst, fun stop hstop => ?_⟩
      exact hfirst.trans ((List.prefix_append _ _).trans (ih hlater stop hstop))

/-- A stop lies behind the text that was taken up at the stops before it. -/
theorem Consecutive.pairwise (h : Consecutive done stops) :
    stops.Pairwise fun earlier later => earlier.before ++ earlier.taken <+: later.before := by
  induction stops generalizing done with
  | nil => exact .nil
  | cons first later ih => exact .cons h.2.done_first (ih h.2)

theorem Consecutive.pairwise_offset (h : Consecutive done stops) :
    (stops.map Stop.sighting).Pairwise fun earlier later => earlier.offset < later.offset := by
  rw [List.pairwise_map]
  refine h.pairwise.imp fun {earlier later} hfirst => ?_
  obtain ⟨gap, hbefore⟩ := hfirst
  have hpos := byteLength_pos earlier.takes.ne_nil
  show byteLength earlier.before < byteLength later.before
  rw [← hbefore, byteLength_append, byteLength_append]
  omega

end Consecutive

/-- No offset is cut off at zero, as long as the text scanned is part of the source: bytes that
are added in front of the source are added to every offset. -/
theorem scanFrom_add (bytes : Nat) {size : Nat} {text : List Char} (h : byteLength text ≤ size) :
    scanFrom (bytes + size) text = (scanFrom size text).map (shift bytes) := by
  induction text using scan_induction with
  | finish gap hgap => rw [scanFrom_of_sheltered _ hgap, scanFrom_of_sheltered _ hgap, List.map_nil]
  | step gap taken behind region? hbound hgap htakes ih =>
      rw [byteLength_append] at h
      have hrest : byteLength (taken ++ behind) ≤ size := Nat.le_trans (Nat.le_add_left _ _) h
      have hbehind : byteLength behind ≤ size := by
        rw [byteLength_append] at hrest
        exact Nat.le_trans (Nat.le_add_left _ _) hrest
      rw [scanFrom_append _ hbound hgap htakes, scanFrom_append _ hbound hgap htakes, ih hbehind,
        List.map_cons, shift, Nat.add_sub_assoc hrest]

/-- Each sighting of a scan is made at a keyword of the source. -/
theorem exists_madeAt {source : List Char} :
    ∀ sighting ∈ scan source, ∃ before rest, MadeAt source before rest sighting := by
  obtain ⟨stops, hscan, _⟩ := exists_stops source
  rw [hscan, List.forall_mem_map]
  intro stop _
  exact ⟨stop.before, stop.taken ++ stop.behind, stop.madeAt⟩

theorem pairwise_scan (source : List Char) :
    (scan source).Pairwise fun earlier later => earlier.offset < later.offset := by
  obtain ⟨stops, hscan, hconsecutive⟩ := exists_stops source
  rw [hscan]
  exact hconsecutive.pairwise_offset

/-- Only a keyword that is passed over leaves a trace. -/
theorem keywordPassed_of_level_trace {sighting : Sighting} (h : sighting.event.level = .trace) :
    sighting.region? = none ∧ sighting.event = .keywordPassed sighting.offset := by
  obtain ⟨offset, region?⟩ := sighting
  cases region? with
  | none => exact ⟨rfl, rfl⟩
  | some region => contradiction

/-- Every keyword that a scan passes over is told of with the number of bytes in front of it, and
no region can be read from there. Every keyword that it looks at is at the offset it records,
for which it never subtracts too much, and the offsets ascend. -/
theorem scan_located (source : List Char) :
    (∀ event ∈ (scan source).map Sighting.event, event.level = .trace →
      ∃ before rest, before ++ rest = source ∧ "module".toList <+: rest ∧
        Region.read? rest = none ∧
        event.message = "'module' at byte " ++ toString (String.ofList before).utf8ByteSize ++
          " does not start a module region") ∧
    (∀ sighting ∈ scan source, ∃ before rest, MadeAt source before rest sighting) ∧
    (∀ bytes, scanFrom (bytes + byteLength source) source = (scan source).map (shift bytes)) ∧
    (scan source).Pairwise fun earlier later => earlier.offset < later.offset := by
  refine ⟨?_, exists_madeAt, fun bytes => scanFrom_add bytes (Nat.le_refl _),
    pairwise_scan source⟩
  rw [List.forall_mem_map]
  intro sighting hsighting htrace
  obtain ⟨before, rest, hplace⟩ := exists_madeAt sighting hsighting
  obtain ⟨hnone, hevent⟩ := keywordPassed_of_level_trace htrace
  have hread : Region.read? rest = none := by
    rwa [hplace.region?_eq, Option.map_eq_none_iff] at hnone
  refine ⟨before, rest, hplace.eq_source, hplace.module_first, hread, ?_⟩
  rw [hevent, hplace.offset_eq]
  rfl

/-- Behind a character of two bytes, a keyword that is passed over and a region. -/
example : (scan "µ module; module b; endmodule".toList).map Sighting.event =
    [.keywordPassed 3,
      .regionFound { name := "b", parameters := "", ports := "", body := " " }] ∧
    (scan "µ module; module b; endmodule".toList).map (·.offset) = [3, 11] := by
  decide +kernel

end VerilogOutline.Sighting
