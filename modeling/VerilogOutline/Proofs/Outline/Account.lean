import VerilogOutline.Proofs.Outline.Strict

/-!
# What the events of a load account for

Every region that is found, every port that is read and every loss is told by an event of
its own. A port list entry that cannot be read is told of with its list, a module that is
rejected when all regions have been read, and there are no other warnings.
-/

namespace VerilogOutline

namespace Event

def isEntrySkipped : Event → Bool
  | entrySkipped _ => true
  | _ => false

def isPortRead : Event → Bool
  | portRead _ => true
  | _ => false

/-- Whether the event warns of something else than a port list entry. -/
def isOtherWarning (event : Event) : Bool :=
  event.level = .warn && !event.isEntrySkipped

theorem level_of_isEntrySkipped {event : Event} (h : event.isEntrySkipped = true) :
    event.level = .warn := by
  cases event with
  | entrySkipped entry => rfl
  | _ => contradiction

end Event

/-- The number of port list entries for which a module is rejected. -/
def Rejection.skipped : Rejection → Nat
  | parameters _ _ => 0
  | ports _ skipped => skipped

namespace Sighting

variable {sightings : List Sighting} {event : Event}

theorem mem_map_event (h : event ∈ sightings.map Sighting.event) :
    event.level ≠ .warn ∧ event.isPortRead = false := by
  obtain ⟨⟨offset, region?⟩, _, rfl⟩ := List.mem_map.mp h
  cases region? with
  | none => simp [Sighting.event, Event.level, Event.isPortRead]
  | some region => simp [Sighting.event, Event.level, Event.isPortRead]

theorem filter_debug_map_event (sightings : List Sighting) :
    (sightings.map Sighting.event).filter (·.level = .debug) =
      (regions sightings).map .regionFound := by
  induction sightings with
  | nil => rfl
  | cons sighting sightings ih =>
      obtain ⟨offset, region?⟩ := sighting
      cases region? with
      | none => exact ih
      | some region => exact congrArg (.regionFound region :: ·) ih

end Sighting

namespace PortEntry

theorem countP_isEntrySkipped_events (entry : PortEntry) :
    entry.events.countP Event.isEntrySkipped = entry.isUnreadable.toNat := by
  cases entry with
  | port port tail =>
      by_cases htail : tail = "" <;> simp [events, htail, Event.isEntrySkipped, isUnreadable]
  | unreadable entry => rfl

theorem filter_isPortRead_events (entry : PortEntry) :
    entry.events.filter Event.isPortRead = (entry.port?.map Event.portRead).toList := by
  cases entry with
  | port port tail => by_cases htail : tail = "" <;> simp [events, htail, Event.isPortRead, port?]
  | unreadable entry => rfl

theorem level_of_mem_events {entry : PortEntry} {event : Event} (h : event ∈ entry.events) :
    event.level ≠ .debug ∧ (event.level = .warn → event.isEntrySkipped = true) := by
  cases entry with
  | port port tail =>
      by_cases htail : tail = ""
      · obtain rfl : event = .portRead port := by simpa [events, htail] using h
        simp [Event.level]
      · obtain rfl | rfl : event = .tailIgnored tail port.name ∨ event = .portRead port := by
          simpa [events, htail] using h
        all_goals simp [Event.level]
  | unreadable entry =>
      obtain rfl := List.mem_singleton.mp h
      simp [Event.level, Event.isEntrySkipped]

end PortEntry

namespace PortList

theorem countP_isEntrySkipped_events (list : PortList) :
    list.events.countP Event.isEntrySkipped = list.skipped := by
  obtain ⟨entries⟩ := list
  rw [events, skipped]
  induction entries with
  | nil => rfl
  | cons entry entries ih =>
      rw [List.flatMap_cons, List.countP_append, ih, List.countP_cons, Nat.add_comm,
        PortEntry.countP_isEntrySkipped_events]
      cases entry.isUnreadable <;> rfl

theorem filter_isPortRead_events (list : PortList) :
    list.events.filter Event.isPortRead = list.ports.map .portRead := by
  rw [events, ports, List.map_filterMap, List.filterMap_eq_flatMap_toList, List.filter_flatMap]
  simp only [PortEntry.filter_isPortRead_events]

end PortList

namespace Module

variable {options : Options} {region : Region}

/-- The events of a region are those of its port list, which is not read if a parameter
lacks its value. -/
theorem events_ofRegion :
    (ofRegion options region).events =
      match Parameter.readList region.parameters.toList with
      | .ok _ => (PortList.read region.ports.toList).events
      | .error _ => [] := by
  unfold ofRegion
  cases Parameter.readList region.parameters.toList with
  | error complaint => rfl
  | ok parameters =>
      simp only [Recorded.events_bind, Recorded.events_record]
      split <;> simp

theorem level_of_mem_events_ofRegion {event : Event}
    (h : event ∈ (ofRegion options region).events) :
    event.level ≠ .debug ∧ (event.level = .warn → event.isEntrySkipped = true) := by
  rw [events_ofRegion] at h
  split at h
  next =>
    obtain ⟨entry, _, hevent⟩ := List.mem_flatMap.mp h
    exact PortEntry.level_of_mem_events hevent
  next => contradiction

end Module

namespace Outline

/-- The number of port list entries that a result lacks, or was rejected for. -/
def skippedOf : Except Rejection Module → Nat
  | .ok module => module.skippedPorts
  | .error rejection => rejection.skipped

/-- The sum of the port list entries that the modules lack, and of those for which others
are rejected. -/
def skipped (outline : Outline) : Nat :=
  outline.modules.foldr (fun module total => module.skippedPorts + total) 0 +
    outline.rejected.foldr (fun rejection total => rejection.skipped + total) 0

theorem countP_events_ofRegion (options : Options) (region : Region) :
    (Module.ofRegion options region).events.countP Event.isEntrySkipped =
      skippedOf (Module.ofRegion options region).value := by
  rw [Module.events_ofRegion]
  unfold Module.ofRegion
  cases Parameter.readList region.parameters.toList with
  | error complaint => rfl
  | ok parameters =>
      simp only [Recorded.value_bind, PortList.countP_isEntrySkipped_events]
      split <;> rfl

/-- Ports are told of in either mode, also those of a module that is then rejected. -/
theorem filter_isPortRead_events_ofRegion (options : Options) (region : Region) :
    (Module.ofRegion options region).events.filter Event.isPortRead =
      ((Module.ofRegion options.lenient region).value.toOption.toList.flatMap (·.ports)).map
        .portRead := by
  rw [Module.events_ofRegion]
  unfold Module.ofRegion
  cases Parameter.readList region.parameters.toList with
  | error complaint => rfl
  | ok parameters =>
      simp [Options.lenient, PortList.filter_isPortRead_events, Except.toOption]

theorem length_ofResults (results : List (Except Rejection Module)) :
    (ofResults results).modules.length + (ofResults results).rejected.length =
      results.length := by
  induction results with
  | nil => rfl
  | cons result results ih =>
      cases result with
      | ok module => exact (Nat.add_right_comm _ _ _).trans (congrArg (· + 1) ih)
      | error rejection => exact congrArg (· + 1) ih

theorem skipped_ofResults_cons (result : Except Rejection Module)
    (results : List (Except Rejection Module)) :
    (ofResults (result :: results)).skipped = skippedOf result + (ofResults results).skipped := by
  cases result with
  | ok module => exact Nat.add_assoc _ _ _
  | error rejection => exact Nat.add_left_comm _ _ _

theorem countP_events_ofRegions (options : Options) (regions : List Region) :
    (regions.flatMap fun region => (Module.ofRegion options region).events).countP
        Event.isEntrySkipped =
      (ofResults (regions.map fun region => (Module.ofRegion options region).value)).skipped := by
  induction regions with
  | nil => rfl
  | cons region regions ih =>
      rw [List.flatMap_cons, List.countP_append, ih, countP_events_ofRegion, List.map_cons,
        skipped_ofResults_cons]

theorem level_of_mem_events_ofRegions {options : Options} {regions : List Region} {event : Event}
    (h : event ∈ regions.flatMap fun region => (Module.ofRegion options region).events) :
    event.level ≠ .debug ∧ (event.level = .warn → event.isEntrySkipped = true) := by
  obtain ⟨region, _, hevent⟩ := List.mem_flatMap.mp h
  exact Module.level_of_mem_events_ofRegion hevent

theorem events_load (options : Options) (source : String) :
    (load options source).events =
      (Sighting.scan (Comment.strip source.toList)).map Sighting.event ++
        ((regions source).flatMap fun region => (Module.ofRegion options region).events) ++
        (load options source).value.rejected.map .moduleRejected := by
  simp [load, readModules, regions]

section Views

variable (options : Options) (source : String)

theorem filter_debug_events_load :
    (load options source).events.filter (·.level = .debug) =
      (regions source).map .regionFound := by
  have hread : ((regions source).flatMap fun region =>
      (Module.ofRegion options region).events).filter (·.level = .debug) = [] := by
    refine List.filter_eq_nil_iff.mpr fun event hmem => ?_
    simpa using (level_of_mem_events_ofRegions hmem).1
  rw [events_load, List.filter_append, List.filter_append, Sighting.filter_debug_map_event, hread]
  simp [regions, Event.level]

theorem filter_isOtherWarning_events_load :
    (load options source).events.filter Event.isOtherWarning =
      (load options source).value.rejected.map .moduleRejected := by
  have hfound : ((Sighting.scan (Comment.strip source.toList)).map Sighting.event).filter
      Event.isOtherWarning = [] := by
    refine List.filter_eq_nil_iff.mpr fun event hmem => ?_
    simp [Event.isOtherWarning, (Sighting.mem_map_event hmem).1]
  have hread : ((regions source).flatMap fun region =>
      (Module.ofRegion options region).events).filter Event.isOtherWarning = [] := by
    refine List.filter_eq_nil_iff.mpr fun event hmem => ?_
    simpa [Event.isOtherWarning] using (level_of_mem_events_ofRegions hmem).2
  rw [events_load, List.filter_append, List.filter_append, hfound, hread]
  simp [List.filter_map, Function.comp_def, Event.isOtherWarning, Event.level,
    Event.isEntrySkipped]

theorem countP_isEntrySkipped_events_load :
    (load options source).events.countP Event.isEntrySkipped =
      (load options source).value.skipped := by
  have hfound : ((Sighting.scan (Comment.strip source.toList)).map Sighting.event).countP
      Event.isEntrySkipped = 0 := by
    refine List.countP_eq_zero.mpr fun event hmem hskipped => ?_
    exact (Sighting.mem_map_event hmem).1 (Event.level_of_isEntrySkipped hskipped)
  have hrejected : ((load options source).value.rejected.map Event.moduleRejected).countP
      Event.isEntrySkipped = 0 := by
    simp [Event.isEntrySkipped]
  rw [events_load, List.countP_append, List.countP_append, hfound, hrejected,
    countP_events_ofRegions, Nat.zero_add, Nat.add_zero, value_load, value_readModules, regions]

theorem filter_isPortRead_events_load :
    (load options source).events.filter Event.isPortRead =
      ((load options.lenient source).value.modules.flatMap (·.ports)).map .portRead := by
  have hfound : ((Sighting.scan (Comment.strip source.toList)).map Sighting.event).filter
      Event.isPortRead = [] := by
    refine List.filter_eq_nil_iff.mpr fun event hmem => ?_
    simp [(Sighting.mem_map_event hmem).2]
  have hrejected : ((load options source).value.rejected.map Event.moduleRejected).filter
      Event.isPortRead = [] := by
    simp [Event.isPortRead]
  rw [events_load, List.filter_append, List.filter_append, hfound, hrejected, List.nil_append,
    List.append_nil, List.filter_flatMap, value_load, value_readModules, ofResults,
    List.filterMap_eq_flatMap_toList, List.flatMap_map, List.flatMap_assoc, List.map_flatMap]
  simp only [filter_isPortRead_events_ofRegion, regions]

end Views

/-- What a load tells accounts for the source. Each region found is a module or a rejection of
the outline, and each port list entry that is skipped is counted at its module or in the
rejection of it. What is warned of besides are the rejections, in order. Ports are told of as
lenient reading keeps them. -/
theorem load_accounted (options : Options) (source : String) :
    (load options source).events.filter (·.level = .debug) =
        (regions source).map .regionFound ∧
      ((load options source).events.filter (·.level = .debug)).length =
        (load options source).value.modules.length +
          (load options source).value.rejected.length ∧
      (load options source).events.countP Event.isEntrySkipped =
        (load options source).value.skipped ∧
      (load options source).events.filter Event.isOtherWarning =
        (load options source).value.rejected.map .moduleRejected ∧
      ((load options source).events.filter Event.isOtherWarning).map (·.message) =
        (load options source).value.rejected.map (·.message) ∧
      (load options source).events.filter Event.isPortRead =
        ((load options.lenient source).value.modules.flatMap (·.ports)).map .portRead ∧
      (options.strictPorts = false →
        (load options source).events.filter Event.isPortRead =
          ((load options source).value.modules.flatMap (·.ports)).map .portRead) := by
  have hfound := filter_debug_events_load options source
  have hwarned := filter_isOtherWarning_events_load options source
  have hports := filter_isPortRead_events_load options source
  refine ⟨hfound, ?_, countP_isEntrySkipped_events_load options source, hwarned, ?_, hports, ?_⟩
  · rw [hfound, value_load, length_ofResults, value_readModules, List.length_map, List.length_map,
      regions]
  · rw [hwarned, List.map_map]
    rfl
  · intro hlenient
    obtain ⟨extension, strictPorts⟩ := options
    subst hlenient
    exact hports

/-- A module without the value of a parameter, one with an entry that is no port, a sound one,
and a keyword that begins nothing. -/
def mixedSource : String :=
  "module a #(W) (x, [1]); endmodule module b ([1], y q); endmodule module c (z); endmodule module"

theorem load_mixedSource :
    (load {} mixedSource).value.modules.map (·.name) = ["b", "c"] ∧
      (load {} mixedSource).value.rejected = [.parameters "a" { segment := "W" }] ∧
      (load {} mixedSource).events.countP Event.isEntrySkipped = 1 ∧
      (load {} mixedSource).events.filter Event.isPortRead =
        [.portRead { name := "y" }, .portRead { name := "z" }] := by
  have hports : (load {} mixedSource).value.modules.flatMap (·.ports) =
      [{ name := "y" }, { name := "z" }] := by
    decide +kernel
  refine ⟨by decide +kernel, by decide +kernel, by decide +kernel, ?_⟩
  rw [(load_accounted {} mixedSource).2.2.2.2.2.2 rfl, hports]
  rfl

/-- Strict reading rejects the module whose port it tells of. -/
example : (load (Options.strict {}) mixedSource).value.rejected =
    [.parameters "a" { segment := "W" }, .ports "b" 1] ∧
    (load (Options.strict {}) mixedSource).events.countP Event.isPortRead = 2 := by
  decide +kernel

end Outline

end VerilogOutline
