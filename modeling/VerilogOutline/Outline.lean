import VerilogOutline.Comment
import VerilogOutline.Files
import VerilogOutline.Port.List
import VerilogOutline.Sighting
import VerilogOutline.Text.Utf8

/-!
# Outlines

A region becomes a module by reading its two lists. The parameters come first:
if one has no value the ports are not looked at. The outline of a source holds its
modules and the reasons for which others were rejected. A module that is rejected
does not affect its neighbours.
-/

namespace VerilogOutline

namespace Module

/-- Read the lists of a region. -/
def ofRegion (options : Options) (region : Region) : Recorded (Except Rejection Module) :=
  match Parameter.readList region.parameters.toList with
  | .error complaint => return .error (.parameters region.name complaint)
  | .ok parameters => do
    let list := PortList.read region.ports.toList
    Recorded.record list.events
    if options.strictPorts && list.skipped != 0 then
      return .error (.ports region.name list.skipped)
    else
      return .ok {
        name := region.name
        parameters
        ports := list.ports
        body := region.body
        skippedPorts := list.skipped }

end Module

/-- What a source declares. -/
structure Outline where
  modules : List Module := []
  rejected : List Rejection := []
  deriving DecidableEq, Repr

namespace Outline

def module? (outline : Outline) (name : String) : Option Module :=
  outline.modules.find? (·.name == name)

/-- The rejection among the results of reading a module. -/
def rejection? : Except Rejection Module → Option Rejection
  | .ok _ => none
  | .error rejection => some rejection

/-- Modules and rejections apart, each in order. -/
def ofResults (results : List (Except Rejection Module)) : Outline :=
  { modules := results.filterMap (·.toOption), rejected := results.filterMap rejection? }

theorem mem_modules_ofResults {results : List (Except Rejection Module)} {module : Module} :
    module ∈ (ofResults results).modules ↔ .ok module ∈ results := by
  rw [ofResults, List.mem_filterMap]
  constructor
  · rintro ⟨result, hmem, hresult⟩
    cases result with
    | ok found =>
      obtain rfl := Option.some.inj hresult
      exact hmem
    | error _ => contradiction
  · intro hmem
    exact ⟨.ok module, hmem, rfl⟩

/-- Read every module region of a source, in order. -/
def readModules (options : Options) (source : String) :
    Recorded (List (Except Rejection Module)) := do
  let sightings := Sighting.scan (Comment.strip source.toList)
  Recorded.record (sightings.map Sighting.event)
  (Sighting.regions sightings).mapM (Module.ofRegion options)

theorem value_readModules (options : Options) (source : String) :
    (readModules options source).value =
      (Sighting.regions (Sighting.scan (Comment.strip source.toList))).map fun region =>
        (Module.ofRegion options region).value := by
  simp [readModules]

def load (options : Options) (source : String) : Recorded Outline := do
  let results ← readModules options source
  let outline := ofResults results
  Recorded.record (outline.rejected.map .moduleRejected)
  return outline

theorem value_load (options : Options) (source : String) :
    (load options source).value = ofResults (readModules options source).value :=
  rfl

/-- A module of an outline is read from one of the regions. -/
theorem exists_region_of_mem_load {options : Options} {source : String} {module : Module}
    (h : module ∈ (load options source).value.modules) :
    ∃ region ∈ Sighting.regions (Sighting.scan (Comment.strip source.toList)),
      (Module.ofRegion options region).value = .ok module := by
  rw [value_load, mem_modules_ofResults, value_readModules] at h
  exact List.mem_map.mp h

/-- The outline of a file. A file that is not accepted or does not exist is
outlined as empty. -/
def loadFile (options : Options) (disk : Disk) (path : String) :
    Recorded (Except ReadFailure Outline) :=
  if options.accepts path then
    match disk path with
    | .missing => do
      Recorded.record [.fileMissing path]
      return .ok {}
    | .failed failure => return .error failure
    | .found bytes => do
      Recorded.record (if Utf8.isValid bytes then [] else [.fileUndecodable path])
      Recorded.record [.fileLoaded path bytes.length]
      let outline ← load options (Utf8.text bytes)
      return .ok outline
  else do
    Recorded.record [.fileIgnored path options.extension]
    return .ok {}

end Outline

end VerilogOutline
