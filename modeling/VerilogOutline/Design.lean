import VerilogOutline.InstanceNames
import VerilogOutline.Outline

/-!
# Designs

A design holds sub-modules: modules placed under instance names. The names in
use are kept beside the sub-modules, so that a name is granted once and becomes
free with the removal of its sub-module. An operation returns its result together
with the design as it leaves it, also where the result is a failure. Every way of
changing a design is an action as well, so that whole courses of actions can be run
and spoken of.
-/

namespace VerilogOutline

/-- A module placed in a design. -/
structure SubModule where
  /-- The path of the file that the module comes from, as given. -/
  source : String
  /-- The last part of the path. -/
  filename : String
  module : Module
  instanceName : String
  /-- Whether the module is provided from outside; its ports may then stay unrouted. -/
  external : Bool := false
  deriving DecidableEq, Repr

/-- The sub-modules of a design and the instance names in use. -/
structure Design where
  subModules : List SubModule := []
  names : InstanceNames := {}

namespace Design

/-- The reason for which an operation fails. -/
inductive Failure where
  | read (failure : ReadFailure)
  | noSuchInstance (index : Nat)
  deriving DecidableEq, Repr

def Failure.message : Failure → String
  | read failure => failure.message
  | noSuchInstance index => s!"No sub-module at index {index}"

def size (design : Design) : Nat :=
  design.subModules.length

def isEmpty (design : Design) : Bool :=
  design.subModules.isEmpty

def get? (design : Design) (index : Nat) : Option SubModule :=
  design.subModules[index]?

def find? (design : Design) (instanceName : String) : Option SubModule :=
  design.subModules.find? (·.instanceName == instanceName)

/-- Place an instance of a module at the end, and return its name. -/
def addModule (design : Design) (module : Module) (source : String) :
    Recorded (String × Design) := do
  let (instanceName, names) := design.names.instantiate module.name
  Recorded.record [.instantiated module.name instanceName]
  let filename := (Path.fileName? source).getD ""
  let subModule := { source, filename, module, instanceName }
  return (instanceName, { subModules := design.subModules ++ [subModule], names })

/-- Place one instance of each module at the end, and return their names. -/
def addModules (design : Design) (source : String) :
    List Module → Recorded (List String × Design)
  | [] => return ([], design)
  | module :: rest => do
    let (instanceName, design) ← design.addModule module source
    let (instanceNames, design) ← design.addModules source rest
    return (instanceName :: instanceNames, design)

/-- Place one instance of each module of a file at the end, and return how
many there are. Rejected modules are left out. -/
def addFile (design : Design) (options : Options) (disk : Disk) (path : String) :
    Recorded (Except Failure Nat × Design) := do
  match ← Outline.loadFile options disk path with
  | .error failure => return (.error (.read failure), design)
  | .ok outline =>
    Recorded.record (outline.rejected.map (.moduleLeftOut path))
    let (instanceNames, design) ← design.addModules path outline.modules
    return (.ok instanceNames.length, design)

/-- Place a copy of the sub-module at an index at the end, under a name of its
own, and return the name. -/
def duplicate (design : Design) (index : Nat) : Recorded (Except Failure String × Design) :=
  match design.get? index with
  | none => return (.error (.noSuchInstance index), design)
  | some subModule => do
    let (instanceName, names) := design.names.duplicate subModule.instanceName
    Recorded.record [.duplicated subModule.instanceName instanceName]
    let copy := { subModule with instanceName }
    return (.ok instanceName, { subModules := design.subModules ++ [copy], names })

/-- Take out the sub-module at an index, and return it. Its name becomes free. -/
def remove (design : Design) (index : Nat) : Except Failure SubModule × Design :=
  match design.get? index with
  | none => (.error (.noSuchInstance index), design)
  | some subModule =>
    (.ok subModule,
      { subModules := design.subModules.eraseIdx index
        names := design.names.erase subModule.instanceName })

/-- Mark the sub-module at an index as external or not. One that is not has all
of its ports led to the top level. -/
def setExternal (design : Design) (index : Nat) (external : Bool) : Except Failure Unit × Design :=
  match design.get? index with
  | none => (.error (.noSuchInstance index), design)
  | some subModule =>
    let module := if external then subModule.module else subModule.module.routeAll
    let marked := { subModule with external, module }
    (.ok (), { design with subModules := design.subModules.set index marked })

/-- Change the module of the sub-module at an index, and tell whether there is one. -/
def editModule (design : Design) (index : Nat) (edit : Module → Module) : Bool × Design :=
  match design.get? index with
  | none => (false, design)
  | some subModule =>
    let edited := { subModule with module := edit subModule.module }
    (true, { design with subModules := design.subModules.set index edited })

/-- A change that is asked of a design. -/
inductive Action where
  /-- Add the modules of a file, as it is on the disk of the moment. -/
  | addFile (options : Options) (disk : Disk) (path : String)
  /-- Add modules that come from elsewhere under a path. -/
  | addModules (modules : List Module) (source : String)
  /-- Add another instance of the module of a sub-module under a path. -/
  | addAgain (index : Nat) (source : String)
  | duplicate (index : Nat)
  | remove (index : Nat)
  | setExternal (index : Nat) (external : Bool)
  | edit (index : Nat) (edit : Module → Module)

/-- What an action yields besides the changed design. -/
inductive Reply where
  /-- The number of sub-modules that were added. -/
  | count (added : Nat)
  /-- The instance names of the sub-modules that were added. -/
  | names (instanceNames : List String)
  /-- The sub-module that was taken out. -/
  | removed (subModule : SubModule)
  | done
  /-- There was no sub-module to work on. -/
  | nothing
  | failed (failure : Failure)
  deriving DecidableEq, Repr

/-- The reply that tells of the result of an operation. -/
def Reply.ofResult {α : Type} (reply : α → Reply) : Except Failure α → Reply
  | .ok value => reply value
  | .error failure => .failed failure

def perform (design : Design) : Action → Recorded (Reply × Design)
  | .addFile options disk path => do
    let (result, changed) ← design.addFile options disk path
    return (.ofResult .count result, changed)
  | .addModules modules source => do
    let (instanceNames, changed) ← design.addModules source modules
    return (.names instanceNames, changed)
  | .addAgain index source =>
    match design.get? index with
    | none => return (.nothing, design)
    | some subModule => do
      let (instanceName, changed) ← design.addModule subModule.module source
      return (.names [instanceName], changed)
  | .duplicate index => do
    let (result, changed) ← design.duplicate index
    return (.ofResult (.names [·]) result, changed)
  | .remove index =>
    let (result, changed) := design.remove index
    return (.ofResult .removed result, changed)
  | .setExternal index external =>
    let (result, changed) := design.setExternal index external
    return (.ofResult (fun () => .done) result, changed)
  | .edit index edit =>
    let (found, changed) := design.editModule index edit
    return (if found then .done else .nothing, changed)

/-- Carry out actions one after the other, and return the replies. -/
def run (design : Design) : List Action → Recorded (List Reply × Design)
  | [] => return ([], design)
  | action :: rest => do
    let (reply, design) ← design.perform action
    let (replies, design) ← design.run rest
    return (reply :: replies, design)

end Design

end VerilogOutline
