import VerilogOutline.Port.Basic

/-!
# Modules

The signature of a module: its parameters and ports. The body stays a text. A
parameter list is cut at its commas, whatever surrounds them. Each entry is a
name and a value around its first `=`, possibly behind the keyword `parameter`.
An entry without a value is a reason to reject the whole module.
-/

namespace VerilogOutline

open Text

/-- A module parameter. The value is kept as written. -/
structure Parameter where
  name : String
  value : String
  deriving DecidableEq, Repr

/-- The complaint about an entry of a parameter list that has no `=`. -/
structure MissingValue where
  /-- The entry, without the keyword. -/
  segment : String
  deriving DecidableEq, Repr

def MissingValue.message (complaint : MissingValue) : String :=
  s!"Parameter '{complaint.segment}' has no '=' and no value can be inferred"

namespace Parameter

/-- An entry without the keyword `parameter` in front. -/
def withoutKeyword (entry : List Char) : List Char :=
  match Lexeme.keyword? "parameter" entry with
  | some rest => dropSpace rest
  | none => entry

/-- The entries of a parameter list; those that are blank do not count. -/
def entries (text : List Char) : List (List Char) :=
  ((text.splitOn ',').map fun entry => withoutKeyword (trim entry)).filter
    fun entry => !(trim entry).isEmpty

/-- Read one entry, keyword already dropped. -/
def read (entry : List Char) : Except MissingValue Parameter :=
  match cutFirst? '=' entry with
  | some (name, value) =>
    .ok { name := String.ofList (trim name), value := String.ofList (trim value) }
  | none => .error { segment := String.ofList (trim entry) }

/-- Read the text between the parentheses of a parameter list. The first
entry without a value is reported. -/
def readList (text : List Char) : Except MissingValue (List Parameter) :=
  (entries text).mapM read

end Parameter

/-- A module as read from a source, or as edited since. -/
structure Module where
  name : String
  parameters : List Parameter := []
  ports : List Port := []
  /-- Everything between the header and `endmodule`, as written. -/
  body : String := ""
  /-- The number of port list entries that could not be read. -/
  skippedPorts : Nat := 0
  deriving DecidableEq, Repr

namespace Module

def port? (module : Module) (name : String) : Option Port :=
  module.ports.find? (·.name == name)

def parameter? (module : Module) (name : String) : Option Parameter :=
  module.parameters.find? (·.name == name)

def rename (module : Module) (name : String) : Module :=
  { module with name }

/-- Set the routing flags of the ports in order. Flags without a port have no
effect, and ports without a flag keep theirs. -/
def setRoutes (module : Module) (flags : List Bool) : Module :=
  let flagged := List.zipWith (fun port routeToTop => { port with routeToTop }) module.ports flags
  { module with ports := flagged ++ module.ports.drop flags.length }

def routeAll (module : Module) : Module :=
  { module with ports := module.ports.map ({ · with routeToTop := true }) }

/-- Whether every port is led to the top level. -/
def isRouted (module : Module) : Bool :=
  module.ports.all (·.routeToTop)

end Module

/-- The reason for which a module is rejected. -/
inductive Rejection where
  | parameters (moduleName : String) (complaint : MissingValue)
  | ports (moduleName : String) (skipped : Nat)
  deriving DecidableEq, Repr

namespace Rejection

def moduleName : Rejection → String
  | parameters moduleName _ => moduleName
  | ports moduleName _ => moduleName

def message : Rejection → String
  | parameters moduleName complaint => s!"In module '{moduleName}': {complaint.message}"
  | ports moduleName skipped =>
    s!"{skipped} port entries of module '{moduleName}' do not match the port grammar"

end Rejection

end VerilogOutline
