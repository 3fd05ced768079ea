import VerilogOutline.Design

/-!
# The command

The command lists the modules of the files it is given, instance by instance: a
line for the module, one for each parameter and each port, and a note if port list
entries are missing. Without files it lists a sample. The first file that cannot be
read ends it, and then nothing is listed.
-/

namespace VerilogOutline

namespace Listing

/-- The text followed by spaces up to a width in characters. -/
def alignLeft (width : Nat) (text : String) : String :=
  String.ofList (text.toList.rightpad width ' ')

/-- The text led by spaces up to a width in characters. -/
def alignRight (width : Nat) (text : String) : String :=
  String.ofList (text.toList.leftpad width ' ')

def parameterLine (parameter : Parameter) : String :=
  s!"  parameter {parameter.name} = {parameter.value}"

/-- The line of a port, in columns. -/
def portLine (port : Port) : String :=
  let direction := (port.direction.map Direction.keyword).getD "-"
  let kind := (port.kind.map NetKind.keyword).getD "-"
  let signed := if port.signed then "signed" else ""
  s!"  {alignLeft 6 direction} {alignLeft 4 kind} {alignLeft 6 signed} " ++
    s!"{alignRight 10 port.width} {port.name}"

def moduleLines (module : Module) : List String :=
  s!"module {module.name}" :: module.parameters.map parameterLine ++ module.ports.map portLine ++
    if module.skippedPorts = 0 then []
    else [s!"  ({module.skippedPorts} unreadable port entries)"]

def outlineLines (outline : Outline) : List String :=
  outline.modules.flatMap moduleLines

/-- The lines of a design, with a heading for each sub-module. -/
def designLines (design : Design) : List String :=
  design.subModules.flatMap fun subModule =>
    s!"{subModule.instanceName} ({subModule.filename})" :: moduleLines subModule.module

/-- Lines as a text in which every line is ended. -/
def ofLines (lines : List String) : String :=
  String.join (lines.map (· ++ "\n"))

end Listing

namespace Command

/-- The source that is listed when there are no files. -/
def sample : String :=
  "
module adder #(
    parameter WIDTH = 4
) (
    input  wire [WIDTH-1:0] a, b,
    output reg  [WIDTH:0]   sum
);
    always @(*) sum = a + b; // body is kept verbatim
endmodule
    "

/-- The design of the files, in order. -/
def gather (disk : Disk) (design : Design) :
    List String → Recorded (Except Design.Failure Design)
  | [] => return .ok design
  | path :: rest => do
    match ← design.addFile {} disk path with
    | (.ok _, design) => gather disk design rest
    | (.error failure, _) => return .error failure

/-- The text that the command prints for its arguments. -/
def output (disk : Disk) (paths : List String) : Recorded (Except Design.Failure String) := do
  if paths.isEmpty then
    let outline ← Outline.load {} sample
    return .ok (Listing.ofLines (Listing.outlineLines outline))
  else
    match ← gather disk {} paths with
    | .ok design => return .ok (Listing.ofLines (Listing.designLines design))
    | .error failure => return .error failure

end Command

end VerilogOutline
