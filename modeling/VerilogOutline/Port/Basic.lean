import VerilogOutline.Text.Basic

/-!
# Ports

A port has a name, the attributes that its declaration and those before it give
it, and a routing flag that is left to the design. Attributes are handed from
one declaration to the next: `Attributes.declare` says what a declaration changes.
A declaration is written `[direction] [kind] [signed] [range] name`. What follows
the name, an initial value for instance, is left to the caller.
-/

namespace VerilogOutline

inductive Direction where
  | input
  | output
  | inout
  deriving DecidableEq, Repr

namespace Direction

def all : List Direction := [.input, .output, .inout]

def keyword : Direction → String
  | input => "input"
  | output => "output"
  | inout => "inout"

end Direction

inductive NetKind where
  | wire
  | reg
  deriving DecidableEq, Repr

namespace NetKind

def all : List NetKind := [.wire, .reg]

def keyword : NetKind → String
  | wire => "wire"
  | reg => "reg"

end NetKind

/-- One entry of a port list as written. Only the name has to be there. -/
structure Declaration where
  direction : Option Direction := none
  kind : Option NetKind := none
  signed : Bool := false
  /-- The range, brackets included. -/
  range : Option String := none
  name : String
  deriving DecidableEq, Repr

/-- The width of a port that has no range. -/
def scalarWidth : String := "1"

/-- The attributes that a port list entry hands to the next one. -/
structure Attributes where
  /-- `none` until an entry names a direction. -/
  direction : Option Direction := none
  /-- `none` until an entry names a direction or a kind. -/
  kind : Option NetKind := none
  signed : Bool := false
  /-- A range as written, or `scalarWidth`. -/
  width : String := scalarWidth
  deriving DecidableEq, Repr

namespace Attributes

/-- A range replaces the width and nothing else. -/
def declareRange (range : Option String) (carried : Attributes) : Attributes :=
  match range with
  | some width => { carried with width }
  | none => carried

/-- The word `signed` makes the following ports signed and, again, scalar. -/
def declareSigned (signed : Bool) (carried : Attributes) : Attributes :=
  if signed then { carried with signed := true, width := scalarWidth } else carried

/-- A kind makes the following ports unsigned and scalar. -/
def declareKind (kind : Option NetKind) (carried : Attributes) : Attributes :=
  match kind with
  | some kind => { direction := carried.direction, kind := some kind }
  | none => carried

/-- A direction starts afresh, with unsigned scalar wires. -/
def declareDirection (direction : Option Direction) (carried : Attributes) : Attributes :=
  match direction with
  | some direction => { direction := some direction, kind := some .wire }
  | none => carried

/-- The attributes after a declaration: each one that it gives resets those
after it in the order direction, kind, sign, width. -/
def declare (carried : Attributes) (decl : Declaration) : Attributes :=
  carried |> declareDirection decl.direction |> declareKind decl.kind
    |> declareSigned decl.signed |> declareRange decl.range

end Attributes

structure Port extends Attributes where
  name : String
  /-- Whether the port is led to the top level of the design. -/
  routeToTop : Bool := true
  deriving DecidableEq, Repr

namespace Port

/-- The port that a declaration adds behind the carried attributes. -/
def ofDeclaration (carried : Attributes) (decl : Declaration) : Port :=
  { toAttributes := carried.declare decl, name := decl.name }

/-- The ports of consecutive declarations, each under the attributes of the one before. -/
def ofDeclarations (carried : Attributes) : List Declaration → List Port
  | [] => []
  | decl :: rest =>
    let port := ofDeclaration carried decl
    port :: ofDeclarations port.toAttributes rest

/-- Whether the port is one bit wide. -/
def isScalar (port : Port) : Bool :=
  port.width == scalarWidth

end Port

open Text Lexeme

/-- The direction whose keyword starts a text. -/
def Direction.read? (text : List Char) : Option (Direction × List Char) :=
  all.findSome? fun direction => (keyword? direction.keyword text).map (direction, ·)

/-- The kind of net whose keyword starts a text. -/
def NetKind.read? (text : List Char) : Option (NetKind × List Char) :=
  all.findSome? fun kind => (keyword? kind.keyword text).map (kind, ·)

namespace Declaration

/-- The complaint about a declaration without a name. -/
structure MissingName where
  /-- The text that was found where the name should be. -/
  found : List Char
  deriving DecidableEq, Repr

/-- Read a declaration and return the text behind it. Callers go by what it returns:
it does not unfold on its own. -/
@[irreducible] def read (text : List Char) : Except MissingName (Declaration × List Char) :=
  let (direction, text) := optional Direction.read? text
  let (kind, text) := optional NetKind.read? text
  let (signed, text) := optional (fun text => (keyword? "signed" text).map ((), ·)) text
  let (range, text) := optional range? text
  let text := dropSpace text
  match identifier? text with
  | some (name, rest) =>
    let decl := { direction, kind, signed := signed.isSome, range := range.map String.ofList,
                  name := String.ofList name }
    .ok (decl, dropSpace rest)
  | none => .error { found := text }

end Declaration

end VerilogOutline
