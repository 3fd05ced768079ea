import VerilogOutline.Module
import VerilogOutline.Region

/-!
# Recorded computations

A value together with the events that came up on the way to it, in order. Events
are what is worth telling while sources are read and designs are changed. An
event holds the facts; its level and its wording follow from them.
-/

namespace VerilogOutline

/-- How much attention an event asks for. -/
inductive Level where
  | warn
  | debug
  | trace
  deriving DecidableEq, Repr

inductive Event where
  | regionFound (region : Region)
  /-- The keyword `module` at a byte offset begins no region. -/
  | keywordPassed (offset : Nat)
  /-- A port declaration is followed by text that is not read. -/
  | tailIgnored (tail portName : String)
  | portRead (port : Port)
  | entrySkipped (entry : String)
  | moduleRejected (rejection : Rejection)
  /-- A module of a file was left out of a design. -/
  | moduleLeftOut (path : String) (rejection : Rejection)
  /-- A file does not have the extension that is asked for. -/
  | fileIgnored (path extension : String)
  | fileMissing (path : String)
  /-- Some bytes of a file spell no characters. -/
  | fileUndecodable (path : String)
  | fileLoaded (path : String) (size : Nat)
  | instantiated (moduleName instanceName : String)
  | duplicated (instanceName copyName : String)
  deriving DecidableEq, Repr

namespace Event

/-- The level of an event: losses warn, single ports and keywords only trace. -/
def level : Event → Level
  | regionFound _ => .debug
  | keywordPassed _ => .trace
  | tailIgnored _ _ => .trace
  | portRead _ => .trace
  | entrySkipped _ => .warn
  | moduleRejected _ => .warn
  | moduleLeftOut _ _ => .warn
  | fileIgnored _ _ => .debug
  | fileMissing _ => .warn
  | fileUndecodable _ => .warn
  | fileLoaded _ _ => .debug
  | instantiated _ _ => .debug
  | duplicated _ _ => .debug

/-- How the event of a port shows its direction. -/
def directionText : Option Direction → String
  | none => "None"
  | some .input => "Some(Input)"
  | some .output => "Some(Output)"
  | some .inout => "Some(Inout)"

/-- How the event of a port shows its kind. -/
def kindText : Option NetKind → String
  | none => "None"
  | some .wire => "Some(Wire)"
  | some .reg => "Some(Reg)"

/-- The wording of an event. Sizes are in bytes of UTF-8. -/
def message : Event → String
  | regionFound region =>
    s!"found module '{region.name}' ({region.parameters.utf8ByteSize} parameter bytes, " ++
      s!"{region.ports.utf8ByteSize} port bytes)"
  | keywordPassed offset => s!"'module' at byte {offset} does not start a module region"
  | tailIgnored tail portName => s!"ignoring '{tail}' after port '{portName}'"
  | portRead port =>
    s!"port '{port.name}': {directionText port.direction} {kindText port.kind} " ++
      s!"signed={port.signed} width={port.width}"
  | entrySkipped entry => s!"skipping port entry '{entry}'"
  | moduleRejected rejection => rejection.message
  | moduleLeftOut path rejection => s!"'{path}': {rejection.message}"
  | fileIgnored path extension => s!"ignoring '{path}': not a .{extension} file"
  | fileMissing path => s!"'{path}' does not exist"
  | fileUndecodable path => s!"'{path}' is not valid UTF-8, undecodable bytes were replaced"
  | fileLoaded path size => s!"loaded '{path}' ({size} bytes)"
  | instantiated moduleName instanceName => s!"instantiating '{moduleName}' as '{instanceName}'"
  | duplicated instanceName copyName => s!"duplicating '{instanceName}' as '{copyName}'"

end Event

/-- A value and the events recorded while it was computed. -/
structure Recorded (α : Type) where
  value : α
  events : List Event := []

namespace Recorded

def record (events : List Event) : Recorded Unit :=
  { value := (), events }

instance : Monad Recorded where
  pure value := { value }
  bind x f :=
    let y := f x.value
    { value := y.value, events := x.events ++ y.events }

instance : LawfulMonad Recorded :=
  LawfulMonad.mk' Recorded
    (fun x => by cases x; simp [Functor.map])
    (fun x f => by simp [bind, pure])
    (fun x f g => by simp [bind, List.append_assoc])

variable {α β : Type}

@[simp] theorem value_record (events : List Event) : (record events).value = () := rfl

@[simp] theorem events_record (events : List Event) : (record events).events = events := rfl

@[simp] theorem value_pure (x : α) : (pure x : Recorded α).value = x := rfl

@[simp] theorem events_pure (x : α) : (pure x : Recorded α).events = [] := rfl

@[simp] theorem value_bind (x : Recorded α) (f : α → Recorded β) :
    (x >>= f).value = (f x.value).value := rfl

@[simp] theorem events_bind (x : Recorded α) (f : α → Recorded β) :
    (x >>= f).events = x.events ++ (f x.value).events := rfl

@[simp] theorem value_map (f : α → β) (x : Recorded α) : (f <$> x).value = f x.value := rfl

@[simp] theorem events_map (f : α → β) (x : Recorded α) : (f <$> x).events = x.events := by
  simp [Functor.map]

/-- Values of a list are computed independently of the events. -/
@[simp] theorem value_mapM (f : α → Recorded β) (xs : List α) :
    (xs.mapM f).value = xs.map fun x => (f x).value := by
  induction xs with
  | nil => rfl
  | cons x xs ih => simp [List.mapM_cons, ih]

/-- Events of a list come up in the order of its elements. -/
@[simp] theorem events_mapM (f : α → Recorded β) (xs : List α) :
    (xs.mapM f).events = xs.flatMap fun x => (f x).events := by
  induction xs with
  | nil => rfl
  | cons x xs ih => simp [List.mapM_cons, ih]

end Recorded

end VerilogOutline
