import VerilogOutline.Recorded

/-!
# Port lists

A port list is cut at its commas. Entries that cannot be read are kept apart:
they neither hand attributes on nor stop those before them from being handed on.
-/

namespace VerilogOutline

open Text

/-- What became of an entry of a port list. -/
inductive PortEntry where
  /-- A port, and the text behind its declaration that was not read. -/
  | port (port : Port) (tail : String)
  | unreadable (entry : String)
  deriving DecidableEq, Repr

namespace PortEntry

def port? : PortEntry → Option Port
  | .port p _ => some p
  | .unreadable _ => none

def isUnreadable : PortEntry → Bool
  | .port _ _ => false
  | .unreadable _ => true

/-- What is told of an entry. -/
def events : PortEntry → List Event
  | .port p tail => (if tail = "" then [] else [.tailIgnored tail p.name]) ++ [.portRead p]
  | .unreadable entry => [.entrySkipped entry]

end PortEntry

/-- The entries of a port list, in order. -/
structure PortList where
  entries : List PortEntry
  deriving DecidableEq, Repr

namespace PortList

def ports (list : PortList) : List Port :=
  list.entries.filterMap PortEntry.port?

def skipped (list : PortList) : Nat :=
  list.entries.countP PortEntry.isUnreadable

def events (list : PortList) : List Event :=
  list.entries.flatMap PortEntry.events

/-- The texts between the commas of a port list, trimmed; those that are
blank do not count. -/
def entryTexts (text : List Char) : List (List Char) :=
  ((text.splitOn ',').map trim).filter (!·.isEmpty)

/-- Read entries under carried attributes. -/
def readEntries (carried : Attributes) : List (List Char) → List PortEntry
  | [] => []
  | entry :: rest =>
    match Declaration.read entry with
    | .ok (decl, tail) =>
      let port := Port.ofDeclaration carried decl
      .port port (String.ofList tail) :: readEntries port.toAttributes rest
    | .error _ => .unreadable (String.ofList entry) :: readEntries carried rest

/-- Read the text between the parentheses of a port list. Nothing is carried
into it from elsewhere. -/
def read (text : List Char) : PortList :=
  { entries := readEntries {} (entryTexts text) }

end PortList

end VerilogOutline
