/-!
# Reading UTF-8 with gaps

Bytes are read one at a time by a machine that is either between characters or
inside one. A byte that cannot continue the character begun ends it as
undecodable and is then read afresh, so every undecodable stretch is as long as
it can be while still the beginning of some character. An ASCII byte is always
read as itself: it never continues a character.
-/

namespace VerilogOutline.Utf8

/-- A character of which some bytes have been read. -/
structure Pending where
  /-- The bits read so far. -/
  code : Nat
  /-- The number of bytes still missing after the next one. -/
  owed : Nat
  /-- The least value that the next byte may have. -/
  low : UInt8 := 0x80
  /-- The greatest value that the next byte may have. -/
  high : UInt8 := 0xBF
  /-- No ASCII byte is admitted. -/
  low_ge : 0x80 ≤ low := by decide
  deriving DecidableEq, Repr

/-- What reading a byte leads to. -/
inductive Step where
  /-- A character is complete, or (`none`) found undecodable. -/
  | done (char : Option Char)
  /-- More bytes are needed. -/
  | more (pending : Pending)
  deriving DecidableEq, Repr

/-- Read the first byte of a character. The narrower ranges for the second
byte rule out overlong forms, surrogates and numbers beyond the last character. -/
def first (b : UInt8) : Step :=
  if b < 0x80 then .done (some (Char.ofNat b.toNat))
  else if 0xC2 ≤ b ∧ b ≤ 0xDF then .more { code := b.toNat - 0xC0, owed := 0 }
  else if b = 0xE0 then .more { code := 0, owed := 1, low := 0xA0 }
  else if b = 0xED then .more { code := 0xD, owed := 1, high := 0x9F }
  else if 0xE1 ≤ b ∧ b ≤ 0xEF then .more { code := b.toNat - 0xE0, owed := 1 }
  else if b = 0xF0 then .more { code := 0, owed := 2, low := 0x90 }
  else if 0xF1 ≤ b ∧ b ≤ 0xF3 then .more { code := b.toNat - 0xF0, owed := 2 }
  else if b = 0xF4 then .more { code := 4, owed := 2, high := 0x8F }
  else .done none

/-- Read a further byte of a character, unless it does not continue it. -/
def Pending.next? (pending : Pending) (b : UInt8) : Option Step :=
  if pending.low ≤ b ∧ b ≤ pending.high then
    let code := pending.code * 64 + (b.toNat - 0x80)
    match pending.owed with
    | 0 => some (.done (some (Char.ofNat code)))
    | owed + 1 => some (.more { code, owed })
  else none

/-- The characters that the bytes spell from a state of the machine on, with
`none` for each undecodable stretch. -/
def decodeFrom : Option Pending → List UInt8 → List (Option Char)
  | none, [] => []
  | some _, [] => [none]
  | none, b :: bytes =>
    match first b with
    | .done char => char :: decodeFrom none bytes
    | .more pending => decodeFrom (some pending) bytes
  | some begun, b :: bytes =>
    match begun.next? b with
    | some (.done char) => char :: decodeFrom none bytes
    | some (.more pending) => decodeFrom (some pending) bytes
    | none =>
      match first b with
      | .done char => none :: char :: decodeFrom none bytes
      | .more pending => none :: decodeFrom (some pending) bytes

/-- The characters that the bytes spell, with `none` for each undecodable stretch. -/
def decode (bytes : List UInt8) : List (Option Char) :=
  decodeFrom none bytes

/-- The character that stands for an undecodable stretch. -/
def replacement : Char := '\ufffd'

/-- The text that the bytes spell, undecodable stretches replaced. -/
def text (bytes : List UInt8) : String :=
  String.ofList ((decode bytes).map (·.getD replacement))

/-- Whether every byte belongs to a character. -/
def isValid (bytes : List UInt8) : Bool :=
  (decode bytes).all Option.isSome

theorem Pending.next?_ascii (pending : Pending) {b : UInt8} (h : b < 0x80) :
    pending.next? b = none := by
  have hlow : ¬ pending.low ≤ b := UInt8.not_le.mpr (UInt8.lt_of_lt_of_le h pending.low_ge)
  simp [Pending.next?, hlow]

/-- An ASCII byte is read as itself, whatever stands before it. -/
theorem decodeFrom_append_ascii (state : Option Pending) (before after : List UInt8) {b : UInt8}
    (h : b < 0x80) :
    decodeFrom state (before ++ b :: after) =
      decodeFrom state before ++ some (Char.ofNat b.toNat) :: decodeFrom none after := by
  have hfirst : first b = .done (some (Char.ofNat b.toNat)) := by simp [first, h]
  induction before generalizing state with
  | nil =>
    cases state with
    | none => simp [decodeFrom, hfirst]
    | some pending => simp [decodeFrom, hfirst, pending.next?_ascii h]
  | cons c before ih =>
    cases state <;> simp only [List.cons_append, decodeFrom] <;> repeat' split <;> simp [ih]

end VerilogOutline.Utf8
