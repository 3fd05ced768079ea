import VerilogOutline.Text.Basic

/-!
# Instance names

The names that are in use. A name is a stem, an underscore and a number. It is
written in plain decimal; when it is taken apart, leading zeros are read over and
numbers beyond `Numbered.highest` do not count. A new instance of a module gets the
module's name with the lowest number that is free, a copy of an instance the next
number that is free behind its own.
-/

namespace VerilogOutline

namespace Numbered

open Text

/-- The highest number that a name may have. -/
def highest : Nat := UInt64.size - 1

/-- The name with a number behind a stem. -/
def name (stem : String) (number : Nat) : String :=
  stem ++ "_" ++ toString number

/-- The stem and the number of a name, which the last underscore separates. -/
def split? (name : String) : Option (String × Nat) := do
  let (stem, digits) ← cutLast? '_' name.toList
  guard (!digits.isEmpty && digits.all Char.isDigit)
  let number := Nat.ofDigitChars 10 digits 0
  guard (number ≤ highest)
  return (String.ofList stem, number)

theorem length_lt_length_name (stem : String) (number : Nat) :
    stem.length < (name stem number).length := by
  have : "_".length = 1 := rfl
  simp only [name, String.length_append]
  omega

end Numbered

/-- The instance names in use, without repetition. Their order has no meaning. -/
structure InstanceNames where
  toList : List String := []
  nodup : toList.Nodup := by exact List.nodup_nil

namespace InstanceNames

instance : Membership String InstanceNames where
  mem names name := name ∈ names.toList

instance (name : String) (names : InstanceNames) : Decidable (name ∈ names) :=
  inferInstanceAs (Decidable (name ∈ names.toList))

theorem mem_toList {name : String} {names : InstanceNames} :
    name ∈ names.toList ↔ name ∈ names :=
  Iff.rfl

def size (names : InstanceNames) : Nat :=
  names.toList.length

def insert (names : InstanceNames) (name : String) : InstanceNames :=
  if h : name ∈ names then names
  else { toList := name :: names.toList, nodup := List.nodup_cons.mpr ⟨h, names.nodup⟩ }

def erase (names : InstanceNames) (name : String) : InstanceNames :=
  { toList := names.toList.erase name, nodup := names.nodup.erase name }

def insertAll (names : InstanceNames) (added : List String) : InstanceNames :=
  added.foldl insert names

def ofList (added : List String) : InstanceNames :=
  insertAll {} added

/-- The length of the longest name in use. -/
def longest (names : InstanceNames) : Nat :=
  (names.toList.map String.length).foldr max 0

@[simp] theorem mem_insert {names : InstanceNames} {name other : String} :
    other ∈ names.insert name ↔ other = name ∨ other ∈ names := by
  unfold insert
  split
  next h => exact ⟨.inr, fun h' => h'.elim (· ▸ h) id⟩
  next => simp [← mem_toList]

@[simp] theorem mem_erase {names : InstanceNames} {name other : String} :
    other ∈ names.erase name ↔ other ≠ name ∧ other ∈ names :=
  names.nodup.mem_erase_iff

@[simp] theorem mem_insertAll {names : InstanceNames} {added : List String} {other : String} :
    other ∈ names.insertAll added ↔ other ∈ added ∨ other ∈ names := by
  unfold insertAll
  induction added generalizing names with
  | nil => simp
  | cons name added ih =>
    simp only [List.foldl_cons, ih, mem_insert, List.mem_cons]
    exact ⟨fun h => by obtain h | rfl | h := h <;> simp [*],
      fun h => by obtain (rfl | h) | h := h <;> simp [*]⟩

theorem length_le_longest {names : InstanceNames} {name : String} (h : name ∈ names) :
    name.length ≤ names.longest := by
  replace h := mem_toList.mpr h
  unfold longest
  generalize names.toList = list at h ⊢
  induction list with
  | nil => contradiction
  | cons first rest ih =>
    obtain rfl | h := List.mem_cons.mp h
    · exact Nat.le_max_left ..
    · exact Nat.le_trans (ih h) (Nat.le_max_right ..)

/-- The first name behind the stem, from a number on, that is free. -/
def firstFree? (names : InstanceNames) (stem : String) (number : Nat) : Option String :=
  if number ≤ Numbered.highest then
    if Numbered.name stem number ∈ names then names.firstFree? stem (number + 1)
    else some (Numbered.name stem number)
  else none
termination_by Numbered.highest + 1 - number

theorem mem_of_firstFree?_eq_none {names : InstanceNames} {stem : String}
    (h : names.firstFree? stem 1 = none) : Numbered.name stem 1 ∈ names := by
  unfold firstFree? at h
  split at h
  next =>
    split at h
    next hmem => exact hmem
    next => contradiction
  next hlimit => exact absurd (by decide) hlimit

/-- The next free name behind a name's own number, or else the first one behind
the whole name. -/
def numberedCopy? (names : InstanceNames) (name : String) : Option String :=
  let next? := do
    let (stem, number) ← Numbered.split? name
    names.firstFree? stem (number + 1)
  next?.or (names.firstFree? name 1)

theorem length_lt_longest_of_numberedCopy?_eq_none {names : InstanceNames} {name : String}
    (h : names.numberedCopy? name = none) : name.length < names.longest := by
  have hnone : names.firstFree? name 1 = none := (Option.or_eq_none_iff.mp h).2
  exact Nat.lt_of_lt_of_le (Numbered.length_lt_length_name name 1)
    (length_le_longest (mem_of_firstFree?_eq_none hnone))

/-- The name for a copy of an instance. Should every number be taken, the name
is made longer until one is free. -/
def copyName (names : InstanceNames) (name : String) : String :=
  match _h : names.numberedCopy? name with
  | some free => free
  | none => names.copyName (name ++ "_")
termination_by names.longest - name.length
decreasing_by
  have := length_lt_longest_of_numberedCopy?_eq_none ‹_›
  have : "_".length = 1 := rfl
  simp only [String.length_append]
  omega

theorem copyName_eq (names : InstanceNames) (name : String) :
    names.copyName name = (names.numberedCopy? name).getD (names.copyName (name ++ "_")) := by
  rw [copyName]
  split <;> simp [*]

/-- The name for a new instance of a module. -/
def newName (names : InstanceNames) (moduleName : String) : String :=
  (names.firstFree? moduleName 0).getD (names.copyName moduleName)

/-- Name a new instance of a module and take the name into use. -/
def instantiate (names : InstanceNames) (moduleName : String) : String × InstanceNames :=
  let name := names.newName moduleName
  (name, names.insert name)

/-- Name a copy of an instance and take the name into use. -/
def duplicate (names : InstanceNames) (instanceName : String) : String × InstanceNames :=
  let name := names.copyName instanceName
  (name, names.insert name)

/-- Make a name free, and tell whether it was in use. -/
def release (names : InstanceNames) (name : String) : Bool × InstanceNames :=
  (decide (name ∈ names), names.erase name)

/-- What can be asked of the names in use. -/
inductive Request where
  | instantiate (moduleName : String)
  | duplicate (instanceName : String)
  | release (name : String)
  | insertAll (added : List String)
  deriving DecidableEq, Repr

inductive Reply where
  | granted (name : String)
  | released (wasUsed : Bool)
  | inserted
  deriving DecidableEq, Repr

def answer (names : InstanceNames) : Request → Reply × InstanceNames
  | .instantiate moduleName =>
    let (name, names) := names.instantiate moduleName
    (.granted name, names)
  | .duplicate instanceName =>
    let (name, names) := names.duplicate instanceName
    (.granted name, names)
  | .release name =>
    let (wasUsed, names) := names.release name
    (.released wasUsed, names)
  | .insertAll added => (.inserted, names.insertAll added)

/-- The replies to consecutive requests and the names in use at the end. -/
def run (names : InstanceNames) : List Request → List Reply × InstanceNames
  | [] => ([], names)
  | request :: rest =>
    let (reply, names) := names.answer request
    let (replies, names) := names.run rest
    (reply :: replies, names)

end InstanceNames

end VerilogOutline
