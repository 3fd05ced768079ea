import Mathlib.Data.Finset.Card
import VerilogOutline.Proofs.InstanceNames.LeastFree

/-!
# The same request time and again

Every grant takes the least free number away from the next search. So a request that is made
time and again gets the free numbers one after the other, in ascending order, whatever
holes there are between the names in use.
-/

namespace VerilogOutline.InstanceNames

open Numbered

/-- The numbers are the smallest ones of a set, in ascending order. -/
structure Smallest (set : Set Nat) (numbers : List Nat) : Prop where
  ascending : numbers.Pairwise (· < ·)
  mem : ∀ number ∈ numbers, number ∈ set
  lt_of_not_mem : ∀ later ∈ set, later ∉ numbers → ∀ number ∈ numbers, number < later

/-- The free numbers behind a stem that a name can have, from a low one on. -/
def available (names : InstanceNames) (stem : String) (low : Nat) : Set Nat :=
  {number ∈ names.freeFrom stem low | number ≤ highest}

theorem smallest_nil (set : Set Nat) : Smallest set [] where
  ascending := .nil
  mem := fun _ hnumber => absurd hnumber List.not_mem_nil
  lt_of_not_mem := fun _ _ _ _ hnumber => absurd hnumber List.not_mem_nil

/-- The smallest numbers are the least one and the smallest of the others. -/
theorem Smallest.cons {set set' : Set Nat} {least : Nat} {numbers : List Nat}
    (hleast : IsLeast set least) (hset : ∀ number, number ∈ set' ↔ number ≠ least ∧ number ∈ set)
    (h : Smallest set' numbers) : Smallest set (least :: numbers) := by
  have hlt : ∀ number ∈ set', least < number := by
    intro number hnumber
    obtain ⟨hne, hmem⟩ := (hset number).mp hnumber
    exact Nat.lt_of_le_of_ne (hleast.2 hmem) hne.symm
  refine ⟨List.pairwise_cons.mpr ⟨fun number hn => hlt number (h.mem number hn), h.ascending⟩,
    ?_, ?_⟩
  · rw [List.forall_mem_cons]
    exact ⟨hleast.1, fun number hn => ((hset number).mp (h.mem number hn)).2⟩
  · intro later hlater hnotMem
    rw [List.mem_cons, not_or] at hnotMem
    have hlater' : later ∈ set' := (hset later).mpr ⟨hnotMem.1, hlater⟩
    rw [List.forall_mem_cons]
    exact ⟨hlt later hlater', h.lt_of_not_mem later hlater' hnotMem.2⟩

variable {names : InstanceNames} {stem : String} {low number count : Nat}

theorem mem_available_insert {other : Nat} :
    other ∈ (names.insert (Numbered.name stem number)).available stem low ↔
      other ≠ number ∧ other ∈ names.available stem low := by
  constructor
  · rintro ⟨⟨hlow, hfree⟩, hlimit⟩
    rw [mem_insert, not_or] at hfree
    exact ⟨fun heq => hfree.1 (heq ▸ rfl), ⟨hlow, hfree.2⟩, hlimit⟩
  · rintro ⟨hne, ⟨hlow, hfree⟩, hlimit⟩
    refine ⟨⟨hlow, ?_⟩, hlimit⟩
    rw [mem_insert, not_or]
    exact ⟨fun heq => hne (name_inj.mp heq).2, hfree⟩

/-- The least number that is available is the one that the search finds. -/
theorem exists_firstFree?_of_mem_available (h : number ∈ names.available stem low) :
    ∃ least, IsLeast (names.available stem low) least ∧
      names.firstFree? stem low = some (Numbered.name stem least) := by
  obtain ⟨hfree, hlimit⟩ := h
  obtain ⟨least, hle, hleast, hsearch⟩ := exists_isLeast hfree hlimit
  exact ⟨least, ⟨⟨hleast.1, hle.trans hlimit⟩, fun _ hother => hleast.2 hother.1⟩, hsearch⟩

/-- A request that is always granted what one search finds gets the smallest numbers. -/
theorem run_replicate {request : Request}
    (hrequest : ∀ {names : InstanceNames} {name : String}, names.firstFree? stem low = some name →
      names.answer request = (.granted name, names.insert name))
    {many : Finset Nat} (hmany : ∀ number ∈ many, number ∈ names.available stem low)
    (hcount : count ≤ many.card) :
    ∃ numbers, numbers.length = count ∧ Smallest (names.available stem low) numbers ∧
      (names.run (List.replicate count request)).1 =
        numbers.map fun number => .granted (Numbered.name stem number) := by
  -- the numbers that are left for later requests are those without the least one
  induction count generalizing names many with
  | zero => exact ⟨[], rfl, smallest_nil _, rfl⟩
  | succ count ih =>
      obtain ⟨free, hfree⟩ := Finset.card_pos.mp (Nat.lt_of_lt_of_le (Nat.succ_pos count) hcount)
      obtain ⟨least, hleast, hsearch⟩ := exists_firstFree?_of_mem_available (hmany free hfree)
      have hothers : ∀ number ∈ many.erase least,
          number ∈ (names.insert (Numbered.name stem least)).available stem low := by
        intro number hnumber
        obtain ⟨hne, hmem⟩ := Finset.mem_erase.mp hnumber
        exact mem_available_insert.mpr ⟨hne, hmany number hmem⟩
      have hcard : count ≤ (many.erase least).card :=
        (Nat.le_sub_one_of_lt hcount).trans Finset.pred_card_le_card_erase
      obtain ⟨numbers, hlength, hsmallest, hreplies⟩ := ih hothers hcard
      refine ⟨least :: numbers, by rw [List.length_cons, hlength],
        hsmallest.cons hleast fun _ => mem_available_insert, ?_⟩
      rw [List.replicate_succ, run, hrequest hsearch, List.map_cons, ← hreplies]

/-- Copies of one name, and new instances of one module, get the smallest numbers that are
available, one after the other, whenever there are at least as many as are asked for. -/
theorem run_replicate_granted (names : InstanceNames) (count : Nat) (many : Finset Nat)
    (hcount : count ≤ many.card) :
    (∀ base, (∀ number ∈ many, number ∈ names.available (parts base).1 ((parts base).2 + 1)) →
      ∃ numbers, numbers.length = count ∧
        Smallest (names.available (parts base).1 ((parts base).2 + 1)) numbers ∧
        (names.run (List.replicate count (.duplicate base))).1 =
          numbers.map fun number => .granted (Numbered.name (parts base).1 number)) ∧
    ∀ moduleName, (∀ number ∈ many, number ∈ names.available moduleName 0) →
      ∃ numbers, numbers.length = count ∧ Smallest (names.available moduleName 0) numbers ∧
        (names.run (List.replicate count (.instantiate moduleName))).1 =
          numbers.map fun number => .granted (Numbered.name moduleName number) := by
  constructor
  · intro base hmany
    refine run_replicate ?_ hmany hcount
    intro names name hsearch
    simp only [answer, duplicate, copyName_of_firstFree? hsearch]
  · intro moduleName hmany
    refine run_replicate ?_ hmany hcount
    intro names name hsearch
    simp only [answer, instantiate, newName, hsearch, Option.getD_some]

/-- Some instances of a queue, and one of another module. -/
def queues : InstanceNames :=
  ofList ["fifo_01", "fifo_2", "fifo_4", "fifo_1_3"]

theorem run_replicate_queues :
    (∀ number ∈ ({3, 5, 6} : Finset Nat), number ∈ queues.available "fifo" 2) ∧
      (∃ numbers, numbers.length = 3 ∧ Smallest (queues.available "fifo" 2) numbers ∧
        numbers.map (fun number => Reply.granted (Numbered.name "fifo" number)) =
          [.granted "fifo_3", .granted "fifo_5", .granted "fifo_6"]) ∧
      (∀ number ∈ ({0, 1, 3} : Finset Nat), number ∈ queues.available "fifo" 0) ∧
      ∃ numbers, numbers.length = 3 ∧ Smallest (queues.available "fifo" 0) numbers ∧
        numbers.map (fun number => Reply.granted (Numbered.name "fifo" number)) =
          [.granted "fifo_0", .granted "fifo_1", .granted "fifo_3"] := by
  have hcopied : ∀ number ∈ ({3, 5, 6} : Finset Nat), number ∈ queues.available "fifo" 2 := by
    intro number hnumber
    simp only [Finset.mem_insert, Finset.mem_singleton] at hnumber
    obtain rfl | rfl | rfl := hnumber <;>
      exact ⟨⟨by decide, by decide +kernel⟩, by decide⟩
  have hnew : ∀ number ∈ ({0, 1, 3} : Finset Nat), number ∈ queues.available "fifo" 0 := by
    intro number hnumber
    simp only [Finset.mem_insert, Finset.mem_singleton] at hnumber
    obtain rfl | rfl | rfl := hnumber <;>
      exact ⟨⟨by decide, by decide +kernel⟩, by decide⟩
  have hparts : parts "fifo_01" = ("fifo", 1) := by decide +kernel
  have hcopies := (run_replicate_granted queues 3 {3, 5, 6} (by decide)).1 "fifo_01"
  rw [hparts] at hcopies
  obtain ⟨copied, hlength, hsmallest, hreplies⟩ := hcopies hcopied
  obtain ⟨new, hlength', hsmallest', hreplies'⟩ :=
    (run_replicate_granted queues 3 {0, 1, 3} (by decide)).2 "fifo" hnew
  refine ⟨hcopied, ⟨copied, hlength, hsmallest, hreplies.symm.trans ?_⟩,
    hnew, new, hlength', hsmallest', hreplies'.symm.trans ?_⟩
  · decide +kernel
  · decide +kernel

end VerilogOutline.InstanceNames
