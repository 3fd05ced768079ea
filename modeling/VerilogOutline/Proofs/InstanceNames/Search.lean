import VerilogOutline.Proofs.InstanceNames.LeastFree

/-!
# A search that counts in 64 bits

The numbers of names fit into words of 64 bits, and a search can count in such a word. One
turn tests one name and counts on only where a higher word exists. Turn after turn this is the
search for the first free number: the counter never wraps, and as each number that is passed
over is that of another name in use, the turns are over as soon as there are more of them
than names.
-/

namespace VerilogOutline.InstanceNames

open Numbered

/-- How far a search has come. -/
inductive Progress where
  /-- It is over, with the free name if there is one. -/
  | over (name? : Option String)
  /-- The number of the counter is tested next. -/
  | goesOn (counter : UInt64)
  deriving DecidableEq

/-- The word behind a counter, unless the counter is the highest word. -/
def countUp? (counter : UInt64) : Option UInt64 :=
  if counter.toNat < highest then some (counter + 1) else none

/-- One turn of a search. -/
def turn (names : InstanceNames) (stem : String) (counter : UInt64) : Progress :=
  let name := Numbered.name stem counter.toNat
  if name ∈ names then
    match countUp? counter with
    | some next => .goesOn next
    | none => .over none
  else .over (some name)

/-- A number of turns of a search, fewer if it is over before. -/
def turns (names : InstanceNames) (stem : String) : Nat → UInt64 → Progress
  | 0, counter => .goesOn counter
  | count + 1, counter =>
    match names.turn stem counter with
    | .over name? => .over name?
    | .goesOn next => names.turns stem count next

theorem toNat_le_highest (counter : UInt64) : counter.toNat ≤ highest :=
  Nat.le_sub_one_of_lt counter.toNat_lt_size

/-- Counting up does not wrap. -/
theorem toNat_of_countUp? {counter next : UInt64} (h : countUp? counter = some next) :
    next.toNat = counter.toNat + 1 := by
  unfold countUp? at h
  split at h
  next hlt =>
    obtain rfl : counter + 1 = next := Option.some.inj h
    have hsize : counter.toNat + 1 < UInt64.size := Nat.add_lt_of_lt_sub hlt
    rw [UInt64.toNat_add]
    exact Nat.mod_eq_of_lt hsize
  next => contradiction

theorem toNat_of_countUp?_eq_none {counter : UInt64} (h : countUp? counter = none) :
    counter.toNat = highest := by
  unfold countUp? at h
  split at h
  next => contradiction
  next hge => exact Nat.le_antisymm (toNat_le_highest counter) (Nat.le_of_not_lt hge)

variable (names : InstanceNames) (stem : String)

/-- A turn ends the search with its result, or passes over a name in use and leaves the
result to the rest of the search. -/
theorem turn_cases (counter : UInt64) :
    names.turn stem counter = .over (names.firstFree? stem counter.toNat) ∨
      ∃ next, names.turn stem counter = .goesOn next ∧ next.toNat = counter.toNat + 1 ∧
        Numbered.name stem counter.toNat ∈ names ∧
        names.firstFree? stem counter.toNat = names.firstFree? stem next.toNat := by
  have hlimit := toNat_le_highest counter
  by_cases hused : Numbered.name stem counter.toNat ∈ names
  · have hrest : names.firstFree? stem counter.toNat =
        names.firstFree? stem (counter.toNat + 1) := by
      rw [firstFree?, if_pos hlimit, if_pos hused]
    cases hnext : countUp? counter with
    | some next =>
        refine .inr ⟨next, by simp only [turn, hused, hnext, if_true], toNat_of_countUp? hnext,
          hused, ?_⟩
        rw [hrest, toNat_of_countUp? hnext]
    | none =>
        have hover : names.firstFree? stem (counter.toNat + 1) = none := by
          rw [firstFree?, if_neg (by rw [toNat_of_countUp?_eq_none hnext]; omega)]
        refine .inl ?_
        simp only [turn, hused, hnext, if_true, hrest, hover]
  · refine .inl ?_
    rw [firstFree?, if_pos hlimit, if_neg hused]
    simp only [turn, hused, if_false]

/-- After a number of turns the search is over with its result, or as many consecutive numbers
are those of names in use. -/
theorem turns_cases (count : Nat) (start : UInt64) :
    names.turns stem count start = .over (names.firstFree? stem start.toNat) ∨
      ∃ counter, names.turns stem count start = .goesOn counter ∧
        counter.toNat = start.toNat + count ∧
        ∀ number, start.toNat ≤ number → number < start.toNat + count →
          Numbered.name stem number ∈ names := by
  -- on the number of turns, the first of which is split off
  induction count generalizing start with
  | zero =>
      refine .inr ⟨start, rfl, rfl, ?_⟩
      intro number hle hlt
      exact absurd hlt (Nat.not_lt_of_le hle)
  | succ count ih =>
      rcases names.turn_cases stem start with hover | ⟨next, hturn, hnext, hused, hrest⟩
      · left
        rw [turns, hover]
      · have hturns : names.turns stem (count + 1) start = names.turns stem count next := by
          rw [turns, hturn]
        rw [hturns, hrest]
        rcases ih next with hover | ⟨counter, hlast, hcounter, hpassed⟩
        · exact .inl hover
        · refine .inr ⟨counter, hlast, by omega, ?_⟩
          intro number hle hlt
          rcases Nat.eq_or_lt_of_le hle with rfl | hlt'
          · exact hused
          · exact hpassed number (by omega) (by omega)

/-- With more turns than there are names in use, a search is over. -/
theorem turns_of_size_lt {count : Nat} (hcount : names.size < count) (start : UInt64) :
    names.turns stem count start = .over (names.firstFree? stem start.toNat) := by
  rcases names.turns_cases stem count start with hover | ⟨_, _, _, hpassed⟩
  · exact hover
  · obtain ⟨number, ⟨hle, hfree⟩, hbound⟩ := names.exists_mem_freeFrom stem start.toNat
    exact absurd (hpassed number hle (by omega)) hfree

theorem toNat_of_turns {count : Nat} {start counter : UInt64}
    (h : names.turns stem count start = .goesOn counter) :
    counter.toNat = start.toNat + count := by
  rcases names.turns_cases stem count start with hover | ⟨counter', hturns, hcounter, _⟩
  · cases hover.symm.trans h
  · cases hturns.symm.trans h
    exact hcounter

/-- A search finds nothing exactly if every number is taken. -/
theorem firstFree?_eq_none_iff_taken (low : Nat) :
    names.firstFree? stem low = none ↔
      ∀ number, low ≤ number → number ≤ highest → Numbered.name stem number ∈ names := by
  rw [firstFree?_eq_none_iff]
  constructor
  · intro hover number hle hlimit
    by_contra hfree
    exact Nat.not_lt_of_le hlimit (hover number ⟨hle, hfree⟩)
  · intro hused number hnumber
    by_contra! hlimit
    exact hnumber.2 (hused number hnumber.1 hlimit)

/-- Fewer names than there are numbers leave one of the numbers free. -/
theorem firstFree?_ne_none {low : Nat} (hsize : names.size < UInt64.size - low) :
    names.firstFree? stem low ≠ none := by
  obtain ⟨free, hfree, hbound⟩ := names.exists_mem_freeFrom stem low
  have hlimit : free ≤ highest := by
    have hhighest : highest = UInt64.size - 1 := rfl
    omega
  intro hnone
  exact Nat.not_lt_of_le hlimit (firstFree?_eq_none_iff.mp hnone free hfree)

/-- The number found is the least free one, no further off than there are names. -/
theorem exists_isLeast_of_firstFree? {low : Nat} {name : String}
    (h : names.firstFree? stem low = some name) :
    ∃ number ≤ highest, IsLeast (names.freeFrom stem low) number ∧
      name = Numbered.name stem number ∧ number - low ≤ names.size := by
  obtain ⟨number, hlimit, hleast, hname⟩ := firstFree?_eq_some_iff.mp h
  obtain ⟨free, hfree, hbound⟩ := names.exists_mem_freeFrom stem low
  have hle : number ≤ free := hleast.2 hfree
  exact ⟨number, hlimit, hleast, hname, by omega⟩

/-- A search is over after one turn more than there are names in use, at the latest, and until
then its counter is the number of the first turn and the turns since. It finds nothing exactly
if all numbers from the first to the highest are taken, which takes as many names. Otherwise
it finds the least number that is free, which is no further off than there are names. -/
theorem search_ends (start : UInt64) :
    (∀ count, names.size < count →
      names.turns stem count start = .over (names.firstFree? stem start.toNat)) ∧
    (∀ count counter, names.turns stem count start = .goesOn counter →
      counter.toNat = start.toNat + count) ∧
    (names.firstFree? stem start.toNat = none ↔
      ∀ number, start.toNat ≤ number → number ≤ highest → Numbered.name stem number ∈ names) ∧
    (names.size < UInt64.size - start.toNat → names.firstFree? stem start.toNat ≠ none) ∧
    ∀ name, names.firstFree? stem start.toNat = some name →
      ∃ number ≤ highest, IsLeast (names.freeFrom stem start.toNat) number ∧
        name = Numbered.name stem number ∧ number - start.toNat ≤ names.size := by
  refine ⟨?_, ?_, names.firstFree?_eq_none_iff_taken stem start.toNat,
    names.firstFree?_ne_none stem, ?_⟩
  · intro count hcount
    exact names.turns_of_size_lt stem hcount start
  · intro count counter hturns
    exact names.toNat_of_turns stem hturns
  · intro name hname
    exact names.exists_isLeast_of_firstFree? stem hname

/-- Behind the highest number there is none, whatever is free from 0 on. -/
example :
    (ofList ["x_18446744073709551614", "x_18446744073709551615"]).firstFree? "x"
      18446744073709551614 = none := by
  decide +kernel

end VerilogOutline.InstanceNames
