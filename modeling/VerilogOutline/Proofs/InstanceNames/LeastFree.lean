import Mathlib.Data.List.Nodup
import Mathlib.Data.List.Perm.Subperm
import Mathlib.Order.Bounds.Basic
import VerilogOutline.Proofs.Numbered.Parts

/-!
# The least free number

A name that is granted was not in use before, even where every number behind the stem is
taken. A search for a free number finds the least one there is, and fails only if all
numbers up to the highest are taken. As many names as are in use can take as many numbers,
so one of the numbers behind them is free. While all names in use have numbers below a
bound, the search ends at the bound or in front of it, so that a name that is granted
raises the bound by one at most.
-/

namespace VerilogOutline

/-- The stem and the number of a name. A name that has no number is a stem with number 0. -/
def Numbered.parts (name : String) : String × Nat :=
  (split? name).getD (name, 0)

theorem Numbered.IsNumbered.parts {name stem : String} {number : Nat}
    (h : IsNumbered name stem number) : parts name = (stem, number) := by
  rw [Numbered.parts, split?_eq_some_iff.mpr h, Option.getD_some]

namespace InstanceNames

open Numbered

variable {names : InstanceNames} {base stem name : String} {low number : Nat}

section Fresh

theorem not_mem_of_firstFree? {stem : String} {number : Nat}
    (h : names.firstFree? stem number = some name) : name ∉ names := by
  fun_induction firstFree? names stem number with
  | case1 number _ _ ih => exact ih h
  | case2 number _ hfree => exact Option.some.inj h ▸ hfree
  | case3 => contradiction

theorem not_mem_of_numberedCopy? {base : String} (h : names.numberedCopy? base = some name) :
    name ∉ names := by
  rcases Option.or_eq_some_iff.mp h with hnext | ⟨_, hfirst⟩
  · obtain ⟨split, _, hfree⟩ := Option.bind_eq_some_iff.mp hnext
    exact not_mem_of_firstFree? hfree
  · exact not_mem_of_firstFree? hfirst

theorem copyName_not_mem (names : InstanceNames) (base : String) :
    names.copyName base ∉ names := by
  fun_induction copyName names base with
  | case1 base free hfree => exact not_mem_of_numberedCopy? hfree
  | case2 base _ ih => exact ih

theorem newName_not_mem (names : InstanceNames) (moduleName : String) :
    names.newName moduleName ∉ names := by
  unfold newName
  cases hfree : names.firstFree? moduleName 0 with
  | some free => exact not_mem_of_firstFree? hfree
  | none => exact copyName_not_mem names moduleName

end Fresh

/-- The numbers, from a low one on, that are free behind a stem. -/
def freeFrom (names : InstanceNames) (stem : String) (low : Nat) : Set Nat :=
  {number | low ≤ number ∧ Numbered.name stem number ∉ names}

theorem mem_freeFrom_succ (hused : Numbered.name stem low ∈ names) :
    number ∈ names.freeFrom stem (low + 1) ↔ number ∈ names.freeFrom stem low := by
  constructor
  · rintro ⟨hlow, hfree⟩
    exact ⟨Nat.le_of_succ_le hlow, hfree⟩
  · rintro ⟨hlow, hfree⟩
    have hne : low ≠ number := fun heq => hfree (heq ▸ hused)
    exact ⟨by omega, hfree⟩

/-- The first free number behind taken ones is the least. -/
theorem isLeast_of_forall_mem (hlow : low ≤ number) (hfree : Numbered.name stem number ∉ names)
    (hused : ∀ other < number, low ≤ other → Numbered.name stem other ∈ names) :
    IsLeast (names.freeFrom stem low) number := by
  refine ⟨⟨hlow, hfree⟩, ?_⟩
  rintro other ⟨hother, hfree'⟩
  by_contra! hlt
  exact hfree' (hused other hlt hother)

theorem isLeast_of_not_mem (hfree : Numbered.name stem low ∉ names) :
    IsLeast (names.freeFrom stem low) low :=
  isLeast_of_forall_mem (Nat.le_refl low) hfree fun _ hlt hle => absurd hle (Nat.not_le_of_lt hlt)

theorem firstFree?_eq_some_iff :
    names.firstFree? stem low = some name ↔
      ∃ number ≤ highest, IsLeast (names.freeFrom stem low) number ∧
        name = Numbered.name stem number := by
  fun_induction firstFree? names stem low with
  | case1 low _ hused ih =>
      have hsame : names.freeFrom stem (low + 1) = names.freeFrom stem low :=
        Set.ext fun _ => mem_freeFrom_succ hused
      rw [ih, hsame]
  | case2 low hlimit hfree =>
      constructor
      · rintro ⟨⟩
        exact ⟨low, hlimit, isLeast_of_not_mem hfree, rfl⟩
      · rintro ⟨number, _, hleast, rfl⟩
        rw [(isLeast_of_not_mem hfree).unique hleast]
  | case3 low hover =>
      simp only [reduceCtorEq, false_iff]
      rintro ⟨number, hlimit, hleast, _⟩
      exact hover (Nat.le_trans hleast.1.1 hlimit)

theorem firstFree?_eq_none_iff :
    names.firstFree? stem low = none ↔ ∀ number ∈ names.freeFrom stem low, highest < number := by
  fun_induction firstFree? names stem low with
  | case1 low _ hused ih => simp only [ih, mem_freeFrom_succ hused]
  | case2 low hlimit hfree =>
      simp only [reduceCtorEq, false_iff, not_forall]
      exact ⟨low, (isLeast_of_not_mem hfree).1, Nat.not_lt.mpr hlimit⟩
  | case3 low hover =>
      simp only [true_iff]
      intro number hnumber
      exact Nat.lt_of_lt_of_le (Nat.lt_of_not_le hover) hnumber.1

/-- A search succeeds where there is a free number, and stops there or before. -/
theorem exists_isLeast (hnumber : number ∈ names.freeFrom stem low) (hlimit : number ≤ highest) :
    ∃ least ≤ number, IsLeast (names.freeFrom stem low) least ∧
      names.firstFree? stem low = some (Numbered.name stem least) := by
  cases hsearch : names.firstFree? stem low with
  | none =>
      have hover := firstFree?_eq_none_iff.mp hsearch number hnumber
      omega
  | some found =>
      obtain ⟨least, _, hleast, rfl⟩ := firstFree?_eq_some_iff.mp hsearch
      exact ⟨least, hleast.2 hnumber, hleast, rfl⟩

/-- The names in use cannot take more numbers than there are names. -/
theorem exists_mem_freeFrom (names : InstanceNames) (stem : String) (low : Nat) :
    ∃ number ∈ names.freeFrom stem low, number ≤ low + names.size := by
  by_contra! hnone
  let taken := (List.range' low (names.size + 1)).map (Numbered.name stem)
  have hinjective : Function.Injective (Numbered.name stem) := fun _ _ heq => (name_inj.mp heq).2
  have hnodup : taken.Nodup := List.Nodup.map hinjective (List.nodup_range' 1)
  have hsubset : taken ⊆ names.toList := by
    intro name hname
    obtain ⟨number, hnumber, rfl⟩ := List.mem_map.mp hname
    rw [List.mem_range'_1] at hnumber
    by_contra hfree
    have hover := hnone number ⟨hnumber.1, hfree⟩
    omega
  have hlength := (List.Nodup.subperm hnodup hsubset).length_le
  simp only [taken, List.length_map, List.length_range'] at hlength
  exact Nat.not_succ_le_self names.size hlength

/-- A copy gets its name from the search behind its own number if that finds one. -/
theorem copyName_of_firstFree?
    (h : names.firstFree? (parts base).1 ((parts base).2 + 1) = some name) :
    names.copyName base = name := by
  have hcopy : names.numberedCopy? base = some name := by
    unfold parts at h
    cases hsplit : split? base with
    | none => simpa [numberedCopy?, hsplit] using h
    | some found =>
        rw [hsplit, Option.getD_some] at h
        simp [numberedCopy?, hsplit, h]
  rw [copyName_eq, hcopy, Option.getD_some]

theorem copyName_of_isNumbered (hnumbered : IsNumbered base stem number)
    (h : names.firstFree? stem (number + 1) = some name) : names.copyName base = name := by
  apply copyName_of_firstFree?
  rw [hnumbered.parts]
  exact h

/-- Every name in use is a stem with a number below the bound. -/
def NumberedBelow (names : InstanceNames) (bound : Nat) : Prop :=
  ∀ name ∈ names, ∃ stem, ∃ number < bound, name = Numbered.name stem number

theorem numberedBelow_empty (bound : Nat) : NumberedBelow {} bound := by
  intro name hname
  exact absurd (mem_toList.mpr hname) List.not_mem_nil

namespace NumberedBelow

section Search

variable {bound : Nat} (h : names.NumberedBelow bound)

include h

theorem number_lt {stem : String} {number : Nat} (hmem : Numbered.name stem number ∈ names) :
    number < bound := by
  obtain ⟨stem', number', hlt, hname⟩ := h _ hmem
  obtain ⟨_, rfl⟩ := Numbered.name_inj.mp hname
  exact hlt

theorem mem_freeFrom (stem : String) {start : Nat} (hstart : start ≤ bound) :
    bound ∈ names.freeFrom stem start :=
  ⟨hstart, fun hused => Nat.lt_irrefl bound (h.number_lt hused)⟩

/-- The number at which a search ends is the bound at the latest. -/
theorem exists_firstFree? (hlimit : bound ≤ Numbered.highest) (stem : String) {start : Nat}
    (hstart : start ≤ bound) :
    ∃ number, start ≤ number ∧ number ≤ bound ∧
      names.firstFree? stem start = some (Numbered.name stem number) := by
  obtain ⟨number, hbound, hleast, hfound⟩ := exists_isLeast (h.mem_freeFrom stem hstart) hlimit
  exact ⟨number, hleast.1.1, hbound, hfound⟩

/-- A new instance gets its name from the first search. -/
theorem exists_newName (hlimit : bound ≤ Numbered.highest) (moduleName : String) :
    ∃ number ≤ bound, names.firstFree? moduleName 0 = some (names.newName moduleName) ∧
      names.newName moduleName = Numbered.name moduleName number := by
  obtain ⟨number, _, hbound, hfound⟩ := h.exists_firstFree? hlimit moduleName (Nat.zero_le bound)
  have hname : names.newName moduleName = Numbered.name moduleName number := by
    rw [newName, hfound, Option.getD_some]
  exact ⟨number, hbound, by rw [hname, hfound], hname⟩

/-- A copy keeps the stem, and gets its number from the search behind the number copied. -/
theorem exists_copyName (hlimit : bound ≤ Numbered.highest) (stem : String) {number : Nat}
    (hnumber : number < bound) :
    ∃ copy, number < copy ∧ copy ≤ bound ∧
      names.firstFree? stem (number + 1) =
        some (names.copyName (Numbered.name stem number)) ∧
      names.copyName (Numbered.name stem number) = Numbered.name stem copy := by
  obtain ⟨copy, hcopy, hbound, hfound⟩ := h.exists_firstFree? hlimit stem hnumber
  have hname : names.copyName (Numbered.name stem number) = Numbered.name stem copy :=
    copyName_of_isNumbered (Numbered.isNumbered_name stem (by omega)) hfound
  exact ⟨copy, hcopy, hbound, by rw [hname, hfound], hname⟩

theorem mono {bound' : Nat} (hle : bound ≤ bound') : names.NumberedBelow bound' := by
  intro name hname
  obtain ⟨stem, number, hlt, heq⟩ := h name hname
  exact ⟨stem, number, by omega, heq⟩

theorem insert {number : Nat} (hnumber : number < bound) (stem : String) :
    (names.insert (Numbered.name stem number)).NumberedBelow bound := by
  intro name hname
  rcases mem_insert.mp hname with rfl | hname
  · exact ⟨stem, number, hnumber, rfl⟩
  · exact h name hname

theorem erase (name : String) : (names.erase name).NumberedBelow bound :=
  fun other hother => h other (mem_erase.mp hother).2

end Search

end NumberedBelow

/-- The name ends in a number, and one of the numbers behind that is free for its stem. -/
def CountsOn (names : InstanceNames) (base stem : String) (number : Nat) : Prop :=
  IsNumbered base stem number ∧ ∃ next ∈ names.freeFrom stem (number + 1), next ≤ highest

theorem CountsOn.exists_copyName (h : names.CountsOn base stem number) :
    ∃ next ≤ highest, IsLeast (names.freeFrom stem (number + 1)) next ∧
      names.copyName base = Numbered.name stem next := by
  obtain ⟨hnumbered, free, hfree, hlimit⟩ := h
  obtain ⟨next, hle, hleast, hsearch⟩ := exists_isLeast hfree hlimit
  exact ⟨next, hle.trans hlimit, hleast, copyName_of_isNumbered hnumbered hsearch⟩

/-- A name that cannot be counted on is a stem itself. -/
theorem exists_copyName_of_not_countsOn
    (h : ∀ stem number, ¬ names.CountsOn base stem number) (hsize : names.size < highest) :
    ∃ next ≤ highest, IsLeast (names.freeFrom base 1) next ∧
      names.copyName base = Numbered.name base next := by
  obtain ⟨free, hfree, hbound⟩ := names.exists_mem_freeFrom base 1
  obtain ⟨next, hle, hleast, hsearch⟩ := exists_isLeast hfree (by omega)
  have hnext : ((split? base).bind fun found => names.firstFree? found.1 (found.2 + 1)) = none := by
    rw [Option.bind_eq_none_iff]
    rintro ⟨stem, number⟩ hsplit
    rw [firstFree?_eq_none_iff]
    intro other hother
    by_contra! hlimit
    exact h stem number ⟨split?_eq_some_iff.mp hsplit, other, hother, hlimit⟩
  refine ⟨next, by omega, hleast, ?_⟩
  rw [copyName_eq, numberedCopy?]
  simp [hnext, hsearch]

theorem exists_newName (moduleName : String) (hsize : names.size < highest) :
    ∃ number ≤ highest, IsLeast (names.freeFrom moduleName 0) number ∧
      names.newName moduleName = Numbered.name moduleName number := by
  obtain ⟨free, hfree, hbound⟩ := names.exists_mem_freeFrom moduleName 0
  obtain ⟨number, hle, hleast, hsearch⟩ := exists_isLeast hfree (by omega)
  refine ⟨number, by omega, hleast, ?_⟩
  rw [newName, hsearch, Option.getD_some]

/-- A copy never has the name of what is copied. -/
theorem copyName_ne (base : String) (hsize : names.size < highest) :
    names.copyName base ≠ base := by
  by_cases h : ∃ stem number, names.CountsOn base stem number
  · obtain ⟨stem, number, hcounts⟩ := h
    obtain ⟨next, hlimit, hleast, hname⟩ := hcounts.exists_copyName
    intro heq
    have hnext : IsNumbered base stem next := heq ▸ hname ▸ isNumbered_name stem hlimit
    have hlow := hleast.1.1
    have hsame := (hcounts.1.unique hnext).2
    omega
  · push Not at h
    obtain ⟨next, _, _, hname⟩ := exists_copyName_of_not_countsOn h hsize
    intro heq
    have hlength := length_lt_length_name base next
    rw [← hname, heq] at hlength
    exact Nat.lt_irrefl _ hlength

/-- A copy of a numbered name gets the least number behind its own that is free, as long as
there is one. Any other name is copied as a stem, with the least number from 1 on. A new
instance gets the least number from 0 on. Numbers are written in plain decimal. -/
theorem granted_least (names : InstanceNames) (hsize : names.size < highest) (base : String) :
    (∀ stem number, names.CountsOn base stem number →
      ∃ next ≤ highest, IsLeast (names.freeFrom stem (number + 1)) next ∧
        names.copyName base = Numbered.name stem next) ∧
    ((∀ stem number, ¬ names.CountsOn base stem number) →
      ∃ next ≤ highest, IsLeast (names.freeFrom base 1) next ∧
        names.copyName base = Numbered.name base next) ∧
    (∃ number ≤ highest, IsLeast (names.freeFrom base 0) number ∧
      names.newName base = Numbered.name base number) ∧
    names.copyName base ∉ names ∧ names.newName base ∉ names ∧ names.copyName base ≠ base ∧
    ∀ stem number, ∃ digits,
      (Numbered.name stem number).toList = stem.toList ++ '_' :: digits ∧
        IsDecimal digits number := by
  refine ⟨fun _ _ => CountsOn.exists_copyName,
    fun h => exists_copyName_of_not_countsOn h hsize, exists_newName base hsize,
    names.copyName_not_mem base, names.newName_not_mem base, copyName_ne base hsize,
    exists_isDecimal⟩

/-- A name with the highest number, taken numbers behind `ram_7`, and a free one in front. -/
def crowded : InstanceNames :=
  ofList ["ram_0", "ram_8", "ram_9", "top_18446744073709551615", "top_18446744073709551615_1"]

theorem granted_crowded :
    crowded.size < highest ∧ crowded.CountsOn "ram_007" "ram" 7 ∧
      crowded.copyName "ram_007" = "ram_10" ∧
      crowded.copyName "top_18446744073709551615" = "top_18446744073709551615_2" := by
  have hsize : crowded.size < highest := by decide +kernel
  have hcounts : crowded.CountsOn "ram_007" "ram" 7 :=
    ⟨split?_eq_some_iff.mp (by decide +kernel), 10, ⟨by decide, by decide +kernel⟩, by decide⟩
  have htop : split? "top_18446744073709551615" = some ("top", highest) := by decide +kernel
  have hfull : ∀ stem number, ¬ crowded.CountsOn "top_18446744073709551615" stem number := by
    rintro stem number ⟨hnumbered, next, hnext, hlimit⟩
    obtain ⟨_, rfl⟩ := hnumbered.unique (split?_eq_some_iff.mp htop)
    exact absurd hlimit (Nat.not_le_of_lt hnext.1)
  obtain ⟨ram, _, hram, hcopy⟩ := (granted_least crowded hsize "ram_007").1 "ram" 7 hcounts
  obtain ⟨top, _, htop, hcopy'⟩ :=
    (granted_least crowded hsize "top_18446744073709551615").2.1 hfull
  have hten : IsLeast (crowded.freeFrom "ram" 8) 10 :=
    isLeast_of_forall_mem (by decide) (by decide +kernel) (by decide +kernel)
  have htwo : IsLeast (crowded.freeFrom "top_18446744073709551615" 1) 2 :=
    isLeast_of_forall_mem (by decide) (by decide +kernel) (by decide +kernel)
  rw [hram.unique hten] at hcopy
  rw [htop.unique htwo] at hcopy'
  exact ⟨hsize, hcounts, hcopy, hcopy'⟩

end InstanceNames

end VerilogOutline
