import Mathlib.Data.List.Forall2
import VerilogOutline.Outline

/-!
# Strict and lenient reading

A source has the same regions whether or not its port lists must be readable throughout.
What is asked for in addition turns modules with unreadable port list entries into
rejections, each in its place, and changes nothing else.
-/

namespace VerilogOutline

/-- Port list entries that cannot be read are left out. -/
def Options.lenient (options : Options) : Options :=
  { options with strictPorts := false }

/-- Port list entries that cannot be read cost the whole module. -/
def Options.strict (options : Options) : Options :=
  { options with strictPorts := true }

/-- What a region yields in lenient and in strict reading. -/
inductive Corresponds (region : Region) :
    Except Rejection Module → Except Rejection Module → Prop
  | broken (complaint : MissingValue) :
      Corresponds region (.error (.parameters region.name complaint))
        (.error (.parameters region.name complaint))
  | readable {module : Module} :
      module.name = region.name → module.skippedPorts = 0 →
      Corresponds region (.ok module) (.ok module)
  | unreadable {module : Module} :
      module.name = region.name → 0 < module.skippedPorts →
      Corresponds region (.ok module) (.error (.ports module.name module.skippedPorts))

/-- A region with what it yields in both ways of reading. -/
structure Comparison where
  region : Region
  lenient : Except Rejection Module
  strict : Except Rejection Module
  corresponds : Corresponds region lenient strict

theorem corresponds_ofRegion (options : Options) (region : Region) :
    Corresponds region (Module.ofRegion options.lenient region).value
      (Module.ofRegion options.strict region).value := by
  unfold Module.ofRegion
  cases hparameters : Parameter.readList region.parameters.toList with
  | error complaint => exact .broken complaint
  | ok parameters =>
      simp only [Options.lenient, Options.strict, Recorded.value_bind, Bool.false_and,
        Bool.true_and, Bool.false_eq_true, if_false]
      split
      next hskipped => exact .unreadable rfl (Nat.pos_of_ne_zero (by simpa using hskipped))
      next hread => exact .readable rfl (by simpa using hread)

namespace Comparison

/-- A region and the results of reading it. -/
def ofRegion (options : Options) (region : Region) : Comparison where
  region := region
  lenient := (Module.ofRegion options.lenient region).value
  strict := (Module.ofRegion options.strict region).value
  corresponds := corresponds_ofRegion options region

/-- A rejection in either way of reading bears the name of the region. -/
theorem moduleName_eq (comparison : Comparison) {rejection : Rejection}
    (h : comparison.lenient = .error rejection ∨ comparison.strict = .error rejection) :
    rejection.moduleName = comparison.region.name := by
  obtain ⟨region, lenient, strict, hcorresponds⟩ := comparison
  cases hcorresponds with
  | broken complaint =>
      obtain rfl : Rejection.parameters region.name complaint = rejection := by simpa using h
      rfl
  | readable hname _ => simp at h
  | @unreadable module hname _ =>
      obtain rfl : Rejection.ports module.name module.skippedPorts = rejection := by simpa using h
      exact hname

end Comparison

namespace Outline

/-- The regions of a source, comments left out. -/
def regions (source : String) : List Region :=
  Sighting.regions (Sighting.scan (Comment.strip source.toList))

/-- The regions of a source with the results of reading them. -/
def comparisons (options : Options) (source : String) : List Comparison :=
  (regions source).map (Comparison.ofRegion options)

theorem map_region_comparisons (options : Options) (source : String) :
    (comparisons options source).map (·.region) = regions source := by
  rw [comparisons, List.map_map]
  exact List.map_id (regions source)

theorem map_lenient_comparisons (options : Options) (source : String) :
    (comparisons options source).map (·.lenient) = (readModules options.lenient source).value := by
  rw [comparisons, List.map_map, value_readModules]
  rfl

theorem map_strict_comparisons (options : Options) (source : String) :
    (comparisons options source).map (·.strict) = (readModules options.strict source).value := by
  rw [comparisons, List.map_map, value_readModules]
  rfl

/-- The rejection in strict reading of what lenient reading yields. -/
def strictRejection? : Except Rejection Module → Option Rejection
  | .error rejection => some rejection
  | .ok module =>
    if module.skippedPorts = 0 then none else some (.ports module.name module.skippedPorts)

theorem toOption_strict (comparison : Comparison) :
    comparison.strict.toOption = comparison.lenient.toOption.filter (·.skippedPorts = 0) := by
  obtain ⟨region, lenient, strict, hcorresponds⟩ := comparison
  cases hcorresponds with
  | broken complaint => rfl
  | readable _ hskipped => simp [Except.toOption, Option.filter, hskipped]
  | unreadable _ hskipped => simp [Except.toOption, Option.filter, Nat.ne_of_gt hskipped]

theorem rejection?_strict (comparison : Comparison) :
    rejection? comparison.strict = strictRejection? comparison.lenient := by
  obtain ⟨region, lenient, strict, hcorresponds⟩ := comparison
  cases hcorresponds with
  | broken complaint => rfl
  | readable _ hskipped => simp [rejection?, strictRejection?, hskipped]
  | unreadable _ hskipped => simp [rejection?, strictRejection?, Nat.ne_of_gt hskipped]

theorem modules_strict (comparisons : List Comparison) :
    (ofResults (comparisons.map (·.strict))).modules =
      (ofResults (comparisons.map (·.lenient))).modules.filter (·.skippedPorts = 0) := by
  simp only [ofResults, List.filterMap_map, List.filter_filterMap, Function.comp_def,
    toOption_strict]

theorem rejected_strict (comparisons : List Comparison) :
    (ofResults (comparisons.map (·.strict))).rejected =
      (comparisons.map (·.lenient)).filterMap strictRejection? := by
  simp only [ofResults, List.filterMap_map, Function.comp_def, rejection?_strict]

/-- Modules and rejections share the regions out among them, in order. -/
theorem forall₂_ofResults (read : Region → Except Rejection Module) (regions : List Region) :
    List.Forall₂ (fun region module => read region = .ok module)
        (regions.filter fun region => (read region).isOk) (ofResults (regions.map read)).modules ∧
      List.Forall₂ (fun region rejection => read region = .error rejection)
        (regions.filter fun region => !(read region).isOk)
        (ofResults (regions.map read)).rejected := by
  induction regions with
  | nil => exact ⟨.nil, .nil⟩
  | cons region regions ih =>
      obtain ⟨hmodules, hrejected⟩ := ih
      cases hread : read region with
      | ok module =>
          simp only [ofResults, List.map_cons, List.filterMap_cons, List.filter_cons, hread]
          exact ⟨.cons hread hmodules, hrejected⟩
      | error rejection =>
          simp only [ofResults, List.map_cons, List.filterMap_cons, List.filter_cons, hread]
          exact ⟨hmodules, .cons hread hrejected⟩

/-- The rejections in strict reading are those in lenient reading and one for each module that
lacks port list entries. -/
theorem perm_strictRejections (results : List (Except Rejection Module)) :
    (results.filterMap strictRejection?).Perm
      ((ofResults results).rejected ++
        ((ofResults results).modules.filter (0 < ·.skippedPorts)).map fun module =>
          .ports module.name module.skippedPorts) := by
  induction results with
  | nil => exact .nil
  | cons result results ih =>
      simp only [ofResults, List.filterMap_cons] at ih ⊢
      cases result with
      | error rejection => exact ih.cons rejection
      | ok module =>
          by_cases hskipped : module.skippedPorts = 0
          · simpa [strictRejection?, rejection?, Except.toOption, hskipped] using ih
          · have hpos : 0 < module.skippedPorts := Nat.pos_of_ne_zero hskipped
            simp only [strictRejection?, rejection?, Except.toOption, hskipped, if_false,
              List.filter_cons, hpos, decide_true, if_true, List.map_cons]
            exact (ih.cons _).trans List.perm_middle.symm

/-- Strict reading yields what lenient reading does, region by region, but for modules that
lack port list entries: these are rejected in their places. So the outlines differ in these
modules only, and each of the two accounts for every region once. -/
theorem strict_lenient (options : Options) (source : String) :
    (∃ comparisons : List Comparison,
        comparisons.map (·.region) = regions source ∧
          comparisons.map (·.lenient) = (readModules options.lenient source).value ∧
          comparisons.map (·.strict) = (readModules options.strict source).value ∧
          ∀ comparison ∈ comparisons, ∀ rejection,
            comparison.lenient = .error rejection ∨ comparison.strict = .error rejection →
            rejection.moduleName = comparison.region.name) ∧
      (load options.strict source).value.modules =
        (load options.lenient source).value.modules.filter (·.skippedPorts = 0) ∧
      (load options.strict source).value.rejected =
        (readModules options.lenient source).value.filterMap strictRejection? ∧
      (load options.strict source).value.rejected.Perm
        ((load options.lenient source).value.rejected ++
          ((load options.lenient source).value.modules.filter (0 < ·.skippedPorts)).map
            fun module => .ports module.name module.skippedPorts) ∧
      ∀ mode : Options,
        List.Forall₂ (fun region module => (Module.ofRegion mode region).value = .ok module)
            ((regions source).filter fun region => (Module.ofRegion mode region).value.isOk)
            (load mode source).value.modules ∧
          List.Forall₂
            (fun region rejection => (Module.ofRegion mode region).value = .error rejection)
            ((regions source).filter fun region => !(Module.ofRegion mode region).value.isOk)
            (load mode source).value.rejected := by
  have hlenient := map_lenient_comparisons options source
  have hstrict := map_strict_comparisons options source
  have hrejected : (load options.strict source).value.rejected =
      (readModules options.lenient source).value.filterMap strictRejection? := by
    rw [value_load, ← hstrict, rejected_strict, hlenient]
  refine ⟨⟨comparisons options source, map_region_comparisons options source, hlenient, hstrict,
    fun comparison _ rejection => comparison.moduleName_eq⟩, ?_, hrejected, ?_, ?_⟩
  · rw [value_load, value_load, ← hstrict, ← hlenient, modules_strict]
  · rw [hrejected]
    exact perm_strictRejections _
  · intro mode
    rw [value_load, value_readModules]
    exact forall₂_ofResults _ (regions source)

/-- A parameter without a value is reported either way, and port list entries behind it never. -/
example : (load (Options.strict {})
    "module a #(W) (x, [1]); endmodule module b (y, [1]); endmodule module c (z); endmodule"
    ).value.rejected = [.parameters "a" { segment := "W" }, .ports "b" 1] := by
  decide +kernel

end Outline

end VerilogOutline
