import VerilogOutline.Proofs.Design.Outcome
import VerilogOutline.Proofs.Design.Registered
import VerilogOutline.Proofs.Outline.Clean

/-!
# Routing of internal sub-modules

All ports of an internal sub-module are led to the top level, as they are in every module
that is read from a source. Only those of external sub-modules may be taken off, and they
are back as soon as the sub-module, or a copy of it, is made internal.
-/

namespace VerilogOutline

theorem Port.routeToTop_of_mem_ofDeclarations {carried : Attributes} {decls : List Declaration} :
    ∀ port ∈ ofDeclarations carried decls, port.routeToTop = true := by
  intro port hport
  obtain ⟨index, hget⟩ := List.mem_iff_getElem?.mp hport
  rw [ofDeclarations_getElem?] at hget
  obtain ⟨decl, _, rfl⟩ := Option.map_eq_some_iff.mp hget
  rfl

namespace Module

def routes (module : Module) : List Bool :=
  module.ports.map (·.routeToTop)

theorem isRouted_iff {module : Module} :
    module.isRouted = true ↔ ∀ port ∈ module.ports, port.routeToTop = true :=
  List.all_eq_true

theorem isRouted_routeAll (module : Module) : module.routeAll.isRouted = true := by
  rw [isRouted_iff]
  intro port hport
  obtain ⟨old, _, rfl⟩ := List.mem_map.mp hport
  rfl

theorem isRouted_of_ofRegion {options : Options} {region : Region} {module : Module}
    (h : (ofRegion options region).value = .ok module) : module.isRouted = true := by
  obtain ⟨parameters, _, rfl⟩ := exists_of_ofRegion_eq_ok h
  rw [isRouted_iff]
  dsimp only
  rw [PortList.ports_read]
  exact Port.routeToTop_of_mem_ofDeclarations

end Module

namespace Outline

theorem isRouted_of_mem_load (options : Options) (source : String) :
    ∀ module ∈ (load options source).value.modules, module.isRouted = true := by
  intro module hmodule
  obtain ⟨region, _, hread⟩ := exists_region_of_mem_load hmodule
  exact Module.isRouted_of_ofRegion hread

theorem isRouted_of_mem_loadFile {options : Options} {disk : Disk} {path : String}
    {outline : Outline} (h : (loadFile options disk path).value = .ok outline) :
    ∀ module ∈ outline.modules, module.isRouted = true := by
  unfold loadFile at h
  split at h
  next =>
    split at h
    next =>
      obtain rfl := Except.ok.inj h
      simp
    next => contradiction
    next bytes _ =>
      obtain rfl := Except.ok.inj h
      exact isRouted_of_mem_load options (Utf8.text bytes)
  next =>
    obtain rfl := Except.ok.inj h
    simp

end Outline

namespace Design

/-- Every internal sub-module has all of its ports led to the top level. -/
def Routed (design : Design) : Prop :=
  ∀ subModule ∈ design.subModules, subModule.external = false → subModule.module.isRouted = true

/-- The action adds modules with all ports led to the top level only, and does not take
ports of an internal sub-module off. -/
def Allows (design : Design) : Action → Prop
  | .addFile _ _ _ => True
  | .addModules modules _ => ∀ module ∈ modules, module.isRouted = true
  | .addAgain index _ => ∀ subModule ∈ design.get? index, subModule.module.isRouted = true
  | .duplicate _ => True
  | .remove _ => True
  | .setExternal _ _ => True
  | .edit index edit => ∀ subModule ∈ design.get? index,
    subModule.external = true ∨
      (subModule.module.isRouted = true → (edit subModule.module).isRouted = true)

instance (design : Design) : DecidablePred design.Allows
  | .addFile _ _ _ => inferInstanceAs (Decidable True)
  | .addModules modules _ =>
    inferInstanceAs (Decidable (∀ module ∈ modules, module.isRouted = true))
  | .addAgain index _ =>
    inferInstanceAs (Decidable (∀ subModule ∈ design.get? index, subModule.module.isRouted = true))
  | .duplicate _ => inferInstanceAs (Decidable True)
  | .remove _ => inferInstanceAs (Decidable True)
  | .setExternal _ _ => inferInstanceAs (Decidable True)
  | .edit index edit =>
    inferInstanceAs (Decidable (∀ subModule ∈ design.get? index,
      subModule.external = true ∨
        (subModule.module.isRouted = true → (edit subModule.module).isRouted = true)))

/-- Each action is allowed when its turn comes. -/
def AllowsAll (design : Design) : List Action → Prop
  | [] => True
  | action :: rest => design.Allows action ∧ (design.perform action).value.2.AllowsAll rest

instance decidableAllowsAll (design : Design) :
    (actions : List Action) → Decidable (design.AllowsAll actions)
  | [] => inferInstanceAs (Decidable True)
  | action :: rest =>
    have := decidableAllowsAll (design.perform action).value.2 rest
    inferInstanceAs
      (Decidable (design.Allows action ∧ (design.perform action).value.2.AllowsAll rest))

/-- The routing flags of all ports, one list for each sub-module. -/
def routes (design : Design) : List (List Bool) :=
  design.subModules.map (·.module.routes)

theorem routed_empty : Routed {} := by
  intro subModule hmem
  contradiction

namespace Routed

variable {design : Design} (h : design.Routed)

include h

theorem addModules (source : String) {modules : List Module}
    (hmodules : ∀ module ∈ modules, module.isRouted = true) :
    (design.addModules source modules).value.2.Routed := by
  induction modules generalizing design with
  | nil => exact h
  | cons module modules ih =>
      rw [List.forall_mem_cons] at hmodules
      obtain ⟨hmodule, hmodules⟩ := hmodules
      have hadd : (design.addModule module source).value.2.Routed := by
        intro subModule hmem hinternal
        rcases List.mem_append.mp hmem with hold | hnew
        · exact h subModule hold hinternal
        · obtain rfl := List.mem_singleton.mp hnew
          exact hmodule
      exact ih hadd hmodules

/-- A sub-module changes so that it is external or has all ports led to the top level. -/
theorem replace (index : Nat) {new : SubModule}
    (hnew : new.external = false → new.module.isRouted = true) :
    Routed { design with subModules := design.subModules.set index new } := by
  intro subModule hmem hinternal
  rcases List.mem_or_eq_of_mem_set hmem with hold | rfl
  · exact h subModule hold hinternal
  · exact hnew hinternal

theorem outcome {action : Action} {reply : Reply} {changed : Design}
    (houtcome : design.Outcome action reply changed) (hallowed : design.Allows action) :
    changed.Routed := by
  cases houtcome with
  | @added action source modules reply hadds =>
      apply h.addModules source
      cases hadds with
      | file hload => exact Outline.isRouted_of_mem_loadFile hload
      | modules => exact hallowed
      | again hget =>
          intro module hmodule
          obtain rfl := List.mem_singleton.mp hmodule
          exact hallowed _ hget
  | @copied index original hget =>
      intro subModule hmem hinternal
      rcases List.mem_append.mp hmem with hold | hnew
      · exact h subModule hold hinternal
      · obtain rfl := List.mem_singleton.mp hnew
        -- the copy is external where the original is, and has its flags
        exact h original (List.mem_of_getElem? hget) hinternal
  | takenOut hget =>
      intro subModule hmem hinternal
      exact h subModule (List.mem_of_mem_eraseIdx hmem) hinternal
  | @marked index old external hget =>
      apply h.replace index
      intro hinternal
      obtain rfl : external = false := hinternal
      exact old.module.isRouted_routeAll
  | @edited index old edit hget =>
      apply h.replace index
      intro hinternal
      have hold : old.module.isRouted = true := h old (List.mem_of_getElem? hget) hinternal
      rcases hallowed old hget with hexternal | hkept
      · exact absurd (hinternal.symm.trans hexternal) (by decide)
      · exact hkept hold
  | missed => exact h

theorem run {actions : List Action} (hallowed : design.AllowsAll actions) :
    (design.run actions).value.2.Routed := by
  induction actions generalizing design with
  | nil => exact h
  | cons action actions ih =>
      exact ih (h.outcome (design.perform_outcome action) hallowed.1) hallowed.2

end Routed

section SetExternal

variable {design : Design} {index : Nat} {subModule : SubModule}

/-- To make a sub-module external changes no routing flag. -/
theorem exists_setExternal_true (hget : design.get? index = some subModule) :
    ∃ changed, design.setExternal index true = (.ok (), changed) ∧
      changed.routes = design.routes := by
  simp only [setExternal, hget]
  refine ⟨_, rfl, ?_⟩
  obtain ⟨hindex, rfl⟩ := List.getElem?_eq_some_iff.mp hget
  have hlength : index < (design.subModules.map (·.module.routes)).length := by
    rw [List.length_map]
    exact hindex
  have hsame : design.subModules[index].module.routes =
      (design.subModules.map (·.module.routes))[index] := by
    rw [List.getElem_map]
  simp only [routes, List.map_set, if_true, hsame]
  exact List.set_getElem_self _

/-- To make a sub-module internal leads all of its ports to the top level, and leaves the
other sub-modules as they are. -/
theorem exists_setExternal_false (hget : design.get? index = some subModule) :
    ∃ changed marked, design.setExternal index false = (.ok (), changed) ∧
      changed.get? index = some marked ∧ marked.external = false ∧
      marked.module.isRouted = true ∧
      ∀ other ≠ index, changed.get? other = design.get? other := by
  have hindex : index < design.subModules.length := (List.getElem?_eq_some_iff.mp hget).1
  simp only [setExternal, hget]
  refine ⟨_, _, rfl, List.getElem?_set_self hindex, rfl, subModule.module.isRouted_routeAll, ?_⟩
  intro other hne
  exact List.getElem?_set_ne hne.symm

end SetExternal

/-- Internal sub-modules have all ports led to the top level, whatever allowed actions are
taken. Modules that are read have them, to make a sub-module external changes no flag,
and to make it internal sets all of its flags, whatever was done to them before. -/
theorem routed_after {actions : List Action} (hallowed : AllowsAll {} actions) :
    (after actions).Routed ∧
      (∀ options source, ∀ module ∈ (Outline.load options source).value.modules,
        module.isRouted = true) ∧
      (∀ options disk path outline, (Outline.loadFile options disk path).value = .ok outline →
        ∀ module ∈ outline.modules, module.isRouted = true) ∧
      ∀ (design : Design) index subModule, design.get? index = some subModule →
        (∃ changed, design.setExternal index true = (.ok (), changed) ∧
          changed.routes = design.routes) ∧
        ∃ changed marked, design.setExternal index false = (.ok (), changed) ∧
          changed.get? index = some marked ∧ marked.external = false ∧
          marked.module.isRouted = true ∧
          ∀ other ≠ index, changed.get? other = design.get? other := by
  refine ⟨routed_empty.run hallowed, Outline.isRouted_of_mem_load, ?_, ?_⟩
  · intro options disk path outline hload
    exact Outline.isRouted_of_mem_loadFile hload
  · intro design index subModule hget
    exact ⟨exists_setExternal_true hget, exists_setExternal_false hget⟩

/-- Ports of an external sub-module are taken off, and a copy of it is made internal. -/
def unroutedPad : List Action :=
  [.addModules [{ name := "pad", ports := [{ name := "io" }, { name := "clk" }] }] "rtl/pad.v",
    .setExternal 0 true, .edit 0 (·.setRoutes [false]), .duplicate 0, .setExternal 1 false,
    .edit 1 (·.rename "inner")]

/-- The flag of the original stays, and the copy has both of its flags again. -/
theorem routed_unroutedPad :
    AllowsAll {} unroutedPad ∧ (after unroutedPad).Routed ∧
      (after unroutedPad).routes = [[false, true], [true, true]] := by
  have hallowed : AllowsAll {} unroutedPad := by decide +kernel
  exact ⟨hallowed, (routed_after hallowed).1, by decide +kernel⟩

end Design

end VerilogOutline
