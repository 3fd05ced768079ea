import Mathlib.Data.List.Nodup
import VerilogOutline.Proofs.Design.Outcome
import VerilogOutline.Proofs.InstanceNames.LeastFree

/-!
# Names and sub-modules

The names in use are exactly those of the sub-modules, and no two sub-modules share one,
after every course of actions. So a sub-module can be found by its name.
-/

namespace VerilogOutline.Design

def instanceNames (design : Design) : List String :=
  design.subModules.map (·.instanceName)

/-- The names in use are those of the sub-modules, each of a single one. -/
structure Registered (design : Design) : Prop where
  mem_names : ∀ name, name ∈ design.names ↔ name ∈ design.instanceNames
  nodup : design.instanceNames.Nodup

theorem registered_empty : Registered {} where
  mem_names := fun _ => Iff.rfl
  nodup := List.nodup_nil

variable {design : Design}

theorem getElem?_instanceNames {index : Nat} {subModule : SubModule}
    (h : design.get? index = some subModule) :
    design.instanceNames[index]? = some subModule.instanceName := by
  rw [instanceNames, List.getElem?_map, show design.subModules[index]? = some subModule from h]
  rfl

namespace Registered

section Changes

variable (h : design.Registered) {index : Nat} {old new : SubModule}

include h

/-- A sub-module is placed under a name that is not in use. -/
theorem place (hfree : new.instanceName ∉ design.names) :
    Registered {
      subModules := design.subModules ++ [new]
      names := design.names.insert new.instanceName } where
  mem_names := by
    intro name
    rw [InstanceNames.mem_insert, h.mem_names]
    simp [instanceNames, or_comm]
  nodup := by
    have hnew : new.instanceName ∉ design.instanceNames := fun hmem =>
      hfree ((h.mem_names _).mpr hmem)
    rw [instanceNames, List.map_append, List.map_singleton, ← List.concat_eq_append]
    exact h.nodup.concat hnew

/-- A sub-module is taken out and its name becomes free. -/
theorem takeOut (hget : design.get? index = some old) :
    Registered {
      subModules := design.subModules.eraseIdx index
      names := design.names.erase old.instanceName } := by
  have hnames : (design.subModules.eraseIdx index).map (·.instanceName) =
      design.instanceNames.erase old.instanceName := by
    obtain ⟨hindex, hname⟩ := List.getElem?_eq_some_iff.mp (getElem?_instanceNames hget)
    rw [← hname, h.nodup.erase_getElem, List.eraseIdx_eq_take_drop_succ,
      List.eraseIdx_eq_take_drop_succ, List.map_append, List.map_take, List.map_drop]
    rfl
  constructor
  · intro name
    rw [InstanceNames.mem_erase, h.mem_names, ← h.nodup.mem_erase_iff, ← hnames]
    rfl
  · rw [instanceNames, hnames]
    exact h.nodup.erase _

/-- A sub-module changes but for its name. -/
theorem replace (hget : design.get? index = some old)
    (hname : new.instanceName = old.instanceName) :
    Registered { design with subModules := design.subModules.set index new } := by
  have hnames : instanceNames { design with subModules := design.subModules.set index new } =
      design.instanceNames := by
    obtain ⟨hindex, hold⟩ := List.getElem?_eq_some_iff.mp (getElem?_instanceNames hget)
    rw [instanceNames, List.map_set, hname, ← hold]
    exact List.set_getElem_self hindex
  constructor
  · rw [hnames]
    exact h.mem_names
  · rw [hnames]
    exact h.nodup

end Changes

section Actions

variable (h : design.Registered)

include h

theorem addModule (module : Module) (source : String) :
    (design.addModule module source).value.2.Registered :=
  h.place (InstanceNames.newName_not_mem _ _)

theorem addModules (source : String) (modules : List Module) :
    (design.addModules source modules).value.2.Registered := by
  induction modules generalizing design with
  | nil => exact h
  | cons module modules ih => exact ih (h.addModule module source)

/-- Whatever becomes of the design by an action, the names in use are those of the
sub-modules again. -/
theorem outcome {action : Action} {reply : Reply} {changed : Design}
    (houtcome : design.Outcome action reply changed) : changed.Registered := by
  cases houtcome with
  | added => exact h.addModules _ _
  | copied => exact h.place (InstanceNames.copyName_not_mem _ _)
  | takenOut hget => exact h.takeOut hget
  | marked external hget => exact h.replace hget rfl
  | edited edit hget => exact h.replace hget rfl
  | missed => exact h

theorem perform (action : Action) : (design.perform action).value.2.Registered :=
  h.outcome (design.perform_outcome action)

theorem run (actions : List Action) : (design.run actions).value.2.Registered := by
  induction actions generalizing design with
  | nil => exact h
  | cons action actions ih => exact ih (h.perform action)

end Actions

section Find

variable (h : design.Registered)

include h

theorem find?_of_get? {index : Nat} {subModule : SubModule}
    (hget : design.get? index = some subModule) :
    design.find? subModule.instanceName = some subModule := by
  have hmem : subModule ∈ design.subModules := List.mem_of_getElem? hget
  cases hfind : design.find? subModule.instanceName with
  | none => simpa using List.find?_eq_none.mp hfind subModule hmem
  | some found =>
      have hname := List.find?_some hfind
      exact congrArg some (List.inj_on_of_nodup_map h.nodup (List.mem_of_find?_eq_some hfind) hmem
        (by simpa using hname))

theorem index_unique {index index' : Nat} {subModule other : SubModule}
    (hget : design.get? index = some subModule) (hget' : design.get? index' = some other)
    (hname : other.instanceName = subModule.instanceName) : index' = index := by
  have hindex := getElem?_instanceNames hget
  have hindex' := getElem?_instanceNames hget'
  rw [hname] at hindex'
  obtain ⟨hlength, _⟩ := List.getElem?_eq_some_iff.mp hindex'
  exact (List.getElem?_inj hlength h.nodup).mp (hindex'.trans hindex.symm)

theorem find?_eq_none {name : String} (hname : name ∉ design.names) :
    design.find? name = none := by
  rw [h.mem_names] at hname
  refine List.find?_eq_none.mpr fun subModule hmem heq => hname ?_
  exact List.mem_map.mpr ⟨subModule, hmem, by simpa using heq⟩

end Find

end Registered

/-- The design that actions lead to from an empty one. -/
def after (actions : List Action) : Design :=
  (run {} actions).value.2

theorem value_run_append (design : Design) (first second : List Action) :
    (design.run (first ++ second)).value.2 =
      ((design.run first).value.2.run second).value.2 := by
  induction first generalizing design with
  | nil => rfl
  | cons action first ih => exact ih (design.perform action).value.2

theorem after_append (first second : List Action) :
    after (first ++ second) = ((after first).run second).value.2 :=
  value_run_append {} first second

/-- Whatever is done with a design, the names in use are those of its sub-modules, all
different. A name leads to the one sub-module that has it, and to none if it is free. -/
theorem registered_after (actions : List Action) :
    (∀ name, name ∈ (after actions).names ↔ name ∈ (after actions).instanceNames) ∧
      (after actions).instanceNames.Nodup ∧
      (∀ index subModule, (after actions).get? index = some subModule →
        (after actions).find? subModule.instanceName = some subModule ∧
          ∀ index' other, (after actions).get? index' = some other →
            other.instanceName = subModule.instanceName → index' = index) ∧
      ∀ name, name ∉ (after actions).names → (after actions).find? name = none := by
  have h : (after actions).Registered := registered_empty.run actions
  refine ⟨h.mem_names, h.nodup, ?_, fun _ => h.find?_eq_none⟩
  intro index subModule hget
  exact ⟨h.find?_of_get? hget, fun _ _ => h.index_unique hget⟩

end VerilogOutline.Design
