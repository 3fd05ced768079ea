import VerilogOutline.Proofs.Design.Registered
import VerilogOutline.Proofs.InstanceNames.Interleaved

/-!
# Designs that agree

Two designs with the same sub-modules and the same names in use cannot be told apart: every
course of actions gets the same replies from both, and they agree afterwards.
-/

namespace VerilogOutline.Design

/-- The designs hold the same sub-modules, and the same names are in use. -/
structure Agrees (design other : Design) : Prop where
  subModules : design.subModules = other.subModules
  names : design.names.SameNames other.names

/-- Where the names in use are those of the sub-modules, these settle everything. -/
theorem Registered.agrees {design other : Design} (h : design.Registered)
    (h' : other.Registered) (hsubModules : design.subModules = other.subModules) :
    design.Agrees other where
  subModules := hsubModules
  names := by
    intro name
    rw [h.mem_names, h'.mem_names, instanceNames, instanceNames, hsubModules]

namespace Agrees

variable {design other : Design} (h : design.Agrees other)

include h

theorem get?_eq (index : Nat) : design.get? index = other.get? index := by
  rw [get?, get?, h.subModules]

theorem place {subModule subModule' : SubModule} {name name' : String}
    (hsubModule : subModule = subModule') (hname : name = name') :
    Agrees { subModules := design.subModules ++ [subModule], names := design.names.insert name }
      { subModules := other.subModules ++ [subModule'], names := other.names.insert name' } where
  subModules := by rw [h.subModules, hsubModule]
  names := by
    rw [hname]
    exact h.names.insert name'

theorem set (index : Nat) (subModule : SubModule) :
    Agrees { design with subModules := design.subModules.set index subModule }
      { other with subModules := other.subModules.set index subModule } where
  subModules := congrArg (·.set index subModule) h.subModules
  names := h.names

theorem addModule (module : Module) (source : String) :
    (design.addModule module source).value.1 = (other.addModule module source).value.1 ∧
      (design.addModule module source).value.2.Agrees (other.addModule module source).value.2 := by
  have hname : design.names.newName module.name = other.names.newName module.name :=
    h.names.newName_eq module.name
  refine ⟨hname, h.place ?_ hname⟩
  rw [hname]

theorem addModules (source : String) (modules : List Module) :
    (design.addModules source modules).value.1 = (other.addModules source modules).value.1 ∧
      (design.addModules source modules).value.2.Agrees
        (other.addModules source modules).value.2 := by
  induction modules generalizing design other with
  | nil => exact ⟨rfl, h⟩
  | cons module modules ih =>
      obtain ⟨hname, hnext⟩ := h.addModule module source
      obtain ⟨hnames, hend⟩ := ih hnext
      exact ⟨congrArg₂ List.cons hname hnames, hend⟩

theorem adds {action : Action} {source : String} {modules : List Module}
    {reply : List String → Reply} (hadds : design.Adds action source modules reply) :
    other.Adds action source modules reply := by
  cases hadds with
  | file hload => exact .file hload
  | modules => exact .modules modules source
  | again hget => exact .again (h.get?_eq _ ▸ hget)

theorem misses {action : Action} {reply : Reply} (hmisses : design.Misses action reply) :
    other.Misses action reply := by
  cases hmisses with
  | file hload => exact .file hload
  | index htarget hget => exact .index htarget (h.get?_eq _ ▸ hget)

/-- What becomes of one design by an action becomes of the other one as well, with the
same reply. -/
theorem exists_outcome {action : Action} {reply : Reply} {changed : Design}
    (houtcome : design.Outcome action reply changed) :
    ∃ changed', other.Outcome action reply changed' ∧ changed.Agrees changed' := by
  cases houtcome with
  | @added action source modules reply hadds =>
      obtain ⟨hnames, hend⟩ := h.addModules source modules
      rw [hnames]
      exact ⟨_, .added (h.adds hadds), hend⟩
  | @copied index original hget =>
      have hname : design.names.copyName original.instanceName =
          other.names.copyName original.instanceName := h.names.copyName_eq _
      rw [hname]
      exact ⟨_, .copied (h.get?_eq index ▸ hget), h.place rfl rfl⟩
  | @takenOut index old hget =>
      exact ⟨_, .takenOut (h.get?_eq index ▸ hget), congrArg (·.eraseIdx index) h.subModules,
        h.names.erase _⟩
  | @marked index old external hget =>
      exact ⟨_, .marked external (h.get?_eq index ▸ hget), h.set index _⟩
  | @edited index old edit hget =>
      exact ⟨_, .edited edit (h.get?_eq index ▸ hget), h.set index _⟩
  | missed hmisses => exact ⟨_, .missed (h.misses hmisses), h⟩

/-- An action gets the same reply from both designs, and leaves them in agreement. -/
theorem perform (action : Action) :
    (design.perform action).value.1 = (other.perform action).value.1 ∧
      (design.perform action).value.2.Agrees (other.perform action).value.2 := by
  obtain ⟨changed, houtcome, hagrees⟩ := h.exists_outcome (design.perform_outcome action)
  rw [houtcome.perform_eq]
  exact ⟨rfl, hagrees⟩

theorem run (actions : List Action) :
    (design.run actions).value.1 = (other.run actions).value.1 ∧
      (design.run actions).value.2.Agrees (other.run actions).value.2 := by
  induction actions generalizing design other with
  | nil => exact ⟨rfl, h⟩
  | cons action actions ih =>
      obtain ⟨hreply, hnext⟩ := h.perform action
      obtain ⟨hreplies, hend⟩ := ih hnext
      exact ⟨congrArg₂ List.cons hreply hreplies, hend⟩

end Agrees

end VerilogOutline.Design
