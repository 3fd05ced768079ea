import Mathlib.Data.List.Forall2
import VerilogOutline.Proofs.Design.Outcome
import VerilogOutline.Proofs.Design.Registered
import VerilogOutline.Proofs.InstanceNames.LeastFree

/-!
# Where instance names come from

Every sub-module descends from a module that was added, possibly by way of copies. Its
instance name is the name that this module had when it was added, with a number below the
count of names granted so far. So names stay short of the limit for numbers, and a copy
is found on the first search.
-/

namespace VerilogOutline.Design

/-- The number of instance names that replies tell of. -/
def granted (replies : List Reply) : Nat :=
  replies.foldr (fun reply total => reply.granted + total) 0

/-- The origins of the sub-modules after an action: for each one the name of the module that
it descends from, as it was when the module was added. A copy has the origin of the
sub-module that it copies. -/
def descend (design : Design) (origins : List String) : Action → List String
  | .addFile options disk path =>
    match (Outline.loadFile options disk path).value with
    | .ok outline => origins ++ outline.modules.map (·.name)
    | .error _ => origins
  | .addModules modules _ => origins ++ modules.map (·.name)
  | .addAgain index _ => origins ++ ((design.get? index).map (·.module.name)).toList
  | .duplicate index => origins ++ origins[index]?.toList
  | .remove index => origins.eraseIdx index
  | .setExternal _ _ => origins
  | .edit _ _ => origins

/-- The origins after actions, given those of the sub-modules at the beginning. -/
def originsFrom (design : Design) (origins : List String) : List Action → List String
  | [] => origins
  | action :: rest =>
    (design.perform action).value.2.originsFrom (design.descend origins action) rest

/-- The origins of the sub-modules that actions lead to from an empty design. -/
def originsAfter (actions : List Action) : List String :=
  originsFrom {} [] actions

/-- The number of instance names granted by actions on an empty design. -/
def grantedBy (actions : List Action) : Nat :=
  granted (run {} actions).value.1

/-- The name is that of the origin with a number below the bound. -/
def NamedAfter (bound : Nat) (subModule : SubModule) (origin : String) : Prop :=
  ∃ number < bound, subModule.instanceName = Numbered.name origin number

theorem NamedAfter.mono {bound bound' : Nat} (hle : bound ≤ bound') {subModule : SubModule}
    {origin : String} (h : NamedAfter bound subModule origin) :
    NamedAfter bound' subModule origin := by
  obtain ⟨number, hlt, hname⟩ := h
  exact ⟨number, by omega, hname⟩

/-- The sub-modules are named after origins, with numbers below a bound. -/
structure Descended (design : Design) (origins : List String) (bound : Nat) : Prop where
  registered : design.Registered
  named : List.Forall₂ (NamedAfter bound) design.subModules origins

theorem descended_empty : Descended {} [] 0 where
  registered := registered_empty
  named := .nil

section Pairs

variable {α β : Type} {r : α → β → Prop} {xs : List α} {ys : List β}

theorem forall₂_eraseIdx (h : List.Forall₂ r xs ys) (index : Nat) :
    List.Forall₂ r (xs.eraseIdx index) (ys.eraseIdx index) := by
  induction h generalizing index with
  | nil => exact .nil
  | cons hhead htail ih =>
      cases index with
      | zero => exact htail
      | succ index => exact .cons hhead (ih index)

theorem forall₂_set (h : List.Forall₂ r xs ys) {index : Nat} {old new : α}
    (hget : xs[index]? = some old) (hnew : ∀ y, r old y → r new y) :
    List.Forall₂ r (xs.set index new) ys := by
  induction h generalizing index with
  | nil => contradiction
  | cons hhead htail ih =>
      cases index with
      | zero =>
          obtain rfl := Option.some.inj hget
          exact .cons (hnew _ hhead) htail
      | succ index => exact .cons hhead (ih hget)

end Pairs

namespace Descended

variable {design : Design} {origins : List String} {bound : Nat}

section Changes

variable (h : design.Descended origins bound)

include h

theorem exists_origin {index : Nat} {subModule : SubModule}
    (hget : design.get? index = some subModule) :
    ∃ origin, origins[index]? = some origin ∧ NamedAfter bound subModule origin := by
  obtain ⟨hindex, rfl⟩ := List.getElem?_eq_some_iff.mp hget
  have hindex' : index < origins.length := h.named.length_eq ▸ hindex
  exact ⟨_, List.getElem?_eq_getElem hindex', h.named.get hindex hindex'⟩

theorem origin_eq_none {index : Nat} (hget : design.get? index = none) :
    origins[index]? = none := by
  rw [List.getElem?_eq_none_iff, ← h.named.length_eq]
  exact List.getElem?_eq_none_iff.mp hget

theorem numberedBelow : design.names.NumberedBelow bound := by
  intro name hname
  obtain ⟨subModule, hmem, rfl⟩ := List.mem_map.mp ((h.registered.mem_names name).mp hname)
  obtain ⟨index, hget⟩ := List.mem_iff_getElem?.mp hmem
  obtain ⟨origin, _, number, hlt, heq⟩ := h.exists_origin hget
  exact ⟨origin, number, hlt, heq⟩

/-- A sub-module is placed under a free name that has the next number at most. -/
theorem place {new : SubModule} {origin : String} {number : Nat}
    (hname : new.instanceName = Numbered.name origin number) (hnumber : number ≤ bound)
    (hfree : new.instanceName ∉ design.names) :
    Descended {
      subModules := design.subModules ++ [new]
      names := design.names.insert new.instanceName } (origins ++ [origin]) (bound + 1) where
  registered := h.registered.place hfree
  named := by
    have hold := h.named.imp fun _ _ => NamedAfter.mono (Nat.le_succ bound)
    have hnew : NamedAfter (bound + 1) new origin := ⟨number, Nat.lt_succ_of_le hnumber, hname⟩
    exact List.rel_append hold (.cons hnew .nil)

theorem addModule (hlimit : bound ≤ Numbered.highest) (module : Module) (source : String) :
    (design.addModule module source).value.2.Descended (origins ++ [module.name]) (bound + 1) := by
  obtain ⟨number, hbound, _, hname⟩ := h.numberedBelow.exists_newName hlimit module.name
  exact h.place hname hbound (InstanceNames.newName_not_mem _ _)

theorem addModules (source : String) (modules : List Module)
    (hlimit : bound + modules.length ≤ Numbered.highest) :
    (design.addModules source modules).value.2.Descended (origins ++ modules.map (·.name))
      (bound + modules.length) := by
  induction modules generalizing design origins bound with
  | nil =>
      rw [List.map_nil, List.append_nil]
      exact h
  | cons module modules ih =>
      rw [List.length_cons] at hlimit ⊢
      have hadd := h.addModule (by omega) module source
      have hrest := ih hadd (by omega)
      rw [List.append_assoc] at hrest
      rw [show bound + (modules.length + 1) = bound + 1 + modules.length by omega]
      exact hrest

/-- A copy has the origin of its original. Its number is the first free one behind that of
the original. -/
theorem exists_copy (hlimit : bound ≤ Numbered.highest) {index number : Nat}
    {subModule : SubModule} {origin : String} (hget : design.get? index = some subModule)
    (horigin : origins[index]? = some origin)
    (hname : subModule.instanceName = Numbered.name origin number) :
    ∃ copy, number < copy ∧
      Numbered.split? subModule.instanceName = some (origin, number) ∧
      design.names.firstFree? origin (number + 1) = some (Numbered.name origin copy) ∧
      (design.perform (.duplicate index)).value.2.subModules = design.subModules ++
        [{ subModule with instanceName := Numbered.name origin copy }] ∧
      design.descend origins (.duplicate index) = origins ++ [origin] := by
  obtain ⟨origin', horigin', number', hlt, hname'⟩ := h.exists_origin hget
  obtain ⟨rfl, rfl⟩ := Numbered.name_inj.mp (hname.symm.trans hname')
  obtain ⟨copy, hcopy, _, hfound, hcopyName⟩ := h.numberedBelow.exists_copyName hlimit origin hlt
  refine ⟨copy, hcopy, ?_, by rw [hfound, hcopyName], ?_, ?_⟩
  · rw [hname]
    exact Numbered.split?_name origin (by omega)
  · rw [(Outcome.copied hget).perform_eq, hname, hcopyName]
  · simp only [descend, horigin]
    rfl

/-- An action that has nothing to work on leaves the origins as they are. -/
theorem descend_of_misses {action : Action} {reply : Reply}
    (hmisses : design.Misses action reply) : design.descend origins action = origins := by
  cases hmisses with
  | file hload => simp only [descend, hload]
  | @index action index reply htarget hget =>
      have horigin := h.origin_eq_none hget
      cases action with
      | addFile options disk path => contradiction
      | addModules modules source => contradiction
      | addAgain index source =>
          obtain ⟨rfl, _⟩ := Prod.mk.inj (Option.some.inj htarget)
          simp [descend, hget]
      | duplicate index =>
          obtain ⟨rfl, _⟩ := Prod.mk.inj (Option.some.inj htarget)
          simp [descend, horigin]
      | remove index =>
          obtain ⟨rfl, _⟩ := Prod.mk.inj (Option.some.inj htarget)
          exact List.eraseIdx_of_length_le (List.getElem?_eq_none_iff.mp horigin)
      | setExternal index external => rfl
      | edit index edit => rfl

/-- What an action makes of a design has the origins that the action leads to, and the
bound goes up by the number of names granted. -/
theorem outcome {action : Action} {reply : Reply} {changed : Design}
    (houtcome : design.Outcome action reply changed)
    (hlimit : bound + reply.granted ≤ Numbered.highest) :
    changed.Descended (design.descend origins action) (bound + reply.granted) := by
  cases houtcome with
  | @added action source modules reply hadds =>
      have hgranted := hadds.granted_eq
      have horigins : design.descend origins action = origins ++ modules.map (·.name) := by
        cases hadds with
        | file hload => simp only [descend, hload]
        | modules => rfl
        | again hget => simp only [descend, hget]; rfl
      rw [hgranted] at hlimit ⊢
      rw [horigins]
      exact h.addModules source modules hlimit
  | @copied index original hget =>
      obtain ⟨origin, horigin, number, hlt, hname⟩ := h.exists_origin hget
      have hbound : bound ≤ Numbered.highest := Nat.le_trans (Nat.le_add_right _ _) hlimit
      -- the stem that the name of the original is taken apart into is its origin again
      obtain ⟨copy, _, hcopy, _, hcopyName⟩ := h.numberedBelow.exists_copyName hbound origin hlt
      rw [← hname] at hcopyName
      have hnew : SubModule.instanceName
          { original with instanceName := design.names.copyName original.instanceName } =
            Numbered.name origin copy := hcopyName
      simp only [descend, horigin]
      exact h.place hnew hcopy (InstanceNames.copyName_not_mem _ _)
  | takenOut hget =>
      exact ⟨h.registered.takeOut hget, forall₂_eraseIdx h.named _⟩
  | marked external hget =>
      exact ⟨h.registered.replace hget rfl, forall₂_set h.named hget fun _ => id⟩
  | edited edit hget =>
      exact ⟨h.registered.replace hget rfl, forall₂_set h.named hget fun _ => id⟩
  | missed hmisses =>
      rw [hmisses.granted_eq_zero, h.descend_of_misses hmisses]
      exact h

theorem run (actions : List Action)
    (hlimit : bound + granted (design.run actions).value.1 ≤ Numbered.highest) :
    (design.run actions).value.2.Descended (design.originsFrom origins actions)
      (bound + granted (design.run actions).value.1) := by
  induction actions generalizing design origins bound with
  | nil => exact h
  | cons action actions ih =>
      have hgranted : granted (design.run (action :: actions)).value.1 =
          (design.perform action).value.1.granted +
            granted ((design.perform action).value.2.run actions).value.1 := rfl
      rw [hgranted, ← Nat.add_assoc] at hlimit ⊢
      have hnext := h.outcome (design.perform_outcome action)
        (Nat.le_trans (Nat.le_add_right _ _) hlimit)
      exact ih hnext hlimit

end Changes

theorem after {actions : List Action} (hlimit : grantedBy actions ≤ Numbered.highest) :
    (Design.after actions).Descended (originsAfter actions) (grantedBy actions) := by
  have hrun := descended_empty.run actions (by rw [Nat.zero_add]; exact hlimit)
  rw [Nat.zero_add] at hrun
  exact hrun

end Descended

theorem originsFrom_concat (design : Design) (origins : List String) (actions : List Action)
    (action : Action) :
    design.originsFrom origins (actions ++ [action]) =
      (design.run actions).value.2.descend (design.originsFrom origins actions) action := by
  induction actions generalizing design origins with
  | nil => rfl
  | cons first rest ih => exact ih (design.perform first).value.2 (design.descend origins first)

theorem after_concat (actions : List Action) (action : Action) :
    after (actions ++ [action]) = ((after actions).perform action).value.2 :=
  after_append actions [action]

theorem originsAfter_concat (actions : List Action) (action : Action) :
    originsAfter (actions ++ [action]) = (after actions).descend (originsAfter actions) action :=
  originsFrom_concat {} [] actions action

/-- Instance names are those of the origins with numbers below the count of names granted. A
name is found on the first search, for a new instance of any module as for a copy, and
the copy has the origin of the original and a greater number. All of this holds on the
way as well: actions can stop anywhere, also between two modules that are added. -/
theorem after_named {actions : List Action} (hlimit : grantedBy actions < Numbered.highest) :
    List.Forall₂ (NamedAfter (grantedBy actions)) (after actions).subModules
        (originsAfter actions) ∧
      (∀ moduleName, (after actions).names.firstFree? moduleName 0 =
        some ((after actions).names.newName moduleName)) ∧
      ∀ index subModule origin number, (after actions).get? index = some subModule →
        (originsAfter actions)[index]? = some origin →
        subModule.instanceName = Numbered.name origin number →
        ∃ copy, number < copy ∧
          Numbered.split? subModule.instanceName = some (origin, number) ∧
          (after actions).names.firstFree? origin (number + 1) =
            some (Numbered.name origin copy) ∧
          (after (actions ++ [.duplicate index])).subModules = (after actions).subModules ++
            [{ subModule with instanceName := Numbered.name origin copy }] ∧
          originsAfter (actions ++ [.duplicate index]) = originsAfter actions ++ [origin] := by
  have h : (after actions).Descended (originsAfter actions) (grantedBy actions) :=
    Descended.after (Nat.le_of_lt hlimit)
  refine ⟨h.named, ?_, ?_⟩
  · intro moduleName
    obtain ⟨_, _, hfound, _⟩ := h.numberedBelow.exists_newName (Nat.le_of_lt hlimit) moduleName
    exact hfound
  · intro index subModule origin number hget horigin hname
    rw [after_concat, originsAfter_concat]
    exact h.exists_copy (Nat.le_of_lt hlimit) hget horigin hname

/-- Copies of a module whose name ends in the highest number. One is taken out, and the
module is renamed and added again. -/
def renamedRam : List Action :=
  [.addModules [{ name := "ram_18446744073709551615" }] "rtl/ram.v", .duplicate 0, .duplicate 1,
    .remove 1, .edit 0 (·.rename "rom"), .addAgain 0 "rtl/rom.v", .duplicate 1]

theorem renamedRam_named :
    grantedBy renamedRam < Numbered.highest ∧
      (after renamedRam).instanceNames = ["ram_18446744073709551615_0",
        "ram_18446744073709551615_2", "rom_0", "ram_18446744073709551615_3"] ∧
      List.Forall₂ (NamedAfter 5) (after renamedRam).subModules ["ram_18446744073709551615",
        "ram_18446744073709551615", "rom", "ram_18446744073709551615"] := by
  have hgranted : grantedBy renamedRam = 5 := by decide +kernel
  have horigins : originsAfter renamedRam = ["ram_18446744073709551615",
      "ram_18446744073709551615", "rom", "ram_18446744073709551615"] := by decide +kernel
  have hlimit : grantedBy renamedRam < Numbered.highest := by
    rw [hgranted]
    decide
  have hnamed := (after_named hlimit).1
  rw [hgranted, horigins] at hnamed
  exact ⟨hlimit, by decide +kernel, hnamed⟩

end VerilogOutline.Design
