import Mathlib.Data.List.Nodup
import VerilogOutline.Proofs.Design.Outcome
import VerilogOutline.Proofs.Design.Registered
import VerilogOutline.Proofs.InstanceNames.LeastFree

/-!
# What an action leaves alone

An action that fails leaves the design as it is. One that succeeds either puts sub-modules
behind all others, or it takes out or marks the single one that it names. Everything else
stays in place, and so do the names of everything else.
-/

namespace VerilogOutline.Design

/-- Sub-modules are added behind the others, under new names. -/
structure Extends (design : Design) (added : List SubModule) (changed : Design) : Prop where
  subModules : changed.subModules = design.subModules ++ added
  mem_names : ∀ name,
    name ∈ changed.names ↔ name ∈ added.map (·.instanceName) ∨ name ∈ design.names
  fresh : ∀ subModule ∈ added, subModule.instanceName ∉ design.names
  nodup : (added.map (·.instanceName)).Nodup

/-- In the place of one sub-module stand others, and those around it are the same. -/
def Replaces (design : Design) (index : Nat) (old : SubModule) (new : List SubModule)
    (changed : Design) : Prop :=
  ∃ front back, front.length = index ∧ design.subModules = front ++ old :: back ∧
    changed.subModules = front ++ new ++ back

/-- The sub-module that is placed for a module. -/
def instanceOf (design : Design) (module : Module) (source : String) : SubModule where
  source := source
  filename := (Path.fileName? source).getD ""
  module := module
  instanceName := design.names.newName module.name

variable {design changed : Design}

namespace Extends

theorem refl (design : Design) : design.Extends [] design where
  subModules := (List.append_nil _).symm
  mem_names := by simp
  fresh := by simp
  nodup := List.nodup_nil

theorem trans {middle : Design} {added later : List SubModule}
    (h : design.Extends added middle) (h' : middle.Extends later changed) :
    design.Extends (added ++ later) changed where
  subModules := by rw [h'.subModules, h.subModules, List.append_assoc]
  mem_names := by
    intro name
    rw [h'.mem_names, h.mem_names, List.map_append, List.mem_append, or_assoc, or_left_comm]
  fresh := by
    intro subModule hmem hused
    rcases List.mem_append.mp hmem with hmem | hmem
    · exact h.fresh subModule hmem hused
    · exact h'.fresh subModule hmem ((h.mem_names _).mpr (.inr hused))
  nodup := by
    rw [List.map_append]
    refine List.nodup_append'.mpr ⟨h.nodup, h'.nodup, fun name hname hlater => ?_⟩
    obtain ⟨subModule, hmem, rfl⟩ := List.mem_map.mp hlater
    exact h'.fresh subModule hmem ((h.mem_names _).mpr (.inl hname))

theorem place {new : SubModule} (hfree : new.instanceName ∉ design.names) :
    design.Extends [new] {
      subModules := design.subModules ++ [new]
      names := design.names.insert new.instanceName } where
  subModules := rfl
  mem_names := by simp
  fresh := by simpa using hfree
  nodup := List.nodup_singleton _

end Extends

section Places

variable {index : Nat} {old : SubModule}

theorem replaces_of_subModules_eq {new : List SubModule} (h : design.get? index = some old)
    (hchanged : changed.subModules =
      design.subModules.take index ++ new ++ design.subModules.drop (index + 1)) :
    design.Replaces index old new changed := by
  obtain ⟨hindex, rfl⟩ := List.getElem?_eq_some_iff.mp h
  refine ⟨_, _, List.length_take_of_le (Nat.le_of_lt hindex), ?_, hchanged⟩
  rw [List.getElem_cons_drop, List.take_append_drop]

theorem replaces_eraseIdx (h : design.get? index = some old) (names : InstanceNames) :
    design.Replaces index old [] { subModules := design.subModules.eraseIdx index, names } := by
  refine replaces_of_subModules_eq h ?_
  rw [List.append_nil, List.eraseIdx_eq_take_drop_succ]

theorem replaces_set (h : design.get? index = some old) (new : SubModule) :
    design.Replaces index old [new]
      { design with subModules := design.subModules.set index new } := by
  obtain ⟨hindex, _⟩ := List.getElem?_eq_some_iff.mp h
  refine replaces_of_subModules_eq h ?_
  rw [List.append_assoc, List.singleton_append, List.set_eq_take_append_cons_drop, if_pos hindex]

end Places

section Files

variable (design) (options : Options) (disk : Disk) (path : String)

theorem addModules_eq_foldl (source : String) (modules : List Module) :
    (design.addModules source modules).value.2 =
      modules.foldl (fun design module => (design.addModule module source).value.2) design := by
  induction modules generalizing design with
  | nil => rfl
  | cons module modules ih => exact ih (design.addModule module source).value.2

theorem extends_addModule (module : Module) (source : String) :
    design.Extends [design.instanceOf module source]
      (design.addModule module source).value.2 :=
  .place (design.names.newName_not_mem module.name)

/-- Each module of a list gets an instance of its own, in order. -/
theorem exists_extends_addModules (source : String) (modules : List Module) :
    ∃ added, design.Extends added (design.addModules source modules).value.2 ∧
      added.map (·.module) = modules ∧
      ∀ subModule ∈ added, subModule.external = false ∧ subModule.source = source ∧
        subModule.filename = (Path.fileName? source).getD "" := by
  -- each name is fresh to the design that the module before has left, so to the first one
  induction modules generalizing design with
  | nil => exact ⟨[], .refl design, rfl, by simp⟩
  | cons module modules ih =>
      have hfirst := design.extends_addModule module source
      obtain ⟨added, hrest, hmodules, hsource⟩ := ih (design.addModule module source).value.2
      refine ⟨_, hfirst.trans hrest, congrArg (module :: ·) hmodules, ?_⟩
      exact List.forall_mem_cons.mpr ⟨⟨rfl, rfl, rfl⟩, hsource⟩

theorem perform_addFile :
    (design.perform (.addFile options disk path)).value =
      match (Outline.loadFile options disk path).value with
      | .ok outline =>
        (.count outline.modules.length, (design.addModules path outline.modules).value.2)
      | .error failure => (.failed (.read failure), design) := by
  cases hload : (Outline.loadFile options disk path).value with
  | ok outline => rw [(Outcome.added (.file hload)).perform_eq, length_addModules]
  | error failure => exact (Misses.file hload).perform_eq

theorem perform_addFile_ignored (h : options.accepts path = false ∨ disk path = .missing) :
    (design.perform (.addFile options disk path)).value = (.count 0, design) := by
  have hload : (Outline.loadFile options disk path).value = .ok {} := by
    unfold Outline.loadFile
    rcases h with hignored | hmissing
    · simp [hignored]
    · rw [hmissing]
      split <;> rfl
  rw [perform_addFile, hload]
  rfl

theorem perform_addFile_failed_iff (failure : Failure) :
    (design.perform (.addFile options disk path)).value.1 = .failed failure ↔
      ∃ cause, options.accepts path = true ∧ disk path = .failed cause ∧ failure = .read cause := by
  rw [perform_addFile, Outline.loadFile]
  by_cases haccepts : options.accepts path = true
  · cases hread : disk path with
    | missing => simp [haccepts]
    | failed cause => simp [haccepts, eq_comm]
    | found bytes => simp [haccepts]
  · simp [haccepts]

theorem perform_addFile_loaded {outline : Outline}
    (h : (Outline.loadFile options disk path).value = .ok outline) :
    (design.perform (.addFile options disk path)).value.1 = .count outline.modules.length ∧
      (design.perform (.addFile options disk path)).value.2 =
        outline.modules.foldl (fun design module => (design.addModule module path).value.2)
          design ∧
      ∃ added, design.Extends added (design.perform (.addFile options disk path)).value.2 ∧
        added.map (·.module) = outline.modules ∧
        ∀ subModule ∈ added, subModule.external = false ∧ subModule.source = path ∧
          subModule.filename = (Path.fileName? path).getD "" := by
  rw [perform_addFile, h]
  exact ⟨rfl, design.addModules_eq_foldl path outline.modules,
    design.exists_extends_addModules path outline.modules⟩

end Files

section Failures

variable {action : Action} {index : Nat} {failure : Failure}

/-- Only an action that has nothing to work on fails, and it leaves the design as it is. -/
theorem Outcome.misses_of_failed (h : design.Outcome action (.failed failure) changed) :
    design.Misses action (.failed failure) ∧ changed = design := by
  generalize hreply : Reply.failed failure = reply at h
  cases h with
  | added hadds => cases hadds <;> contradiction
  | copied | takenOut | marked | edited => contradiction
  | missed hmisses => exact ⟨hreply ▸ hmisses, rfl⟩

theorem perform_failed_iff :
    (design.perform action).value.1 = .failed failure ↔
      design.Misses action (.failed failure) := by
  constructor
  · intro hfailed
    have houtcome := design.perform_outcome action
    rw [hfailed] at houtcome
    exact houtcome.misses_of_failed.1
  · intro hmisses
    rw [hmisses.perform_eq]

theorem get?_eq_none_iff : design.get? index = none ↔ design.size ≤ index :=
  List.getElem?_eq_none_iff

theorem perform_index_failed_iff {external : Bool}
    (haction : action ∈ [.duplicate index, .remove index, .setExternal index external]) :
    (design.perform action).value.1 = .failed failure ↔
      design.size ≤ index ∧ failure = .noSuchInstance index := by
  have htarget : action.target? = some (index, .failed (.noSuchInstance index)) := by
    simp only [List.mem_cons, List.not_mem_nil, or_false] at haction
    obtain rfl | rfl | rfl := haction <;> rfl
  rw [perform_failed_iff, ← get?_eq_none_iff]
  constructor
  · intro hmisses
    cases hmisses with
    | file => contradiction
    | index htarget' hget =>
        obtain ⟨rfl, hreply⟩ := Prod.mk.inj (Option.some.inj (htarget.symm.trans htarget'))
        exact ⟨hget, (Reply.failed.inj hreply).symm⟩
  · intro h
    obtain ⟨hget, rfl⟩ := h
    exact .index htarget hget

end Failures

section Successes

variable {index : Nat} {old : SubModule} (h : design.get? index = some old)

include h

theorem perform_duplicate :
    ∃ name, (design.perform (.duplicate index)).value.1 = .names [name] ∧
      design.Extends [{ old with instanceName := name }]
        (design.perform (.duplicate index)).value.2 := by
  refine ⟨design.names.copyName old.instanceName, ?_⟩
  rw [(Outcome.copied h).perform_eq]
  exact ⟨rfl, .place (design.names.copyName_not_mem old.instanceName)⟩

theorem perform_remove :
    (design.perform (.remove index)).value.1 = .removed old ∧
      design.Replaces index old [] (design.perform (.remove index)).value.2 ∧
      ∀ name, name ∈ (design.perform (.remove index)).value.2.names ↔
        name ≠ old.instanceName ∧ name ∈ design.names := by
  rw [(Outcome.takenOut h).perform_eq]
  exact ⟨rfl, replaces_eraseIdx h _, fun _ => InstanceNames.mem_erase⟩

theorem perform_setExternal (external : Bool) :
    (design.perform (.setExternal index external)).value.1 = .done ∧
      design.Replaces index old [{
          old with
          external
          module := {
            old.module with
            ports := if external then old.module.ports
              else old.module.ports.map ({ · with routeToTop := true }) } }]
        (design.perform (.setExternal index external)).value.2 ∧
      (design.perform (.setExternal index external)).value.2.names = design.names := by
  rw [(Outcome.marked external h).perform_eq]
  refine ⟨rfl, ?_, rfl⟩
  cases external with
  | true => exact replaces_set h _
  | false => exact replaces_set h _

end Successes

/-- Whatever design an action meets, it changes it as a whole or not at all. An action on a
sub-module that is not there fails and changes nothing, and neither does a file that cannot be
read, is not asked for or is missing. A file adds its modules in order, as one by one; a copy
differs from the original in its name; what is taken out or marked leaves all others in
their places. -/
theorem perform_framed (design : Design) :
    (∀ action failure, (design.perform action).value.1 = .failed failure →
        (design.perform action).value.2 = design) ∧
      (∀ index external, ∀ action ∈
          [Action.duplicate index, .remove index, .setExternal index external],
        ∀ failure, (design.perform action).value.1 = .failed failure ↔
          design.size ≤ index ∧ failure = .noSuchInstance index) ∧
      (∀ options disk path failure,
        (design.perform (.addFile options disk path)).value.1 = .failed failure ↔
          ∃ cause, options.accepts path = true ∧ disk path = .failed cause ∧
            failure = .read cause) ∧
      (∀ options disk path, options.accepts path = false ∨ disk path = .missing →
        (design.perform (.addFile options disk path)).value = (.count 0, design)) ∧
      (∀ options disk path outline, (Outline.loadFile options disk path).value = .ok outline →
        (design.perform (.addFile options disk path)).value.1 = .count outline.modules.length ∧
          (design.perform (.addFile options disk path)).value.2 =
            outline.modules.foldl (fun design module => (design.addModule module path).value.2)
              design ∧
          ∃ added, design.Extends added (design.perform (.addFile options disk path)).value.2 ∧
            added.map (·.module) = outline.modules ∧
            ∀ subModule ∈ added, subModule.external = false ∧ subModule.source = path ∧
              subModule.filename = (Path.fileName? path).getD "") ∧
      (∀ index old, design.get? index = some old →
        ∃ name, (design.perform (.duplicate index)).value.1 = .names [name] ∧
          design.Extends [{ old with instanceName := name }]
            (design.perform (.duplicate index)).value.2) ∧
      (∀ index old, design.get? index = some old →
        (design.perform (.remove index)).value.1 = .removed old ∧
          design.Replaces index old [] (design.perform (.remove index)).value.2 ∧
          ∀ name, name ∈ (design.perform (.remove index)).value.2.names ↔
            name ≠ old.instanceName ∧ name ∈ design.names) ∧
      ∀ index old external, design.get? index = some old →
        (design.perform (.setExternal index external)).value.1 = .done ∧
          design.Replaces index old [{
              old with
              external
              module := {
                old.module with
                ports := if external then old.module.ports
                  else old.module.ports.map ({ · with routeToTop := true }) } }]
            (design.perform (.setExternal index external)).value.2 ∧
          (design.perform (.setExternal index external)).value.2.names = design.names := by
  refine ⟨?_, ?_, design.perform_addFile_failed_iff, design.perform_addFile_ignored,
    ?_, ?_, ?_, ?_⟩
  · intro action failure hfailed
    have houtcome := design.perform_outcome action
    rw [hfailed] at houtcome
    exact houtcome.misses_of_failed.2
  · intro index external action haction failure
    exact perform_index_failed_iff haction
  · intro options disk path outline hload
    exact design.perform_addFile_loaded options disk path hload
  · intro index old hget
    exact perform_duplicate hget
  · intro index old hget
    exact perform_remove hget
  · intro index old external hget
    exact perform_setExternal hget external

/-- A disk with a file that declares a module twice. -/
def twiceDeclared : Disk := fun path =>
  if path = "rtl/ram.v" then
    .found "module ram (a); endmodule module dma; endmodule module ram; endmodule".toUTF8.toList
  else .missing

/-- The modules of the file, and a copy of the first one, made external and unrouted. -/
def unroutedRams : Design :=
  after [.addFile {} twiceDeclared "rtl/ram.v", .setExternal 0 true, .edit 0 (·.setRoutes [false]),
    .duplicate 0]

def unroutedCopy : SubModule where
  source := "rtl/ram.v"
  filename := "ram.v"
  module := { name := "ram", ports := [{ name := "a", routeToTop := false }], body := " " }
  instanceName := "ram_2"
  external := true

theorem unroutedRams_framed :
    unroutedRams.instanceNames = ["ram_0", "dma_0", "ram_1", "ram_2"] ∧
      (unroutedRams.perform (.remove 4)).value.2 = unroutedRams ∧
      (unroutedRams.perform (.addFile {} twiceDeclared "rtl/dma.v")).value =
        (.count 0, unroutedRams) ∧
      (∃ added,
        unroutedRams.Extends added
            (unroutedRams.perform (.addFile {} twiceDeclared "rtl/ram.v")).value.2 ∧
          added.map (·.module.name) = ["ram", "dma", "ram"]) ∧
      (∃ name,
        unroutedRams.Extends [{ unroutedCopy with instanceName := name }]
          (unroutedRams.perform (.duplicate 3)).value.2) ∧
      unroutedRams.Replaces 3 unroutedCopy [] (unroutedRams.perform (.remove 3)).value.2 ∧
      unroutedRams.Replaces 3 unroutedCopy
        [{ unroutedCopy with
            external := false
            module := { unroutedCopy.module with ports := [{ name := "a" }] } }]
        (unroutedRams.perform (.setExternal 3 false)).value.2 := by
  obtain ⟨hfailed, hindex, -, hignored, hloaded, hcopied, hremoved, hmarked⟩ :=
    perform_framed unroutedRams
  have hget : unroutedRams.get? 3 = some unroutedCopy := by decide +kernel
  have hmissing := (hindex 4 true (.remove 4) (by simp) (.noSuchInstance 4)).mpr
    ⟨by decide +kernel, rfl⟩
  have hload : (Outline.loadFile {} twiceDeclared "rtl/ram.v").value =
      .ok (Outline.load {} "module ram (a); endmodule module dma; endmodule module ram; endmodule"
        ).value := by
    decide +kernel
  obtain ⟨-, -, added, hextends, hmodules, -⟩ := hloaded _ _ _ _ hload
  obtain ⟨name, -, hcopy⟩ := hcopied 3 unroutedCopy hget
  refine ⟨by decide +kernel, hfailed _ _ hmissing, hignored _ _ _ (.inr rfl),
    ⟨added, hextends, ?_⟩, ⟨name, hcopy⟩, (hremoved 3 unroutedCopy hget).2.1,
    (hmarked 3 unroutedCopy false hget).2.1⟩
  have hnames := congrArg (List.map (·.name)) hmodules
  rw [List.map_map] at hnames
  exact hnames.trans (by decide +kernel)

end VerilogOutline.Design
