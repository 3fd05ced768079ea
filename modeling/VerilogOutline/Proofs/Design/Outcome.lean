import VerilogOutline.Design

/-!
# What actions make of a design

An action adds modules one by one, or it copies, takes out or changes a single sub-module.
If there is nothing to work on, it leaves the design as it is. Each of these cases says what
becomes of the design and what the reply is. There are no others, so facts about whole
courses of actions go through these cases, and no operation is looked into again.
-/

namespace VerilogOutline.Design

/-- The number of instance names that a reply tells of. -/
def Reply.granted : Reply → Nat
  | count added => added
  | names instanceNames => instanceNames.length
  | removed _ => 0
  | done => 0
  | nothing => 0
  | failed _ => 0

/-- The index of the sub-module that an action is about, and the reply if there is none. -/
def Action.target? : Action → Option (Nat × Reply)
  | addFile _ _ _ => none
  | addModules _ _ => none
  | addAgain index _ => some (index, .nothing)
  | duplicate index => some (index, .failed (.noSuchInstance index))
  | remove index => some (index, .failed (.noSuchInstance index))
  | setExternal index _ => some (index, .failed (.noSuchInstance index))
  | edit index _ => some (index, .nothing)

variable (design : Design)

/-- The action has modules to add, which come under a path. It replies with their names, or
with the number of them. -/
inductive Adds : Action → String → List Module → (List String → Reply) → Prop
  | file {options : Options} {disk : Disk} {path : String} {outline : Outline} :
      (Outline.loadFile options disk path).value = .ok outline →
      Adds (.addFile options disk path) path outline.modules fun names => .count names.length
  | modules (modules : List Module) (source : String) :
      Adds (.addModules modules source) source modules .names
  | again {index : Nat} {source : String} {subModule : SubModule} :
      design.get? index = some subModule →
      Adds (.addAgain index source) source [subModule.module] .names

/-- The action has nothing to work on, and replies so. -/
inductive Misses : Action → Reply → Prop
  | file {options : Options} {disk : Disk} {path : String} {failure : ReadFailure} :
      (Outline.loadFile options disk path).value = .error failure →
      Misses (.addFile options disk path) (.failed (.read failure))
  | index {action : Action} {index : Nat} {reply : Reply} :
      action.target? = some (index, reply) → design.get? index = none → Misses action reply

/-- What becomes of a design by an action, and the reply. -/
inductive Outcome : Action → Reply → Design → Prop
  | added {action : Action} {source : String} {modules : List Module}
      {reply : List String → Reply} :
      design.Adds action source modules reply →
      Outcome action (reply (design.addModules source modules).value.1)
        (design.addModules source modules).value.2
  | copied {index : Nat} {original : SubModule} :
      design.get? index = some original →
      Outcome (.duplicate index) (.names [design.names.copyName original.instanceName]) {
        subModules := design.subModules ++
          [{ original with instanceName := design.names.copyName original.instanceName }]
        names := design.names.insert (design.names.copyName original.instanceName) }
  | takenOut {index : Nat} {old : SubModule} :
      design.get? index = some old →
      Outcome (.remove index) (.removed old) {
        subModules := design.subModules.eraseIdx index
        names := design.names.erase old.instanceName }
  | marked {index : Nat} {old : SubModule} (external : Bool) :
      design.get? index = some old →
      Outcome (.setExternal index external) .done {
        design with
        subModules := design.subModules.set index {
          old with
          external
          module := if external then old.module else old.module.routeAll } }
  | edited {index : Nat} {old : SubModule} (edit : Module → Module) :
      design.get? index = some old →
      Outcome (.edit index edit) .done {
        design with
        subModules := design.subModules.set index { old with module := edit old.module } }
  | missed {action : Action} {reply : Reply} :
      design.Misses action reply → Outcome action reply design

variable {design} {action : Action} {reply : Reply} {changed : Design}

theorem Misses.perform_eq (h : design.Misses action reply) :
    (design.perform action).value = (reply, design) := by
  cases h with
  | file hload => simp [perform, addFile, hload, Reply.ofResult]
  | index htarget hget =>
      cases action
      case addFile | addModules => contradiction
      all_goals obtain ⟨rfl, rfl⟩ := Prod.mk.inj (Option.some.inj htarget)
      all_goals simp [perform, duplicate, remove, setExternal, editModule, hget, Reply.ofResult]

/-- The cases are those of the operations. -/
theorem Outcome.perform_eq (h : design.Outcome action reply changed) :
    (design.perform action).value = (reply, changed) := by
  cases h with
  | added hadds =>
      cases hadds with
      | file hload => simp [perform, addFile, hload, Reply.ofResult]
      | modules => rfl
      | again hget => simp [perform, addModules, hget]
  | copied hget => simp [perform, duplicate, InstanceNames.duplicate, hget, Reply.ofResult]
  | takenOut hget => simp [perform, remove, hget, Reply.ofResult]
  | marked external hget => simp [perform, setExternal, hget, Reply.ofResult]
  | edited edit hget => simp [perform, editModule, hget]
  | missed hmisses => exact hmisses.perform_eq

variable (design action)

theorem exists_outcome : ∃ reply changed, design.Outcome action reply changed := by
  cases action with
  | addFile options disk path =>
      cases hload : (Outline.loadFile options disk path).value with
      | ok outline => exact ⟨_, _, .added (.file hload)⟩
      | error failure => exact ⟨_, _, .missed (.file hload)⟩
  | addModules modules source => exact ⟨_, _, .added (.modules modules source)⟩
  | addAgain index source =>
      cases hget : design.get? index with
      | some subModule => exact ⟨_, _, .added (.again hget)⟩
      | none => exact ⟨_, _, .missed (.index rfl hget)⟩
  | duplicate index =>
      cases hget : design.get? index with
      | some original => exact ⟨_, _, .copied hget⟩
      | none => exact ⟨_, _, .missed (.index rfl hget)⟩
  | remove index =>
      cases hget : design.get? index with
      | some old => exact ⟨_, _, .takenOut hget⟩
      | none => exact ⟨_, _, .missed (.index rfl hget)⟩
  | setExternal index external =>
      cases hget : design.get? index with
      | some old => exact ⟨_, _, .marked external hget⟩
      | none => exact ⟨_, _, .missed (.index rfl hget)⟩
  | edit index edit =>
      cases hget : design.get? index with
      | some old => exact ⟨_, _, .edited edit hget⟩
      | none => exact ⟨_, _, .missed (.index rfl hget)⟩

theorem perform_outcome :
    design.Outcome action (design.perform action).value.1 (design.perform action).value.2 := by
  obtain ⟨reply, changed, houtcome⟩ := design.exists_outcome action
  rw [houtcome.perform_eq]
  exact houtcome

theorem length_addModules (source : String) (modules : List Module) :
    (design.addModules source modules).value.1.length = modules.length := by
  induction modules generalizing design with
  | nil => rfl
  | cons module modules ih => exact congrArg (· + 1) (ih (design.addModule module source).value.2)

variable {design action}

/-- A reply to modules that are added tells of as many names as there are modules. -/
theorem Adds.granted_eq {source : String} {modules : List Module} {reply : List String → Reply}
    (h : design.Adds action source modules reply) :
    (reply (design.addModules source modules).value.1).granted = modules.length := by
  rw [← design.length_addModules source modules]
  cases h with
  | file hload => rfl
  | modules => rfl
  | again hget => rfl

theorem Misses.granted_eq_zero (h : design.Misses action reply) : reply.granted = 0 := by
  cases h with
  | file hload => rfl
  | index htarget hget =>
      cases action
      case addFile | addModules => contradiction
      all_goals obtain ⟨_, rfl⟩ := Prod.mk.inj (Option.some.inj htarget)
      all_goals rfl

end VerilogOutline.Design
