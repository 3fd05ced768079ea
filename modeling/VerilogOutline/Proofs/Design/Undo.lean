import Mathlib.Data.List.Perm.Basic
import VerilogOutline.Proofs.Design.Agreement
import VerilogOutline.Proofs.Design.Outcome

/-!
# Undoing additions

Sub-modules that are added stand behind those that were there. Taking them out again, in
whatever order, leads back to a design that agrees with the one before.
-/

namespace VerilogOutline.Design

/-- Whether the action can only add sub-modules. -/
def Action.isAddition : Action → Bool
  | addFile _ _ _ => true
  | addModules _ _ => true
  | addAgain _ _ => true
  | duplicate _ => true
  | remove _ => false
  | setExternal _ _ => false
  | edit _ _ => false

/-- The sub-modules behind those that were there, after actions that add. -/
def addedBy (design : Design) (additions : List Action) : List SubModule :=
  (design.run additions).value.2.subModules.drop design.size

/-- The sub-module that a reply hands out. -/
def Reply.takenOut? : Reply → Option SubModule
  | removed subModule => some subModule
  | count _ => none
  | names _ => none
  | done => none
  | nothing => none
  | failed _ => none

/-- The sub-modules that are taken out when removals are asked for at indices, in order. A
removal that fails takes out none. -/
def takenOutBy (design : Design) (indices : List Nat) : List SubModule :=
  (design.run (indices.map .remove)).value.1.filterMap Reply.takenOut?

section Additions

theorem addModules_prefix (design : Design) (source : String) (modules : List Module) :
    design.subModules <+: (design.addModules source modules).value.2.subModules := by
  induction modules generalizing design with
  | nil => exact List.prefix_rfl
  | cons module modules ih =>
      have hfirst : design.subModules <+: (design.addModule module source).value.2.subModules :=
        List.prefix_append _ _
      exact hfirst.trans (ih (design.addModule module source).value.2)

theorem Outcome.prefix_of_isAddition {design changed : Design} {action : Action} {reply : Reply}
    (h : design.Outcome action reply changed) (haddition : action.isAddition) :
    design.subModules <+: changed.subModules := by
  cases h with
  | added => exact design.addModules_prefix _ _
  | copied => exact List.prefix_append _ _
  | missed => exact List.prefix_rfl
  | takenOut => contradiction
  | marked => contradiction
  | edited => contradiction

theorem run_prefix_of_isAddition (design : Design) {additions : List Action}
    (h : ∀ action ∈ additions, action.isAddition) :
    design.subModules <+: (design.run additions).value.2.subModules := by
  induction additions generalizing design with
  | nil => exact List.prefix_rfl
  | cons action additions ih =>
      rw [List.forall_mem_cons] at h
      obtain ⟨haction, hrest⟩ := h
      have hfirst := (design.perform_outcome action).prefix_of_isAddition haction
      exact hfirst.trans (ih (design.perform action).value.2 hrest)

theorem subModules_run_additions (design : Design) {additions : List Action}
    (h : ∀ action ∈ additions, action.isAddition) :
    (design.run additions).value.2.subModules =
      design.subModules ++ design.addedBy additions := by
  obtain ⟨added, hadded⟩ := design.run_prefix_of_isAddition h
  rw [addedBy, size, ← hadded, List.drop_left]

end Additions

section Removals

variable {design : Design} {front added : List SubModule}

/-- A sub-module that is among the added ones stands behind the others. -/
theorem Registered.exists_index_added (h : design.Registered)
    (hsplit : design.subModules = front ++ added) {index : Nat} {subModule : SubModule}
    (hget : design.get? index = some subModule) (hmem : subModule ∈ added) :
    ∃ place, added[place]? = some subModule ∧ index = front.length + place := by
  obtain ⟨place, hplace⟩ := List.mem_iff_getElem?.mp hmem
  have hget' : design.get? (front.length + place) = some subModule := by
    rw [get?, hsplit, List.getElem?_append_right (by omega), Nat.add_sub_cancel_left]
    exact hplace
  exact ⟨place, hplace, h.index_unique hget' hget rfl⟩

theorem takenOutBy_cons (design : Design) (index : Nat) (indices : List Nat) :
    design.takenOutBy (index :: indices) =
      (design.perform (.remove index)).value.1.takenOut?.toList ++
        (design.perform (.remove index)).value.2.takenOutBy indices := by
  rw [takenOutBy, List.map_cons, Design.run]
  cases hreply : (design.perform (.remove index)).value.1.takenOut? with
  | none => simp [takenOutBy, hreply]
  | some subModule => simp [takenOutBy, hreply]

/-- Once all the sub-modules behind the front ones are taken out, the front ones are left. -/
theorem Registered.subModules_run_removals (h : design.Registered)
    (hsplit : design.subModules = front ++ added) {indices : List Nat}
    (htaken : (design.takenOutBy indices).Perm added) :
    (design.run (indices.map .remove)).value.2.subModules = front := by
  induction indices generalizing design added with
  | nil =>
      obtain rfl : added = [] := htaken.nil_eq.symm
      exact hsplit.trans (List.append_nil front)
  | cons index indices ih =>
      have hrun : (design.run ((index :: indices).map .remove)).value.2 =
        ((design.perform (.remove index)).value.2.run (indices.map .remove)).value.2 := rfl
      rw [hrun]
      rw [takenOutBy_cons] at htaken
      cases hget : design.get? index with
      | none =>
          have hmissed : design.Outcome (.remove index) _ design := .missed (.index rfl hget)
          rw [hmissed.perform_eq] at htaken ⊢
          exact ih h hsplit htaken
      | some subModule =>
          have hremoved : design.Outcome (.remove index) _ _ := .takenOut hget
          have hnext := h.outcome hremoved
          rw [hremoved.perform_eq] at htaken ⊢
          have hmem : subModule ∈ added := htaken.mem_iff.mp List.mem_cons_self
          obtain ⟨place, hplace, rfl⟩ := h.exists_index_added hsplit hget hmem
          have hleft : design.subModules.eraseIdx (front.length + place) =
              front ++ added.eraseIdx place := by
            rw [hsplit, List.eraseIdx_append_of_length_le (by omega), Nat.add_sub_cancel_left]
          have hadded : added.Perm (subModule :: added.eraseIdx place) := by
            obtain ⟨hlength, rfl⟩ := List.getElem?_eq_some_iff.mp hplace
            exact (List.getElem_cons_eraseIdx_perm hlength).symm
          exact ih hnext hleft (htaken.trans hadded).cons_inv

end Removals

/-- Additions put sub-modules behind those that a design holds. When exactly these are taken
out again, in any order, the design agrees with the one before: it holds the same
sub-modules, the same names are in use, and later actions get the same replies. -/
theorem additions_undone (actions additions : List Action) (indices : List Nat)
    (hadditions : ∀ action ∈ additions, action.isAddition)
    (htaken : ((after (actions ++ additions)).takenOutBy indices).Perm
      ((after actions).addedBy additions)) :
    (after (actions ++ additions)).subModules =
        (after actions).subModules ++ (after actions).addedBy additions ∧
      (after (actions ++ additions ++ indices.map .remove)).Agrees (after actions) ∧
      ∀ later,
        ((after (actions ++ additions ++ indices.map .remove)).run later).value.1 =
            ((after actions).run later).value.1 ∧
          ((after (actions ++ additions ++ indices.map .remove)).run later).value.2.Agrees
            ((after actions).run later).value.2 := by
  have hextended : (after (actions ++ additions)).subModules =
      (after actions).subModules ++ (after actions).addedBy additions := by
    rw [after_append]
    exact (after actions).subModules_run_additions hadditions
  have hregistered : ∀ actions, (after actions).Registered := registered_empty.run
  have hrestored : (after (actions ++ additions ++ indices.map .remove)).subModules =
      (after actions).subModules := by
    rw [after_append]
    exact (hregistered _).subModules_run_removals hextended htaken
  have hagrees := (hregistered _).agrees (hregistered actions) hrestored
  exact ⟨hextended, hagrees, hagrees.run⟩

/-- A memory and a copy of it. -/
def twoRams : List Action :=
  [.addModules [{ name := "ram" }] "rtl/ram.v", .duplicate 0]

/-- Another copy, the modules of a file, a copy of the copy, and a copy of nothing. -/
def moreRams : List Action :=
  [.duplicate 0,
    .addFile {} (fun _ => .found "module ram; endmodule module dma; endmodule".toUTF8.toList)
      "dma.v",
    .duplicate 2, .duplicate 9]

theorem moreRams_undone :
    (∀ action ∈ moreRams, action.isAddition) ∧
      ((after (twoRams ++ moreRams)).takenOutBy [5, 2, 7, 3, 2]).Perm
        ((after twoRams).addedBy moreRams) ∧
      (after (twoRams ++ moreRams)).instanceNames =
        ["ram_0", "ram_1", "ram_2", "ram_3", "dma_0", "ram_4"] ∧
      ((after (twoRams ++ moreRams ++ [5, 2, 7, 3, 2].map .remove)).run
        [.duplicate 1, .duplicate 0]).value.1 = [.names ["ram_2"], .names ["ram_3"]] := by
  have hadditions : ∀ action ∈ moreRams, action.isAddition := by decide
  have htaken : ((after (twoRams ++ moreRams)).takenOutBy [5, 2, 7, 3, 2]).Perm
      ((after twoRams).addedBy moreRams) := by decide +kernel
  have hlater := ((additions_undone twoRams moreRams [5, 2, 7, 3, 2] hadditions htaken).2.2
    [.duplicate 1, .duplicate 0]).1
  refine ⟨hadditions, htaken, by decide +kernel, hlater.trans ?_⟩
  decide +kernel

end VerilogOutline.Design
