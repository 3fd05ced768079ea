import VerilogOutline.Proofs.InstanceNames.LeastFree

/-!
# The history of a name

Every request finds the names in use that the requests before it have left. A name that is
granted is new to them, and a name stays in use until it is made free. So between two
grants of one name there is a release of it.
-/

namespace VerilogOutline.InstanceNames

/-- The request asks for a name. -/
def Request.AsksForName : Request → Prop
  | instantiate _ => True
  | duplicate _ => True
  | release _ => False
  | insertAll _ => False

/-- What a request is told, and what it does to the names in use. -/
inductive Answered (names : InstanceNames) : Request → Reply → InstanceNames → Prop
  | granted {request : Request} {name : String} {changed : InstanceNames} :
      request.AsksForName → name ∉ names →
      (∀ other, other ∈ changed ↔ other = name ∨ other ∈ names) →
      changed.size = names.size + 1 →
      Answered names request (.granted name) changed
  | released {name : String} {wasUsed : Bool} {changed : InstanceNames} :
      (wasUsed = true ↔ name ∈ names) →
      (∀ other, other ∈ changed ↔ other ≠ name ∧ other ∈ names) →
      Answered names (.release name) (.released wasUsed) changed
  | inserted {added : List String} {changed : InstanceNames} :
      (∀ other, other ∈ changed ↔ other ∈ added ∨ other ∈ names) →
      Answered names (.insertAll added) .inserted changed

/-- The names in use after the first so many requests. -/
def afterFirst (names : InstanceNames) (requests : List Request) (count : Nat) : InstanceNames :=
  (names.run (requests.take count)).2

/-- A name is in use at the time of a request: it was from the beginning, or the request
before that one brought it in. -/
inductive ComesIn (names : InstanceNames) (requests : List Request) (name : String) : Nat → Prop
  | predefined : name ∈ names → ComesIn names requests name 0
  | granted {index : Nat} :
      (names.run requests).1[index]? = some (.granted name) →
      ComesIn names requests name (index + 1)
  | added {index : Nat} {added : List String} :
      requests[index]? = some (.insertAll added) → name ∈ added →
      ComesIn names requests name (index + 1)

theorem size_insert {names : InstanceNames} {name : String} (h : name ∉ names) :
    (names.insert name).size = names.size + 1 := by
  simp only [insert, h, dite_false, size, List.length_cons]

theorem answered_granted {names : InstanceNames} {request : Request} {name : String}
    (hasks : request.AsksForName) (hfree : name ∉ names) :
    Answered names request (.granted name) (names.insert name) :=
  .granted hasks hfree (fun _ => mem_insert) (size_insert hfree)

theorem answered_answer (names : InstanceNames) (request : Request) :
    Answered names request (names.answer request).1 (names.answer request).2 := by
  cases request with
  | instantiate moduleName => exact answered_granted trivial (names.newName_not_mem moduleName)
  | duplicate instanceName => exact answered_granted trivial (names.copyName_not_mem instanceName)
  | release name => exact .released decide_eq_true_iff fun _ => mem_erase
  | insertAll added => exact .inserted fun _ => mem_insertAll

variable {names : InstanceNames} {requests : List Request} {name : String}

/-- Each request of a run is answered by the names that are in use when its turn comes. -/
theorem answered_run (names : InstanceNames) {index : Nat} {request : Request}
    (h : requests[index]? = some request) :
    ∃ reply, (names.run requests).1[index]? = some reply ∧
      Answered (names.afterFirst requests index) request reply
        (names.afterFirst requests (index + 1)) := by
  induction requests generalizing names index with
  | nil => contradiction
  | cons first rest ih =>
      cases index with
      | zero =>
          obtain rfl : first = request := Option.some.inj h
          exact ⟨(names.answer first).1, rfl, names.answered_answer first⟩
      | succ index => exact ih (names.answer first).2 h

theorem length_run (names : InstanceNames) (requests : List Request) :
    (names.run requests).1.length = requests.length := by
  induction requests generalizing names with
  | nil => rfl
  | cons first rest ih => exact congrArg (· + 1) (ih (names.answer first).2)

/-- There is a request to every reply. -/
theorem answered_reply {index : Nat} {reply : Reply}
    (h : (names.run requests).1[index]? = some reply) :
    ∃ request, requests[index]? = some request ∧
      Answered (names.afterFirst requests index) request reply
        (names.afterFirst requests (index + 1)) := by
  have hindex : index < requests.length := by
    rw [← length_run names]
    exact (List.getElem?_eq_some_iff.mp h).1
  have hrequest : requests[index]? = some requests[index] := List.getElem?_eq_getElem hindex
  obtain ⟨reply', hreply, hanswered⟩ := answered_run names hrequest
  obtain rfl : reply = reply' := Option.some.inj (h.symm.trans hreply)
  exact ⟨_, hrequest, hanswered⟩

theorem ComesIn.mem_afterFirst {start : Nat} (h : ComesIn names requests name start) :
    name ∈ names.afterFirst requests start := by
  cases h with
  | predefined hmem => exact hmem
  | granted hreply =>
      obtain ⟨_, _, hanswered⟩ := answered_reply hreply
      cases hanswered with
      | granted _ _ hmem _ => exact (hmem name).mpr (.inl rfl)
  | added hrequest hadded =>
      obtain ⟨_, _, hanswered⟩ := answered_run names hrequest
      cases hanswered with
      | granted hasks => exact hasks.elim
      | inserted hmem => exact (hmem name).mpr (.inl hadded)

/-- The only request after which a name is no longer in use is its release. -/
theorem release_of_not_mem {index : Nat} (hmem : name ∈ names.afterFirst requests index)
    (hfree : name ∉ names.afterFirst requests (index + 1)) :
    requests[index]? = some (.release name) ∧
      (names.run requests).1[index]? = some (.released true) := by
  cases hrequest : requests[index]? with
  | none =>
      -- behind the last request nothing changes
      have hlength : requests.length ≤ index := List.getElem?_eq_none_iff.mp hrequest
      rw [afterFirst, List.take_of_length_le (by omega)] at hmem hfree
      contradiction
  | some request =>
      obtain ⟨reply, hreply, hanswered⟩ := answered_run names hrequest
      cases hanswered with
      | granted _ _ hchanged _ => exact absurd ((hchanged name).mpr (.inr hmem)) hfree
      | @released other wasUsed _ hused hchanged =>
          obtain rfl : name = other := Decidable.byContradiction fun hne =>
            hfree ((hchanged name).mpr ⟨hne, hmem⟩)
          rw [hused.mpr hmem] at hreply
          exact ⟨rfl, hreply⟩
      | inserted hchanged => exact absurd ((hchanged name).mpr (.inr hmem)) hfree

theorem exists_release {start index : Nat} (hle : start ≤ index)
    (hmem : name ∈ names.afterFirst requests start)
    (hfree : name ∉ names.afterFirst requests index) :
    ∃ between, start ≤ between ∧ between < index ∧
      requests[between]? = some (.release name) ∧
      (names.run requests).1[between]? = some (.released true) := by
  induction hle with
  | refl => contradiction
  | @step index hle ih =>
      by_cases hlast : name ∈ names.afterFirst requests index
      · exact ⟨index, hle, Nat.lt_succ_self index, release_of_not_mem hlast hfree⟩
      · obtain ⟨between, hstart, hlt, hrelease⟩ := ih hlast
        exact ⟨between, hstart, Nat.lt_succ_of_lt hlt, hrelease⟩

/-- A name that is granted is not in use and is the only one that comes in, one that is
released is the only one that goes, and names that are added come in. So a name
that was there from the beginning, was granted or was added is granted
later only if it was released in between. -/
theorem granted_after_release (names : InstanceNames) (requests : List Request) :
    (∀ index request, requests[index]? = some request →
      ∃ reply, (names.run requests).1[index]? = some reply ∧
        Answered (names.afterFirst requests index) request reply
          (names.afterFirst requests (index + 1))) ∧
      ∀ name start index, ComesIn names requests name start → start ≤ index →
        (names.run requests).1[index]? = some (.granted name) →
        ∃ between, start ≤ between ∧ between < index ∧
          requests[between]? = some (.release name) ∧
          (names.run requests).1[between]? = some (.released true) := by
  refine ⟨fun _ _ => answered_run names, ?_⟩
  intro name start index hcomes hle hgranted
  obtain ⟨_, _, hanswered⟩ := answered_reply hgranted
  cases hanswered with
  | granted _ hfree _ _ => exact exists_release hle hcomes.mem_afterFirst hfree

end VerilogOutline.InstanceNames
