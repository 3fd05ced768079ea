import VerilogOutline.Proofs.InstanceNames.LeastFree

/-!
# Requests for different modules

The names of a module's instances depend on the requests for this module only. Every
numbered name has a single stem, so requests for other modules neither take nor free a
name of the module, however much the names look alike. Where the same names are in use
altogether, the same name is granted for any module, in whatever order they are held.
-/

namespace VerilogOutline.InstanceNames

/-- The name is one that instances of the module get. -/
def IsInstanceOf (moduleName name : String) : Prop :=
  ∃ number, name = Numbered.name moduleName number

/-- The only number that can stand in such a name is the one behind the module's name. -/
theorem isInstanceOf_iff {moduleName name : String} :
    IsInstanceOf moduleName name ↔
      name = Numbered.name moduleName
        (Nat.ofDigitChars 10 (name.toList.drop (moduleName.toList.length + 1)) 0) := by
  constructor
  · rintro ⟨number, rfl⟩
    rw [Numbered.toList_name, List.append_cons, List.drop_left' (by simp),
      Nat.ofDigitChars_ten_toDigits]
  · intro h
    exact ⟨_, h⟩

instance (moduleName name : String) : Decidable (IsInstanceOf moduleName name) :=
  decidable_of_iff _ isInstanceOf_iff.symm

namespace Request

/-- The request is for an instance of the module, or about one. -/
def BelongsTo (moduleName : String) : Request → Prop
  | instantiate other => other = moduleName
  | duplicate name => IsInstanceOf moduleName name
  | release name => IsInstanceOf moduleName name
  | insertAll _ => False

instance (moduleName : String) : DecidablePred (BelongsTo moduleName)
  | instantiate other => inferInstanceAs (Decidable (other = moduleName))
  | duplicate name => inferInstanceAs (Decidable (IsInstanceOf moduleName name))
  | release name => inferInstanceAs (Decidable (IsInstanceOf moduleName name))
  | insertAll _ => inferInstanceAs (Decidable False)

/-- A name that is copied or made free is in use, and none comes in from outside. -/
def Applicable (names : InstanceNames) : Request → Prop
  | instantiate _ => True
  | duplicate name => name ∈ names
  | release name => name ∈ names
  | insertAll _ => False

instance (names : InstanceNames) : DecidablePred (Applicable names)
  | instantiate _ => inferInstanceAs (Decidable True)
  | duplicate name => inferInstanceAs (Decidable (name ∈ names))
  | release name => inferInstanceAs (Decidable (name ∈ names))
  | insertAll _ => inferInstanceAs (Decidable False)

end Request

/-- Each request is applicable when its turn comes. -/
def Orderly (names : InstanceNames) : List Request → Prop
  | [] => True
  | request :: rest => request.Applicable names ∧ (names.answer request).2.Orderly rest

instance decidableOrderly (names : InstanceNames) :
    (requests : List Request) → Decidable (names.Orderly requests)
  | [] => inferInstanceAs (Decidable True)
  | request :: rest =>
    have := decidableOrderly (names.answer request).2 rest
    inferInstanceAs (Decidable (request.Applicable names ∧ (names.answer request).2.Orderly rest))

/-- The replies that a module's requests get in the course of all requests. -/
def repliesFor (moduleName : String) (names : InstanceNames) (requests : List Request) :
    List Reply :=
  ((requests.zip (names.run requests).1).filter (·.1.BelongsTo moduleName)).map (·.2)

/-- The same instances of the module have their names in use. -/
def SameInstances (moduleName : String) (names names' : InstanceNames) : Prop :=
  ∀ number, Numbered.name moduleName number ∈ names ↔ Numbered.name moduleName number ∈ names'

/-- A request is for a single module. It takes a name of this module into use, or
makes one free. -/
theorem NumberedBelow.answer_cases {names : InstanceNames} {bound : Nat} {request : Request}
    (h : names.NumberedBelow bound) (hlimit : bound ≤ Numbered.highest)
    (happlicable : request.Applicable names) :
    ∃ stem number, request.BelongsTo stem ∧
      (number ≤ bound ∧ names.answer request =
          (.granted (Numbered.name stem number), names.insert (Numbered.name stem number)) ∨
        request = .release (Numbered.name stem number) ∧ names.answer request =
          (.released true, names.erase (Numbered.name stem number))) := by
  cases request with
  | instantiate moduleName =>
      obtain ⟨number, hbound, _, hname⟩ := h.exists_newName hlimit moduleName
      refine ⟨moduleName, number, rfl, .inl ⟨hbound, ?_⟩⟩
      simp only [answer, instantiate, hname]
  | duplicate name =>
      obtain ⟨stem, number, hlt, rfl⟩ := h name happlicable
      obtain ⟨copy, _, hbound, _, hname⟩ := h.exists_copyName hlimit stem hlt
      refine ⟨stem, copy, ⟨number, rfl⟩, .inl ⟨hbound, ?_⟩⟩
      simp only [answer, duplicate, hname]
  | release name =>
      obtain ⟨stem, number, _, rfl⟩ := h name happlicable
      refine ⟨stem, number, ⟨number, rfl⟩, .inr ⟨rfl, ?_⟩⟩
      have hused : Numbered.name stem number ∈ names := happlicable
      simp only [answer, release, hused, decide_true]
  | insertAll added => exact happlicable.elim

theorem NumberedBelow.answer {names : InstanceNames} {bound : Nat} {request : Request}
    (h : names.NumberedBelow bound) (hlimit : bound ≤ Numbered.highest)
    (happlicable : request.Applicable names) :
    (names.answer request).2.NumberedBelow (bound + 1) := by
  have hraised : names.NumberedBelow (bound + 1) := h.mono (Nat.le_succ bound)
  obtain ⟨stem, number, _, ⟨hle, hanswer⟩ | ⟨_, hanswer⟩⟩ := h.answer_cases hlimit happlicable
  · rw [hanswer]
    exact hraised.insert (Nat.lt_succ_of_le hle) stem
  · rw [hanswer]
    exact hraised.erase _

namespace SameInstances

variable {moduleName : String} {names names' : InstanceNames} {bound : Nat} {request : Request}

theorem refl (moduleName : String) (names : InstanceNames) :
    SameInstances moduleName names names :=
  fun _ => Iff.rfl

theorem trans {names'' : InstanceNames} (h : SameInstances moduleName names names')
    (h' : SameInstances moduleName names' names'') : SameInstances moduleName names names'' :=
  fun number => (h number).trans (h' number)

/-- A request for another module changes nothing for this one. -/
theorem answer_of_not_belongsTo (hbelow : names.NumberedBelow bound)
    (hlimit : bound ≤ Numbered.highest) (happlicable : request.Applicable names)
    (hother : ¬ request.BelongsTo moduleName) :
    SameInstances moduleName (names.answer request).2 names := by
  intro number
  obtain ⟨stem, number', hstem, hanswer⟩ := hbelow.answer_cases hlimit happlicable
  have hne : Numbered.name moduleName number ≠ Numbered.name stem number' := by
    intro heq
    obtain ⟨rfl, _⟩ := Numbered.name_inj.mp heq
    exact hother hstem
  obtain ⟨_, hanswer⟩ | ⟨_, hanswer⟩ := hanswer
  · simp [hanswer, hne]
  · simp [hanswer, hne]

section Agreement

variable (h : SameInstances moduleName names names')

include h

theorem insert (name : String) :
    SameInstances moduleName (names.insert name) (names'.insert name) := by
  intro number
  rw [mem_insert, mem_insert, h number]

theorem erase (name : String) :
    SameInstances moduleName (names.erase name) (names'.erase name) := by
  intro number
  rw [mem_erase, mem_erase, h number]

theorem freeFrom_eq (low : Nat) :
    names.freeFrom moduleName low = names'.freeFrom moduleName low :=
  Set.ext fun number => and_congr_right fun _ => not_congr (h number)

theorem firstFree?_eq (number : Nat) :
    names.firstFree? moduleName number = names'.firstFree? moduleName number := by
  apply Option.ext
  intro name
  rw [firstFree?_eq_some_iff, firstFree?_eq_some_iff, h.freeFrom_eq]

theorem newName_eq (hbelow : names.NumberedBelow bound) (hlimit : bound ≤ Numbered.highest) :
    names.newName moduleName = names'.newName moduleName := by
  obtain ⟨_, _, hfound, _⟩ := hbelow.exists_newName hlimit moduleName
  rw [h.firstFree?_eq] at hfound
  rw [newName.eq_def names', hfound, Option.getD_some]

theorem copyName_eq (hbelow : names.NumberedBelow bound) (hlimit : bound ≤ Numbered.highest)
    {number : Nat} (hnumber : number < bound) :
    names.copyName (Numbered.name moduleName number) =
      names'.copyName (Numbered.name moduleName number) := by
  obtain ⟨_, _, _, hfound, _⟩ := hbelow.exists_copyName hlimit moduleName hnumber
  rw [h.firstFree?_eq] at hfound
  exact (copyName_of_isNumbered (Numbered.isNumbered_name moduleName (by omega)) hfound).symm

/-- A request for the module gets the same reply from the same instances, and leaves
the same instances. -/
theorem answer_of_belongsTo (hbelow : names.NumberedBelow bound)
    (hlimit : bound ≤ Numbered.highest) (happlicable : request.Applicable names)
    (hbelongs : request.BelongsTo moduleName) :
    request.Applicable names' ∧ (names.answer request).1 = (names'.answer request).1 ∧
      SameInstances moduleName (names.answer request).2 (names'.answer request).2 := by
  cases request with
  | instantiate other =>
      obtain rfl : other = moduleName := hbelongs
      simp only [answer, instantiate, h.newName_eq hbelow hlimit]
      exact ⟨trivial, trivial, h.insert _⟩
  | duplicate name =>
      obtain ⟨number, rfl⟩ := hbelongs
      have hused : Numbered.name moduleName number ∈ names := happlicable
      simp only [answer, duplicate, h.copyName_eq hbelow hlimit (hbelow.number_lt hused)]
      exact ⟨(h number).mp hused, trivial, h.insert _⟩
  | release name =>
      obtain ⟨number, rfl⟩ := hbelongs
      have hused : Numbered.name moduleName number ∈ names := happlicable
      have hused' : Numbered.name moduleName number ∈ names' := (h number).mp hused
      simp only [answer, release, hused, hused']
      exact ⟨hused', trivial, h.erase _⟩
  | insertAll added => exact happlicable.elim

end Agreement

end SameInstances

theorem repliesFor_cons (moduleName : String) (names : InstanceNames) (request : Request)
    (rest : List Request) :
    repliesFor moduleName names (request :: rest) =
      if request.BelongsTo moduleName then
        (names.answer request).1 :: repliesFor moduleName (names.answer request).2 rest
      else repliesFor moduleName (names.answer request).2 rest := by
  simp only [repliesFor, run, List.zip_cons_cons, List.filter_cons, decide_eq_true_eq]
  split
  next => rfl
  next => rfl

/-- Requests for other modules can be left out from a point on at which the instances of the
module are the same. -/
theorem SameInstances.run {moduleName : String} {names names' : InstanceNames}
    (h : SameInstances moduleName names names') {bound : Nat} (hbelow : names.NumberedBelow bound)
    {requests : List Request} (hlimit : bound + requests.length ≤ Numbered.highest)
    (horderly : names.Orderly requests) :
    names'.Orderly (requests.filter (·.BelongsTo moduleName)) ∧
      repliesFor moduleName names requests =
        (names'.run (requests.filter (·.BelongsTo moduleName))).1 ∧
      SameInstances moduleName (names.run requests).2
        (names'.run (requests.filter (·.BelongsTo moduleName))).2 := by
  -- the bound goes up with every request, also with those for other modules
  induction requests generalizing names names' bound with
  | nil => exact ⟨trivial, rfl, h⟩
  | cons request rest ih =>
      obtain ⟨happlicable, hrest⟩ := horderly
      rw [List.length_cons] at hlimit
      have hbound : bound ≤ Numbered.highest := by omega
      have hnext : (names.answer request).2.NumberedBelow (bound + 1) :=
        hbelow.answer hbound happlicable
      have hlimit' : bound + 1 + rest.length ≤ Numbered.highest := by omega
      rw [repliesFor_cons, List.filter_cons]
      by_cases hbelongs : request.BelongsTo moduleName
      · obtain ⟨happlicable', hreply, hsame⟩ :=
          h.answer_of_belongsTo hbelow hbound happlicable hbelongs
        obtain ⟨horderly', hreplies, hend⟩ := ih hsame hnext hlimit' hrest
        rw [if_pos hbelongs, if_pos (decide_eq_true hbelongs), hreplies, hreply]
        exact ⟨⟨happlicable', horderly'⟩, rfl, hend⟩
      · have hsame : SameInstances moduleName (names.answer request).2 names' :=
          (answer_of_not_belongsTo hbelow hbound happlicable hbelongs).trans h
        rw [if_neg hbelongs, if_neg (by simpa using hbelongs)]
        exact ih hsame hnext hlimit' hrest

/-- The same names are in use. -/
def SameNames (names names' : InstanceNames) : Prop :=
  ∀ name, name ∈ names ↔ name ∈ names'

namespace SameNames

variable {names names' : InstanceNames} (h : SameNames names names')

include h

theorem insert (name : String) : SameNames (names.insert name) (names'.insert name) := by
  intro other
  rw [mem_insert, mem_insert, h other]

theorem erase (name : String) : SameNames (names.erase name) (names'.erase name) := by
  intro other
  rw [mem_erase, mem_erase, h other]

theorem firstFree?_eq (stem : String) (number : Nat) :
    names.firstFree? stem number = names'.firstFree? stem number :=
  SameInstances.firstFree?_eq (fun number => h (Numbered.name stem number)) number

theorem numberedCopy?_eq (name : String) :
    names.numberedCopy? name = names'.numberedCopy? name := by
  simp only [numberedCopy?, h.firstFree?_eq]

theorem copyName_eq (name : String) : names.copyName name = names'.copyName name := by
  fun_induction copyName names name with
  | case1 name free hfree =>
      rw [InstanceNames.copyName_eq names', ← h.numberedCopy?_eq, hfree, Option.getD_some]
  | case2 name hnone ih =>
      rw [InstanceNames.copyName_eq names', ← h.numberedCopy?_eq, hnone, Option.getD_none, ih]

theorem newName_eq (moduleName : String) :
    names.newName moduleName = names'.newName moduleName := by
  rw [newName, newName, h.firstFree?_eq, h.copyName_eq]

end SameNames

/-- The requests for a module get the replies that they would get alone, and leave the same
instances of it. So the replies do not depend on how the requests for different
modules come between each other. -/
theorem repliesFor_eq_alone (moduleName : String) {requests : List Request}
    (hlength : requests.length < Numbered.highest) (horderly : Orderly {} requests) :
    (Orderly {} (requests.filter (·.BelongsTo moduleName)) ∧
        repliesFor moduleName {} requests =
          (run {} (requests.filter (·.BelongsTo moduleName))).1 ∧
        SameInstances moduleName (run {} requests).2
          (run {} (requests.filter (·.BelongsTo moduleName))).2) ∧
      ∀ others : List Request, others.length < Numbered.highest → Orderly {} others →
        others.filter (·.BelongsTo moduleName) = requests.filter (·.BelongsTo moduleName) →
        repliesFor moduleName {} others = repliesFor moduleName {} requests := by
  have halone : ∀ requests : List Request, requests.length < Numbered.highest →
      Orderly {} requests →
      Orderly {} (requests.filter (·.BelongsTo moduleName)) ∧
        repliesFor moduleName {} requests =
          (run {} (requests.filter (·.BelongsTo moduleName))).1 ∧
        SameInstances moduleName (run {} requests).2
          (run {} (requests.filter (·.BelongsTo moduleName))).2 := by
    intro requests hlength horderly
    exact (SameInstances.refl moduleName {}).run (numberedBelow_empty 0) (by omega) horderly
  refine ⟨halone requests hlength horderly, ?_⟩
  intro others hlength' horderly' hown
  rw [(halone others hlength' horderly').2.1, (halone requests hlength horderly).2.1, hown]

/-- Requests for the modules `a`, `a_1` and `a_1_0`. The first instance of `a_1` has
the name of the last module. -/
def lookAlikes : List Request :=
  [.instantiate "a", .instantiate "a_1", .instantiate "a_1_0", .duplicate "a_1_0",
    .instantiate "a", .release "a_1_0", .duplicate "a_1_0_0", .release "a_0", .instantiate "a_1",
    .instantiate "a"]

theorem repliesFor_lookAlikes :
    lookAlikes.length < Numbered.highest ∧ Orderly {} lookAlikes ∧
      repliesFor "a_1" {} lookAlikes =
        (run {} [.instantiate "a_1", .duplicate "a_1_0", .release "a_1_0", .instantiate "a_1"]).1 ∧
      repliesFor "a_1" {} lookAlikes =
        [.granted "a_1_0", .granted "a_1_1", .released true, .granted "a_1_0"] := by
  have hlength : lookAlikes.length < Numbered.highest := by decide
  have horderly : Orderly {} lookAlikes := by decide +kernel
  have halone := (repliesFor_eq_alone "a_1" hlength horderly).1.2.1
  have hown : lookAlikes.filter (·.BelongsTo "a_1") =
      [.instantiate "a_1", .duplicate "a_1_0", .release "a_1_0", .instantiate "a_1"] := by
    decide +kernel
  rw [hown] at halone
  refine ⟨hlength, horderly, halone, halone.trans ?_⟩
  decide +kernel

end VerilogOutline.InstanceNames
