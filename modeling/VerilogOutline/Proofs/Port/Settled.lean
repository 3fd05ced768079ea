import Mathlib.Data.List.Induction
import VerilogOutline.Port.List
import VerilogOutline.Proofs.Text.Trim

/-!
# Attributes in closed form

Which declaration an attribute of a port comes from: the last one, up to the port's own,
that gives the attribute or one that resets it. So a declaration that gives a direction
cuts off everything in front of it.
-/

namespace VerilogOutline

namespace Declaration

variable (decl : Declaration)

def settlesDirection : Bool :=
  decl.direction.isSome

/-- A direction resets the kind. -/
def settlesKind : Bool :=
  decl.settlesDirection || decl.kind.isSome

/-- A kind, or what resets it, resets the sign. -/
def settlesSign : Bool :=
  decl.settlesKind || decl.signed

/-- A sign, or what resets it, resets the width. -/
def settlesWidth : Bool :=
  decl.settlesSign || decl.range.isSome

end Declaration

namespace Attributes

section Settle

variable {α : Type} (settles : Declaration → Bool) (given : Declaration → α) (carried : α)

/-- What the last of the declarations that settle an attribute makes of it. -/
def settle (decls : List Declaration) : α :=
  ((decls.findRev? settles).map given).getD carried

theorem settle_concat (decls : List Declaration) (decl : Declaration) :
    settle settles given carried (decls ++ [decl]) =
      if settles decl then given decl else settle settles given carried decls := by
  cases h : settles decl <;> simp [settle, List.findRev?_eq_find?_reverse, h]

end Settle

/-- The attributes behind consecutive declarations, each taken from the last declaration
that settles it. -/
def settled (carried : Attributes) (decls : List Declaration) : Attributes where
  direction := settle Declaration.settlesDirection (·.direction) carried.direction decls
  kind := settle Declaration.settlesKind (fun decl => some (decl.kind.getD .wire)) carried.kind decls
  signed := settle Declaration.settlesSign (·.signed) carried.signed decls
  width := settle Declaration.settlesWidth (·.range.getD scalarWidth) carried.width decls

/-- What one declaration changes, attribute by attribute. -/
theorem declare_eq (carried : Attributes) (decl : Declaration) :
    carried.declare decl = {
      direction := if decl.settlesDirection then decl.direction else carried.direction
      kind := if decl.settlesKind then some (decl.kind.getD .wire) else carried.kind
      signed := if decl.settlesSign then decl.signed else carried.signed
      width := if decl.settlesWidth then decl.range.getD scalarWidth else carried.width } := by
  obtain ⟨direction, kind, signed, range, name⟩ := decl
  cases direction <;> cases kind <;> cases signed <;> cases range <;> rfl

theorem settled_nil (carried : Attributes) : carried.settled [] = carried := rfl

theorem settled_concat (carried : Attributes) (decls : List Declaration) (decl : Declaration) :
    carried.settled (decls ++ [decl]) = (carried.settled decls).declare decl := by
  simp only [settled, settle_concat, declare_eq]

/-- Declaration by declaration the attributes become the settled ones. -/
theorem foldl_declare (carried : Attributes) (decls : List Declaration) :
    decls.foldl declare carried = carried.settled decls := by
  induction decls using List.reverseRecOn with
  | nil => rfl
  | append_singleton decls decl ih => rw [List.foldl_concat, ih, settled_concat]

theorem settled_cons (carried : Attributes) (decl : Declaration) (decls : List Declaration) :
    carried.settled (decl :: decls) = (carried.declare decl).settled decls := by
  rw [← foldl_declare, ← foldl_declare, List.foldl_cons]

end Attributes

namespace Port

theorem ofDeclarations_cons (carried : Attributes) (decl : Declaration)
    (decls : List Declaration) :
    ofDeclarations carried (decl :: decls) =
      { toAttributes := carried.declare decl, name := decl.name } ::
        ofDeclarations (carried.declare decl) decls :=
  rfl

theorem ofDeclarations_getElem? (carried : Attributes) (decls : List Declaration) (i : Nat) :
    (ofDeclarations carried decls)[i]? = decls[i]?.map fun decl =>
      { toAttributes := carried.settled (decls.take (i + 1)), name := decl.name,
        routeToTop := true } := by
  induction decls generalizing carried i with
  | nil => rfl
  | cons decl decls ih =>
      rw [ofDeclarations_cons]
      cases i with
      | zero => simp [Attributes.settled_cons, Attributes.settled_nil]
      | succ i => simpa [Attributes.settled_cons] using ih (carried.declare decl) i

theorem ofDeclarations_append (carried : Attributes) (first second : List Declaration) :
    ofDeclarations carried (first ++ second) =
      ofDeclarations carried first ++ ofDeclarations (carried.settled first) second := by
  induction first generalizing carried with
  | nil => rfl
  | cons decl first ih =>
      rw [Attributes.settled_cons, List.cons_append, ofDeclarations_cons, ofDeclarations_cons,
        List.cons_append, ih]

/-- Behind a direction nothing is left of what was carried. -/
theorem ofDeclarations_of_direction {decls : List Declaration}
    (h : ∀ decl ∈ decls.head?, decl.direction.isSome) (carried carried' : Attributes) :
    ofDeclarations carried decls = ofDeclarations carried' decls := by
  cases decls with
  | nil => rfl
  | cons decl decls =>
      have hdirection : decl.settlesDirection = true := h decl rfl
      have hdeclare : carried.declare decl = carried'.declare decl := by
        simp [Attributes.declare_eq, Declaration.settlesWidth, Declaration.settlesSign,
          Declaration.settlesKind, hdirection]
      rw [ofDeclarations_cons, ofDeclarations_cons, hdeclare]

end Port

namespace PortList

/-- The declaration that is read from an entry. -/
def declaration? (entry : List Char) : Option Declaration :=
  (Declaration.read entry).toOption.map Prod.fst

theorem declaration?_eq_some_iff {entry : List Char} {decl : Declaration} :
    declaration? entry = some decl ↔ ∃ tail, Declaration.read entry = .ok (decl, tail) := by
  rw [declaration?]
  cases Declaration.read entry with
  | ok found => simp [Except.toOption, Prod.ext_iff]
  | error complaint => simp [Except.toOption]

theorem declaration?_eq_none_iff {entry : List Char} :
    declaration? entry = none ↔ ∃ complaint, Declaration.read entry = .error complaint := by
  rw [declaration?]
  cases Declaration.read entry with
  | ok found => simp [Except.toOption]
  | error complaint => simp [Except.toOption]

/-- The declarations of a port list, unreadable entries left out. -/
def declarations (text : List Char) : List Declaration :=
  (entryTexts text).filterMap declaration?

theorem ports_readEntries (carried : Attributes) (entries : List (List Char)) :
    (readEntries carried entries).filterMap PortEntry.port? =
      Port.ofDeclarations carried (entries.filterMap declaration?) := by
  induction entries generalizing carried with
  | nil => rfl
  | cons entry entries ih =>
      cases hread : Declaration.read entry with
      | ok found =>
          have hdecl := declaration?_eq_some_iff.mpr ⟨found.2, hread⟩
          rw [List.filterMap_cons_some hdecl, readEntries, hread, Port.ofDeclarations_cons, ← ih]
          rfl
      | error complaint =>
          have hdecl := declaration?_eq_none_iff.mpr ⟨complaint, hread⟩
          rw [List.filterMap_cons_none hdecl, readEntries, hread, ← ih]
          rfl

theorem ports_read (text : List Char) :
    (read text).ports = Port.ofDeclarations {} (declarations text) :=
  ports_readEntries {} (entryTexts text)

theorem entryTexts_append (front back : List Char) :
    entryTexts (front ++ ',' :: back) = entryTexts front ++ entryTexts back := by
  simp only [entryTexts, List.splitOn_append_cons_self, List.map_append, List.filter_append]

theorem declarations_append (front back : List Char) :
    declarations (front ++ ',' :: back) = declarations front ++ declarations back := by
  rw [declarations, entryTexts_append, List.filterMap_append]
  rfl

/-- Every port has the attributes that the declarations up to its own settle, with nothing
carried into a list from outside. A list whose first declaration gives a direction
has the same ports whatever stands in front of it. -/
theorem ports_settled :
    (∀ (carried : Attributes) (decls : List Declaration) (i : Nat),
      (Port.ofDeclarations carried decls)[i]? = decls[i]?.map fun decl =>
        { toAttributes := carried.settled (decls.take (i + 1)), name := decl.name,
          routeToTop := true }) ∧
    (∀ text, (read text).ports = Port.ofDeclarations {} (declarations text)) ∧
    ∀ front back, (∀ decl ∈ (declarations back).head?, decl.direction.isSome) →
      (read (front ++ ',' :: back)).ports = (read front).ports ++ (read back).ports := by
  refine ⟨Port.ofDeclarations_getElem?, ports_read, ?_⟩
  intro front back hdirection
  rw [ports_read, ports_read, ports_read, declarations_append, Port.ofDeclarations_append,
    Port.ofDeclarations_of_direction hdirection _ {}]

/-- The ports behind `output` take nothing from the signed registers in front. -/
theorem ports_behind_output :
    (∀ decl ∈ (declarations "output c, signed d, [3:0] e, f".toList).head?,
        decl.direction.isSome) ∧
      (read ("input reg signed [7:0] a, b".toList ++
          ',' :: "output c, signed d, [3:0] e, f".toList)).ports =
        (read "input reg signed [7:0] a, b".toList).ports ++
          [{ direction := some .output, kind := some .wire, name := "c" },
           { direction := some .output, kind := some .wire, signed := true, name := "d" },
           { direction := some .output, kind := some .wire, signed := true, width := "[3:0]",
             name := "e" },
           { direction := some .output, kind := some .wire, signed := true, width := "[3:0]",
             name := "f" }] := by
  have hdirection : ∀ decl ∈ (declarations "output c, signed d, [3:0] e, f".toList).head?,
      decl.direction.isSome := by
    decide +kernel
  refine ⟨hdirection, ?_⟩
  rw [ports_settled.2.2 _ _ hdirection]
  congr 1
  decide +kernel

end PortList

end VerilogOutline
