import VerilogOutline.Proofs.Outline.Sibling
import VerilogOutline.Proofs.Parameter.Written
import VerilogOutline.Proofs.Port.Written
import VerilogOutline.Proofs.Region.Written

/-!
# Outlines of written modules

Modules that are written one behind the other from descriptions have the outline that
the descriptions give, whatever space is used and whatever the options.
-/

namespace VerilogOutline

open Text Lexeme

theorem Module.value_ofRegion_of_readable (options : Options) {region : Region}
    {parameters : List Parameter}
    (hparameters : Parameter.readList region.parameters.toList = .ok parameters)
    (hskipped : (PortList.read region.ports.toList).skipped = 0) :
    (ofRegion options region).value = .ok {
      name := region.name
      parameters
      ports := (PortList.read region.ports.toList).ports
      body := region.body } := by
  simp [ofRegion, hparameters, hskipped]

/-- What is written about a module: its header entry by entry, and its body. -/
structure Description where
  name : String
  parameters : List Parameter
  declarations : List Declaration
  body : String

namespace Description

/-- The module that is described. No attribute is carried into its first port. -/
def toModule (description : Description) : Module where
  name := description.name
  parameters := description.parameters
  ports := Port.ofDeclarations {} description.declarations
  body := description.body
  skippedPorts := 0

/-- Every part can be told from what is written around it. -/
structure Plain (description : Description) : Prop where
  name_ident : IsIdent description.name.toList
  parameters : ∀ parameter ∈ description.parameters, parameter.Plain
  declarations : ∀ decl ∈ description.declarations, decl.Plain
  body_first : FirstBehind "endmodule".toList description.body.toList

instance : DecidablePred Plain := fun description =>
  decidable_of_iff
    ((IsIdent description.name.toList ∧ ∀ parameter ∈ description.parameters, parameter.Plain) ∧
      (∀ decl ∈ description.declarations, decl.Plain) ∧
        FirstBehind "endmodule".toList description.body.toList)
    ⟨fun ⟨⟨h₁, h₂⟩, h₃, h₄⟩ => ⟨h₁, h₂, h₃, h₄⟩, fun ⟨h₁, h₂, h₃, h₄⟩ => ⟨⟨h₁, h₂⟩, h₃, h₄⟩⟩

def parameterWords (description : Description) : List (List (List Char)) :=
  description.parameters.map Parameter.words

def portWords (description : Description) : List (List (List Char)) :=
  description.declarations.map Declaration.words

/-- A text that declares the described module, up to the end of a line. -/
inductive Written (description : Description) : List Char → Prop
  | intro (parameters ports header : List Char) :
      Listed description.parameterWords parameters →
      Region.Unclosed [';', '('] parameters →
      Listed description.portWords ports →
      Region.Unclosed [';'] ports →
      Spaced (Region.headerWords description.name.toList parameters ports) header →
      Written description
        (header ++ (description.body.toList ++ ("endmodule".toList ++ ['\n'])))

/-- The described module with as little space as possible. -/
def write (description : Description) : List Char :=
  layWords (Region.headerWords description.name.toList (layList description.parameterWords)
      (layList description.portWords)) ++
    (description.body.toList ++ ("endmodule".toList ++ ['\n']))

variable {description : Description}

theorem written_write
    (hparameters : Region.Unclosed [';', '('] (layList description.parameterWords))
    (hports : Region.Unclosed [';'] (layList description.portWords)) :
    Written description description.write := by
  refine .intro _ _ _ (listed_layList ?_) hparameters (listed_layList ?_) hports
    (spaced_layWords (List.cons_ne_nil _ _))
  · intro words hwords
    obtain ⟨parameter, _, rfl⟩ := List.mem_map.mp hwords
    exact List.cons_ne_nil _ _
  · intro words hwords
    obtain ⟨decl, _, rfl⟩ := List.mem_map.mp hwords
    exact decl.words_ne_nil

/-- The region of a written module is read as the module. -/
theorem Written.exists_segment (hplain : description.Plain) {text : List Char}
    (h : Written description text) (options : Options) :
    ∃ segment : Segment, text = segment.text ++ segment.gap ∧ segment.gap = ['\n'] ∧
      Region.read? segment.text = some (segment.region, []) ∧
      (Module.ofRegion options segment.region).value = .ok description.toModule := by
  cases h with
  | intro parameters ports header hparameters hparametersEnd hports hportsEnd hheader =>
      have hread := Region.read?_written hplain.name_ident hparametersEnd hportsEnd hheader
        hplain.body_first []
      have hlist := PortList.read_listed hplain.declarations hports
      refine ⟨⟨header ++ (description.body.toList ++ "endmodule".toList), _, ['\n']⟩, by simp, rfl,
        by simpa using hread, ?_⟩
      rw [Module.value_ofRegion_of_readable options
        (by simpa using Parameter.readList_listed hplain.parameters hparameters)
        (by simp [hlist])]
      simp [toModule, hlist]

variable {descriptions : List Description} {texts : List (List Char)}

theorem exists_segments (hplain : ∀ description ∈ descriptions, description.Plain)
    (h : List.Forall₂ Written descriptions texts) (options : Options) :
    ∃ segments : List Segment, Segment.join segments = texts.flatten ∧
      (∀ segment ∈ segments, segment.gap = ['\n'] ∧
        Region.read? segment.text = some (segment.region, [])) ∧
      segments.map (fun segment => (Module.ofRegion options segment.region).value) =
        descriptions.map fun description => .ok description.toModule := by
  induction h with
  | nil => exact ⟨[], rfl, by simp, rfl⟩
  | @cons description text descriptions texts hwritten _ ih =>
      obtain ⟨segment, htext, hgap, hread, hmodule⟩ :=
        hwritten.exists_segment (hplain description List.mem_cons_self) options
      obtain ⟨segments, hjoin, hsegments, hmodules⟩ :=
        ih fun d hd => hplain d (List.mem_cons_of_mem _ hd)
      refine ⟨segment :: segments, ?_, ?_, ?_⟩
      · rw [Segment.join_cons, hjoin, List.flatten_cons, htext, List.append_assoc]
      · intro s hs
        rcases List.mem_cons.mp hs with rfl | hs
        · exact ⟨hgap, hread⟩
        · exact hsegments s hs
      · rw [List.map_cons, List.map_cons, hmodule, hmodules]

end Description

namespace Outline

theorem siblings_of_lines {segments : List Segment}
    (h : ∀ segment ∈ segments, segment.gap = ['\n'] ∧
      Region.read? segment.text = some (segment.region, [])) :
    Sighting.Siblings [] segments where
  read_text := fun segment hs => (h segment hs).2
  harmless := by decide
  harmless_gap := by
    intro segment hs
    rw [(h segment hs).1]
    decide
  bound := fun _ => rfl
  bound_gap := by
    intro segment hs
    rw [(h segment (List.dropLast_subset _ hs)).1]
    rfl

theorem ofResults_map_ok (modules : List Module) :
    ofResults (modules.map .ok) = { modules } := by
  simp [ofResults, List.filterMap_map, Function.comp_def, Except.toOption, rejection?]

open Description

variable {descriptions : List Description} {texts : List (List Char)}

/-- Written modules are outlined as what they were written from, and nothing is rejected. -/
theorem load_written (options : Options)
    (hplain : ∀ description ∈ descriptions, description.Plain)
    (hwritten : List.Forall₂ Written descriptions texts) (hopen : Comment.OpensNone texts.flatten) :
    (load options (String.ofList texts.flatten)).value =
      { modules := descriptions.map toModule, rejected := [] } := by
  obtain ⟨segments, hjoin, hsegments, hmodules⟩ := exists_segments hplain hwritten options
  rw [← hjoin] at hopen ⊢
  have hresults := readModules_join options (siblings_of_lines hsegments) hopen
  rw [List.nil_append, hmodules] at hresults
  rw [value_load, hresults, ← ofResults_map_ok, List.map_map]
  rfl

/-- Two modules whose lists hold parentheses and whose ports go by those before. -/
def gateAndWire : List Description :=
  [{ name := "gate"
     parameters := [{ name := "W", value := "(8 - 1)" }, { name := "", value := "a = (b)" }]
     declarations :=
      [{ direction := some .output, kind := some .reg, signed := true, range := some "[W : 0]",
         name := "q" },
       { name := "inputs" }]
     body := " end module endmod " },
   { name := "module", parameters := [], declarations := [{ name := "q" }], body := "" }]

/-- The second port has the attributes of the first, but the next module starts afresh. -/
theorem load_gateAndWire :
    (∀ description ∈ gateAndWire, description.Plain) ∧
      List.Forall₂ Written gateAndWire (gateAndWire.map write) ∧
      Comment.OpensNone (gateAndWire.map write).flatten ∧
      (load { strictPorts := true } (String.ofList (gateAndWire.map write).flatten)).value =
        { modules :=
            [{ name := "gate"
               parameters :=
                [{ name := "W", value := "(8 - 1)" }, { name := "", value := "a = (b)" }]
               ports :=
                [{ direction := some .output, kind := some .reg, signed := true,
                   width := "[W : 0]", name := "q" },
                 { direction := some .output, kind := some .reg, signed := true,
                   width := "[W : 0]", name := "inputs" }]
               body := " end module endmod " },
             { name := "module", ports := [{ name := "q" }] }] } := by
  have hplain : ∀ description ∈ gateAndWire, description.Plain := by decide +kernel
  have hwritten : List.Forall₂ Written gateAndWire (gateAndWire.map write) :=
    .cons (written_write (by decide +kernel) (by decide +kernel))
      (.cons (written_write (by decide +kernel) (by decide +kernel)) .nil)
  have hopen : Comment.OpensNone (gateAndWire.map write).flatten :=
    { noLine := by decide +kernel, noBlock := by decide +kernel }
  exact ⟨hplain, hwritten, hopen, load_written { strictPorts := true } hplain hwritten hopen⟩

end Outline

end VerilogOutline
