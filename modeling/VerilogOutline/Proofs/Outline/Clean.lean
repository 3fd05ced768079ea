import VerilogOutline.Outline
import VerilogOutline.Proofs.Comment.Clean
import VerilogOutline.Proofs.Parameter.Written
import VerilogOutline.Proofs.Port.Grammar
import VerilogOutline.Proofs.Port.Settled
import VerilogOutline.Proofs.Sighting.Stop
import VerilogOutline.Proofs.Text.Piece

/-!
# Outlines hold no comments

Every text in an outline is a piece of the source without its comments, or the width of
a port without a range. So no comment is left in it.
-/

namespace VerilogOutline

open Text Lexeme

namespace Region

/-- The texts that a region consists of. -/
def texts (region : Region) : List String :=
  [region.name, region.parameters, region.ports, region.body]

variable {text parameters ports rest : List Char}

theorem ports?_isInfix (h : ports? text = some (ports, rest)) : ports <:+: text := by
  rcases ports?_eq_some_iff.mp h with ⟨rfl, _⟩ | ⟨inside, hopen, hgroup⟩
  · exact List.nil_infix
  · obtain ⟨after, rfl, _⟩ := group?_eq_some_iff.mp hgroup
    exact (List.prefix_append _ _).isInfix.trans (suffix_of_dropSpace_eq_cons hopen).isInfix

theorem header?_isInfix (h : header? text = some (parameters, ports, rest)) :
    parameters <:+: text ∧ ports <:+: text := by
  rcases header?_eq_some_iff.mp h with ⟨after, inside, hhash, hopen, hgroup⟩ | ⟨rfl, hports⟩
  · obtain ⟨behind, rfl, hports, _⟩ := group?_eq_some_iff.mp hgroup
    have hinside := (suffix_of_dropSpace_eq_cons hopen).trans (suffix_of_dropSpace_eq_cons hhash)
    have hbehind : behind <:+ parameters ++ ')' :: behind :=
      (List.suffix_cons _ _).trans (List.suffix_append _ _)
    exact ⟨(List.prefix_append _ _).isInfix.trans hinside.isInfix,
      (ports?_isInfix hports).trans (hbehind.trans hinside).isInfix⟩
  · exact ⟨List.nil_infix, ports?_isInfix hports⟩

theorem isInfix_of_read? {region : Region} (h : read? text = some (region, rest)) :
    ∀ part ∈ region.texts, part.toList <:+: text := by
  obtain ⟨afterKeyword, name, afterName, parameters, ports, afterHeader, body, hkeyword, _, hname,
    hheader, hbody, rfl⟩ := read?_eq_some_iff.mp h
  have hkeyword := keyword?_suffix hkeyword
  have hident := eq_append_of_identifier? hname
  have hnamed : name ++ afterName <:+ text := by
    rw [← hident]
    exact (dropSpace_suffix afterKeyword).trans hkeyword
  have hheaded := (List.suffix_append name afterName).trans hnamed
  have hbodied := (header?_suffix hheader).trans hheaded
  obtain ⟨hparameters, hports⟩ := header?_isInfix hheader
  rw [(breakOn?_eq_some_iff.mp hbody).1] at hbodied
  simp only [texts, List.forall_mem_cons, String.toList_ofList]
  refine ⟨?_, ?_, ?_, ?_, by simp⟩
  · exact (List.prefix_append name afterName).isInfix.trans hnamed.isInfix
  · exact (trim_isInfix parameters).trans (hparameters.trans hheaded.isInfix)
  · exact (trim_isInfix ports).trans (hports.trans hheaded.isInfix)
  · exact (List.prefix_append body _).isInfix.trans hbodied.isInfix

end Region

theorem Sighting.isInfix_of_mem_regions {source : List Char} {region : Region}
    (h : region ∈ regions (scan source)) : ∀ part ∈ region.texts, part.toList <:+: source := by
  obtain ⟨stops, hscan, _⟩ := exists_stops source
  rw [hscan, regions, List.filterMap_map] at h
  obtain ⟨stop, _, hregion⟩ := List.mem_filterMap.mp h
  have hread := stop.takes
  rw [show stop.region? = some region from hregion] at hread
  have hbehind : stop.taken ++ stop.behind <:+ source := ⟨stop.before, stop.eq_source⟩
  intro part hpart
  exact (Region.isInfix_of_read? hread part hpart).trans hbehind.isInfix

namespace Parameter

/-- The texts that a parameter consists of. -/
def texts (parameter : Parameter) : List String :=
  [parameter.name, parameter.value]

theorem isInfix_of_read {entry : List Char} {parameter : Parameter}
    (h : read entry = .ok parameter) : ∀ part ∈ parameter.texts, part.toList <:+: entry := by
  unfold read at h
  split at h
  next name value hcut =>
    obtain rfl := Except.ok.inj h
    rw [eq_append_of_cutFirst? hcut]
    simp only [texts, List.forall_mem_cons, String.toList_ofList]
    refine ⟨?_, ?_, by simp⟩
    · exact (trim_isInfix name).trans (List.prefix_append _ _).isInfix
    · exact (trim_isInfix value).trans
        ((List.suffix_cons _ _).trans (List.suffix_append _ _)).isInfix
  next => contradiction

theorem isInfix_of_mem_entries {text entry : List Char} (h : entry ∈ entries text) :
    entry <:+: text := by
  obtain ⟨hentry, _⟩ := List.mem_filter.mp h
  obtain ⟨piece, hpiece, rfl⟩ := List.mem_map.mp hentry
  have htrim := (trim_isInfix piece).trans (isInfix_of_mem_splitOn hpiece)
  refine List.IsInfix.trans ?_ htrim
  unfold withoutKeyword
  split
  next rest hkeyword => exact ((dropSpace_suffix rest).trans (keyword?_suffix hkeyword)).isInfix
  next => exact List.infix_rfl

theorem isInfix_of_readList {text : List Char} {parameters : List Parameter}
    (h : readList text = .ok parameters) :
    ∀ parameter ∈ parameters, ∀ part ∈ parameter.texts, part.toList <:+: text := by
  have hentries : ∀ entry ∈ entries text, entry <:+: text := fun _ => isInfix_of_mem_entries
  rw [readList, mapM_read_eq_ok_iff] at h
  generalize entries text = entries at hentries h
  induction h with
  | nil => simp
  | cons hread _ ih =>
      rw [List.forall_mem_cons] at hentries ⊢
      exact ⟨fun part hpart => (isInfix_of_read hread part hpart).trans hentries.1, ih hentries.2⟩

end Parameter

theorem Declaration.isInfix_of_read {entry tail : List Char} {decl : Declaration}
    (h : Declaration.read entry = .ok (decl, tail)) :
    decl.name.toList <:+: entry ∧ ∀ range ∈ decl.range, range.toList <:+: entry := by
  obtain ⟨_, _, hlaid, _⟩ := read_iff.mp h
  constructor
  · exact hlaid.isInfix_of_mem decl.name_mem_words
  · intro range hrange
    exact hlaid.isInfix_of_mem (range_mem_words hrange)

namespace Port

/-- The texts that a port consists of. -/
def texts (port : Port) : List String :=
  [port.name, port.width]

/-- Names are the declared ones, and widths are declared or carried ones or that of a scalar. -/
theorem forall_texts_ofDeclarations {p : String → Prop} {carried : Attributes}
    {decls : List Declaration} (hscalar : p scalarWidth) (hcarried : p carried.width)
    (hdecls : ∀ decl ∈ decls, p decl.name ∧ ∀ range ∈ decl.range, p range) :
    ∀ port ∈ ofDeclarations carried decls, ∀ part ∈ port.texts, p part := by
  induction decls generalizing carried with
  | nil => simp [ofDeclarations]
  | cons decl decls ih =>
      rw [List.forall_mem_cons] at hdecls
      obtain ⟨⟨hname, hrange⟩, hdecls⟩ := hdecls
      have hwidth : p (carried.declare decl).width := by
        rw [Attributes.declare_eq]
        dsimp only
        split
        next =>
          cases hdecl : decl.range with
          | none => exact hscalar
          | some range => exact hrange range hdecl
        next => exact hcarried
      rw [ofDeclarations_cons, List.forall_mem_cons]
      refine ⟨?_, ih hwidth hdecls⟩
      simp only [texts, List.forall_mem_cons]
      exact ⟨hname, hwidth, by simp⟩

end Port

theorem PortList.isInfix_of_mem_ports {text : List Char} :
    ∀ port ∈ (read text).ports, ∀ part ∈ port.texts,
      part = scalarWidth ∨ part.toList <:+: text := by
  rw [ports_read]
  refine Port.forall_texts_ofDeclarations (.inl rfl) (.inl rfl) ?_
  intro decl hdecl
  obtain ⟨entry, hentry, hdecl⟩ := List.mem_filterMap.mp hdecl
  obtain ⟨tail, hread⟩ := declaration?_eq_some_iff.mp hdecl
  have hinside : entry <:+: text := by
    obtain ⟨piece, hpiece, rfl⟩ := List.mem_map.mp (List.mem_filter.mp hentry).1
    exact (trim_isInfix piece).trans (isInfix_of_mem_splitOn hpiece)
  obtain ⟨hname, hrange⟩ := Declaration.isInfix_of_read hread
  exact ⟨.inr (hname.trans hinside), fun range hr => .inr ((hrange range hr).trans hinside)⟩

namespace Module

/-- The texts that a module consists of. -/
def texts (module : Module) : List String :=
  [module.name, module.body] ++ module.parameters.flatMap Parameter.texts ++
    module.ports.flatMap Port.texts

theorem exists_of_ofRegion_eq_ok {options : Options} {region : Region} {module : Module}
    (h : (ofRegion options region).value = .ok module) :
    ∃ parameters, Parameter.readList region.parameters.toList = .ok parameters ∧
      module = {
        name := region.name
        parameters
        ports := (PortList.read region.ports.toList).ports
        body := region.body
        skippedPorts := (PortList.read region.ports.toList).skipped } := by
  unfold ofRegion at h
  split at h
  next => contradiction
  next parameters hread =>
    refine ⟨parameters, hread, ?_⟩
    simp only [Recorded.value_bind] at h
    split at h
    next => contradiction
    next => exact (Except.ok.inj h).symm

theorem isInfix_of_ofRegion {options : Options} {region : Region} {module : Module}
    (h : (ofRegion options region).value = .ok module) :
    ∀ part ∈ module.texts, part = scalarWidth ∨
      ∃ whole ∈ region.texts, part.toList <:+: whole.toList := by
  obtain ⟨parameters, hread, rfl⟩ := exists_of_ofRegion_eq_ok h
  intro part hpart
  simp only [texts, List.mem_append, List.mem_cons, List.not_mem_nil, or_false,
    List.mem_flatMap] at hpart
  rcases hpart with ((rfl | rfl) | ⟨parameter, hparameter, hpart⟩) | ⟨port, hport, hpart⟩
  · exact .inr ⟨_, by simp [Region.texts], List.infix_rfl⟩
  · exact .inr ⟨_, by simp [Region.texts], List.infix_rfl⟩
  · exact .inr ⟨region.parameters, by simp [Region.texts],
      Parameter.isInfix_of_readList hread parameter hparameter part hpart⟩
  · rcases PortList.isInfix_of_mem_ports port hport part hpart with hscalar | hinside
    · exact .inl hscalar
    · exact .inr ⟨region.ports, by simp [Region.texts], hinside⟩

end Module

namespace Outline

open Comment

/-- What the modules of an outline consist of stands in the source without comments. -/
theorem isInfix_strip_of_mem_modules (options : Options) (source : String) :
    ∀ module ∈ (load options source).value.modules, ∀ part ∈ module.texts,
      part = scalarWidth ∨ part.toList <:+: strip source.toList := by
  intro module hmodule part hpart
  obtain ⟨region, hregion, hread⟩ := exists_region_of_mem_load hmodule
  rcases Module.isInfix_of_ofRegion hread part hpart with hscalar | ⟨whole, hwhole, hinside⟩
  · exact .inl hscalar
  · exact .inr (hinside.trans (Sighting.isInfix_of_mem_regions hregion whole hwhole))

theorem clean_scalarWidth : Clean scalarWidth.toList where
  noLine := by decide
  noBlock := blockFree_of_not_close (by decide)

theorem load_strip (options : Options) (source : String) :
    load options (String.ofList (strip source.toList)) = load options source := by
  simp only [load, readModules, String.toList_ofList, (clean_strip source.toList).strip_eq_self]

/-- Removing comments comes to an end and leaves a clean text, which is outlined like the
source. All texts in an outline are clean. -/
theorem load_clean (options : Options) (source : String) :
    (∃ passes, (∀ n < passes, (removeBlocks^[n + 1] source.toList).length <
          (removeBlocks^[n] source.toList).length) ∧
        removeBlocks (removeBlocks^[passes] source.toList) =
          removeBlocks^[passes] source.toList ∧
        stripBlocks source.toList = removeBlocks^[passes] source.toList) ∧
      Clean (strip source.toList) ∧
      (∀ text, Clean text → strip text = text) ∧
      strip (strip source.toList) = strip source.toList ∧
      load options (String.ofList (strip source.toList)) = load options source ∧
      ∀ module ∈ (load options source).value.modules, ∀ part ∈ module.texts,
        Clean part.toList := by
  refine ⟨exists_passes _, clean_strip _, fun _ => Clean.strip_eq_self,
    (clean_strip _).strip_eq_self, load_strip options source, ?_⟩
  intro module hmodule part hpart
  rcases isInfix_strip_of_mem_modules options source module hmodule part hpart with rfl | hinside
  · exact clean_scalarWidth
  · exact (clean_strip _).of_isInfix hinside

/-- The `*/` in front and the one that shares its `*` with the `/*` close nothing. -/
theorem strip_overlapping :
    Clean "*/ a /*/ b".toList ∧ strip "*/ a /*/ b".toList = "*/ a /*/ b".toList := by
  have hclean : Clean "*/ a /*/ b".toList :=
    { noLine := by decide +kernel
      noBlock := removeBlocks_eq_self_iff.mp (by decide +kernel) }
  exact ⟨hclean, (load_clean {} "").2.2.1 _ hclean⟩

end Outline

end VerilogOutline
