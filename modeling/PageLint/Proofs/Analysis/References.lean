import PageLint.Proofs.Analysis.Embedded
import PageLint.Proofs.Url.Suffix

/-!
# References to files

A page refers to a file by each script that has a source and by each link to a stylesheet. Each
of these elements gives an error or a feature, and which of the two it gives is said by its url
as it is read from the base url of the page. A blank url is not always blank when it is read so.
-/

namespace PageLint

theorem Url.not_isAbsolute_of_isBlank {url : String} (h : Text.isBlank url = true) :
    isAbsolute url = false := by
  have hblank : ∀ c ∈ url.toList, Text.isBlankChar c = true := List.all_eq_true.mp h
  have hnone {c : Char} (hc : Text.isBlankChar c = false) : c ∉ url.toList := by
    intro hmem
    rw [hblank c hmem] at hc
    cases hc
  rw [Bool.eq_false_iff]
  intro habsolute
  rw [isAbsolute, Bool.or_eq_true, Bool.or_eq_true, Text.occursIn_iff, decide_eq_true_eq,
    List.isPrefixOf_iff_prefix] at habsolute
  rcases habsolute with (hscheme | hroot) | hdata
  · exact hnone (by decide) (hscheme.subset (List.mem_cons_self (a := ':')))
  · exact hnone (by decide) (List.mem_of_mem_head? hroot)
  · exact hnone (by decide) (hdata.subset (by decide : 'd' ∈ "data:".toList))

/-- A blank url stays blank behind a base url if it is empty or the base url has no directory. -/
theorem Url.isBlank_applyBase_iff {url : String} (h : Text.isBlank url = true)
    (base : Option String) : Text.isBlank (applyBase base url) = true ↔
      url = "" ∨ ∀ b ∈ base, '/' ∉ b.toList := by
  cases base with
  | none => simp [applyBase, h]
  | some b =>
    rw [applyBase, not_isAbsolute_of_isBlank h, Bool.or_false]
    by_cases hempty : url = ""
    · simp [hempty, Text.isBlank]
    · rw [if_neg (by simpa using hempty), Text.isBlank, String.toList_append, String.toList_ofList]
      simp only [hempty, false_or, Option.mem_some_iff, forall_eq']
      rw [← Text.throughLast_eq_nil_iff]
      rcases Text.throughLast_cases '/' b.toList with hnil | ⟨before, hbefore⟩
      · rw [hnil]
        exact iff_of_true h rfl
      · rw [hbefore]
        refine iff_of_false ?_ (by simp)
        simp [Text.isBlankChar]

namespace Markup

/-- A script with a source, or a link to a stylesheet. -/
structure Reference where
  id : NodeId
  node : Node
  /-- The name of the kind of reference. -/
  type : String
  /-- The attribute that the url is written in, if there is one. -/
  attribute? : Option Attribute
  lazy : Bool

namespace Reference

variable (r : Reference)

/-- The url as it is written, empty if there is none. -/
def written : String := (r.attribute?.bind (·.value)).getD ""

/-- What is referred to in a page with a base url. -/
def ref (base : Option String) : ImportRef where
  type := r.type
  url := Url.applyBase base r.written
  urlRange := r.attribute?.map (·.range)
  lazy := r.lazy
  node := some r.id

/-- Whether the url that is read from the base url is blank. -/
def isVoid (base : Option String) : Bool := Text.isBlank (r.ref base).url

/-- The error that the url is empty. -/
def emptyUrl : Warning :=
  .error "empty-import-url" s!"{r.type} import has an empty url"
    ((r.attribute?.map (·.range)).getD r.node.range)

end Reference

end Markup

open Markup (Reference Node)

def Script.reference? (e : NodeId × Node) : Option Reference :=
  if e.2.kind = "script" then
    (e.2.attribute? "src").map fun src =>
      ⟨e.1, e.2, "html-script", some src, e.2.hasAttribute "async" || e.2.hasAttribute "defer"⟩
  else none

def Style.reference? (e : NodeId × Node) : Option Reference :=
  if e.2.kind = "link" && isStylesheet e.2 then
    some ⟨e.1, e.2, "html-style", e.2.attribute? "href", false⟩
  else none

/-- The elements of a page that refer to files, scripts before stylesheets. -/
def Markup.Tree.references (tree : Tree) : List Reference :=
  tree.entries.filterMap Script.reference? ++ tree.entries.filterMap Style.reference?

/-! ## What is found in them -/

/-- The findings are those of some elements that refer to files, in their order, and documents
between them. -/
inductive FoundIn (base : Option String) : List ScannedFeature → List Reference → Prop
  | nil : FoundIn base [] []
  | reference {found refs} (r : Reference) (warnings : List Warning)
      (rest : FoundIn base found refs) :
      FoundIn base (.reference (r.ref base) r.node.range warnings :: found) (r :: refs)
  | inlineDocument {found refs} (inner : InlineDocument) (range : SourceRange)
      (rest : FoundIn base found refs) : FoundIn base (.inlineDocument inner range [] :: found) refs

namespace FoundIn

variable {base : Option String} {found found' : List ScannedFeature} {refs refs' : List Reference}

theorem append (h : FoundIn base found refs) (h' : FoundIn base found' refs') :
    FoundIn base (found ++ found') (refs ++ refs') := by
  induction h with
  | nil => exact h'
  | reference r warnings _ ih => exact .reference r warnings ih
  | inlineDocument inner range _ ih => exact .inlineDocument inner range ih

/-- What is found in some elements, if it is known what is found in each of them. -/
theorem filterMap {feature? : NodeId × Node → Option ScannedFeature}
    {reference? : NodeId × Node → Option Reference} (entries : List (NodeId × Node))
    (h : ∀ e ∈ entries, FoundIn base (feature? e).toList (reference? e).toList) :
    FoundIn base (entries.filterMap feature?) (entries.filterMap reference?) := by
  induction entries with
  | nil => exact .nil
  | cons e entries ih =>
    obtain ⟨he, hrest⟩ := List.forall_mem_cons.mp h
    rw [List.filterMap_eq_flatMap_toList, List.filterMap_eq_flatMap_toList, List.flatMap_cons,
      List.flatMap_cons, ← List.filterMap_eq_flatMap_toList, ← List.filterMap_eq_flatMap_toList]
    exact he.append (ih hrest)

theorem script (base : Option String) {e : NodeId × Node} (h : e.2.kind = "script") :
    FoundIn base (Script.feature? base e.1 e.2).toList (Script.reference? e).toList := by
  rw [Script.reference?, if_pos h]
  unfold Script.feature?
  cases hsrc : e.2.attribute? "src" with
  | some src => exact .reference ⟨e.1, e.2, "html-script", some src, _⟩ _ .nil
  | none =>
    change FoundIn base (Script.internal? e.1 e.2).toList []
    unfold Script.internal?
    split
    · exact .inlineDocument _ _ .nil
    · exact .nil

theorem style (base : Option String) (e : NodeId × Node) :
    FoundIn base (Style.feature? base e.1 e.2).toList (Style.reference? e).toList := by
  rw [Style.reference?, Style.feature?]
  by_cases hlink : e.2.kind = "link"
  · rw [if_pos hlink]
    by_cases hsheet : Style.isStylesheet e.2
    · rw [if_pos hsheet, if_pos (by simp [hlink, hsheet])]
      exact .reference ⟨e.1, e.2, "html-style", e.2.attribute? "href", false⟩ [] .nil
    · rw [if_neg hsheet, if_neg (by simp [hsheet])]
      exact .nil
  · rw [if_neg hlink, decide_eq_false hlink, Bool.false_and, if_neg Bool.false_ne_true]
    unfold Style.embedded?
    split
    · split
      · exact .inlineDocument _ _ .nil
      · exact .nil
    · exact .nil

/-- What is found in a page. -/
theorem page (tree : Markup.Tree) :
    FoundIn tree.baseUrl? (((tree.ofKind "script").filterMap fun e =>
        Script.feature? tree.baseUrl? e.1 e.2) ++
      tree.entries.filterMap fun e => Style.feature? tree.baseUrl? e.1 e.2) tree.references := by
  apply append
  · have hkind : tree.entries.filterMap Script.reference? =
        (tree.ofKind "script").filterMap Script.reference? := by
      rw [Markup.Tree.ofKind, List.filterMap_filter]
      apply List.filterMap_congr
      intro e _
      by_cases h : e.2.kind = "script" <;> simp [Script.reference?, h]
    rw [hkind]
    apply filterMap
    intro e he
    exact script _ (of_decide_eq_true (List.mem_filter.mp he).2)
  · exact filterMap _ fun e _ => style _ e

/-- An element whose url is void gives its error, and any other gives its feature. -/
theorem outcomes (h : FoundIn base found refs) (d : Document) :
    let r := Resolution.ofOutcomes (found.map (·.resolveAt d))
    r.warnings = (refs.filter (·.isVoid base)).map (·.emptyUrl) ∧
      r.features.filterMap Feature.reference? = (refs.filter (!·.isVoid base)).map fun r =>
        (r.ref base, Url.resolve d.url (r.ref base).url) := by
  induction h with
  | nil => exact ⟨rfl, rfl⟩
  | inlineDocument inner range _ ih => exact ih
  | @reference found refs r warnings _ ih =>
    obtain ⟨hwarnings, hfeatures⟩ := ih
    simp only [List.map_cons, ScannedFeature.resolveAt, List.filter_cons]
    cases hvoid : r.isVoid base with
    | true =>
      have herror : (r.ref base).resolve d.url r.node.range warnings = .error r.emptyUrl :=
        if_pos hvoid
      rw [herror]
      exact ⟨congrArg _ hwarnings, hfeatures⟩
    | false =>
      obtain ⟨f, hf, href⟩ : ∃ f, (r.ref base).resolve d.url r.node.range warnings = .ok f ∧
          f.reference? = some (r.ref base, Url.resolve d.url (r.ref base).url) :=
        ⟨_, if_neg (ne_true_of_eq_false hvoid), rfl⟩
      rw [hf]
      refine ⟨hwarnings, ?_⟩
      change (f :: _).filterMap _ = _
      rw [List.filterMap_cons_some href]
      exact congrArg _ hfeatures

end FoundIn

/-- The parser does not say of a url that it is empty. -/
theorem Markup.code_ne_of_mem_warnings_parse {url : Path} {contents : String} {parsed : Parsed}
    (h : parse url contents none = .ok parsed) {w : Warning} (hw : w ∈ parsed.warnings) :
    w.code ≠ "empty-import-url" := by
  rcases mem_warnings_parse h hw with ⟨problem, -, rfl⟩ | ⟨t, -, name, -, rfl⟩
  · obtain ⟨defect, span⟩ := problem
    change defect.code ≠ _
    cases defect <;> simp [Defect.code]
  · simp [Warning.info]

namespace Page

open Analyzer

/-- A page can be analyzed, and is then what was read in it. -/
theorem exists_analyze_journal (url : Path) (source : String) (mode : ResolutionMode) :
    ∃ page j, analyze url source mode [] = .ok page ∧
      (pagesOnly mode).journal url .html source none = .ok j ∧
        page.table.get? page.root = some (j.document none) := by
  obtain ⟨j, hj, hlanguages⟩ := exists_journal_pagesOnly mode url source
  have hroot := Table.get?_nextId_empty (j.document none)
  obtain ⟨t, hadd, -, hget⟩ := exists_addInline_pagesOnly mode nestingLimit_pos hroot hlanguages
  exact ⟨⟨t, Database.inMemory.add (SourceFile.ofContent url source), Table.empty.nextId⟩, j,
    analyze_of_addInline hj hadd, hj, hget⟩

/-- Of the elements that refer to files, those whose url is blank as it is read from the base
url of the page give one error each, and the others one reference each. A url that is blank as
it is written is blank there too if it is empty or the base url has no directory, and not
otherwise. -/
theorem blank_references (url : Path) (source : String) (mode : ResolutionMode) :
    ∃ page root warnings, analyze url source mode [] = .ok page ∧
      page.table.get? page.root = some root ∧
      Markup.parse url source none = .ok ⟨root.tree, warnings⟩ ∧
      root.warnings.filter (·.code = "empty-import-url") =
        (root.tree.references.filter (·.isVoid root.tree.baseUrl?)).map (·.emptyUrl) ∧
      root.references.map (·.1.node) =
        (root.tree.references.filter (!·.isVoid root.tree.baseUrl?)).map (some ·.id) ∧
      ∀ r ∈ root.tree.references, Text.isBlank r.written = true →
        (r.isVoid root.tree.baseUrl? ↔
          r.written = "" ∨ ∀ b ∈ root.tree.baseUrl?, '/' ∉ b.toList) := by
  obtain ⟨page, j, hpage, hj, hroot⟩ := exists_analyze_journal url source mode
  obtain ⟨hparse, -, hremarks, hfindings⟩ := findings_page (a := pagesOnly mode) rfl hj
  obtain ⟨herrors, hfeatures⟩ := (FoundIn.page j.parsed.tree).outcomes j.parsed
  rw [← hfindings] at herrors hfeatures
  refine ⟨page, j.document none, j.parsed.warnings, hpage, hroot, hparse, ?_, ?_, ?_⟩
  · change (j.parsed.warnings ++ j.remarks ++ j.resolution.warnings).filter _ = _
    rw [hremarks, List.append_nil, List.filter_append]
    have hparser : j.parsed.warnings.filter (·.code = "empty-import-url") = [] := by
      apply List.filter_eq_nil_iff.mpr
      intro w hw
      simpa using Markup.code_ne_of_mem_warnings_parse hparse hw
    rw [hparser, List.nil_append, Journal.resolution, herrors]
    apply List.filter_eq_self.mpr
    intro w hw
    obtain ⟨r, -, rfl⟩ := List.mem_map.mp hw
    rfl
  · change (j.resolution.features.filterMap Feature.reference?).map _ = _
    rw [Journal.resolution, hfeatures, List.map_map]
    rfl
  · intro r _ hblank
    exact Url.isBlank_applyBase_iff hblank _

/-- A page whose base url has no directory, with a blank source and no url of a stylesheet. -/
def shallowBase : String := "<base href=b><script src=' '></script><link rel=stylesheet>"

theorem blank_references_shallowBase :
    ∃ page root, analyze ⟨"a.html"⟩ shallowBase .parallel [] = .ok page ∧
      page.table.get? page.root = some root ∧
      (root.warnings.filter (·.code = "empty-import-url")).length = 2 ∧ root.references = [] := by
  have facts : (Markup.parse ⟨"a.html"⟩ shallowBase none).map (fun parsed =>
      (parsed.tree.baseUrl?, parsed.tree.references.map (·.written))) =
        .ok (some "b", [" ", ""]) := by decide +kernel
  obtain ⟨page, root, warnings, hpage, hroot, hparse, herrors, hreferences, hblank⟩ :=
    blank_references ⟨"a.html"⟩ shallowBase .parallel
  rw [hparse] at facts
  obtain ⟨hbase, hwritten⟩ := Prod.mk.inj (Except.ok.inj facts)
  have hvoid : ∀ r ∈ root.tree.references, r.isVoid root.tree.baseUrl? = true := by
    intro r hr
    have hmem : r.written ∈ [" ", ""] := hwritten ▸ List.mem_map_of_mem hr
    have hall : ∀ written ∈ [" ", ""], Text.isBlank written = true := by decide
    rw [hblank r hr (hall _ hmem), hbase]
    exact Or.inr (by simp)
  refine ⟨page, root, hpage, hroot, ?_, ?_⟩
  · rw [herrors, List.length_map, List.filter_eq_self.mpr hvoid, ← List.length_map (·.written),
      hwritten]
    rfl
  · have hnone : root.tree.references.filter (!·.isVoid root.tree.baseUrl?) = [] :=
      List.filter_eq_nil_iff.mpr fun r hr => by simp [hvoid r hr]
    rw [hnone] at hreferences
    exact List.map_eq_nil_iff.mp hreferences

/-- A page whose base url has a directory, with a blank source. -/
def deepBase : String := "<base href=\"/b/\"><script src=\" \"></script>"

/-- The blank source of a script is read as a file in the directory of the base url. -/
theorem blank_source_resolved :
    ∃ page root, analyze ⟨"a.html"⟩ deepBase .parallel [] = .ok page ∧
      page.table.get? page.root = some root ∧
      (∃ e ∈ root.tree.entries, e.2.kind = "script" ∧ e.2.value? "src" = some " ") ∧
      root.warnings = [] ∧ root.references.map (·.2) = ["/b/ "] := by
  have facts : (analyze ⟨"a.html"⟩ deepBase .parallel []).map (fun page =>
      (page.table.get? page.root).map fun root =>
        (root.tree.entries.map fun e => (e.2.kind, e.2.value? "src"), root.warnings,
          root.references.map (·.2))) =
      .ok (some ([("base", none), ("script", some " ")], [], ["/b/ "])) := by decide +kernel
  obtain ⟨page, hpage, hroot⟩ := map_eq_ok_iff.mp facts
  obtain ⟨root, hroot, hall⟩ := Option.map_eq_some_iff.mp hroot
  obtain ⟨hentries, hrest⟩ := Prod.mk.inj hall
  obtain ⟨hwarnings, hreferences⟩ := Prod.mk.inj hrest
  have hscript : ("script", some " ") ∈
      root.tree.entries.map fun e => (e.2.kind, e.2.value? "src") := by
    rw [hentries]
    exact List.mem_cons_of_mem _ List.mem_cons_self
  obtain ⟨e, he, heq⟩ := List.mem_map.mp hscript
  obtain ⟨hkind, hsrc⟩ := Prod.mk.inj heq
  exact ⟨page, root, hpage, hroot, ⟨e, he, hkind, hsrc⟩, hwarnings, hreferences⟩

end Page

end PageLint
