import PageLint.Proofs.Analysis.Inline
import PageLint.Proofs.Analysis.Warnings
import PageLint.Proofs.Markup.Ranges

/-!
# What is said of a page

Whatever the parser and the scanners say while a page is read, of the page itself or of a
script inside it, they say it of spans of the page, and so does the analyzer where a finding
comes to nothing.
-/

namespace PageLint

open FunctionKeyword (Site sites)

variable {file : SourceFile} {k : Nat}

/-! ## Findings -/

/-- The finding was made at a span of the file, and so was all that is wrong with it. -/
structure ScannedFeature.Placed (file : SourceFile) (s : ScannedFeature) : Prop where
  range {range : SourceRange} (h : s.range? = some range) : range.Of file
  warnings : ∀ w ∈ s.warnings, w.Of file
  errors {d : Document} {w : Warning} (h : s.resolveAt d = .error w) : w.Of file

namespace ScannedFeature

variable {range : SourceRange}

theorem placed_function (h : range.Of file) (decl : FunctionDecl) :
    (ScannedFeature.function decl range []).Placed file := by
  refine ⟨?_, List.forall_mem_nil _, ?_⟩
  · rintro range ⟨⟩
    exact h
  · intro d w hw
    change FunctionDecl.resolve decl range [] = .error w at hw
    unfold FunctionDecl.resolve at hw
    split at hw
    · cases hw
      exact ⟨range, rfl, h⟩
    · cases hw

theorem placed_reference (h : range.Of file) {ref : ImportRef}
    (hurl : ∀ r, ref.urlRange = some r → r.Of file) {warnings : List Warning}
    (hwarnings : ∀ w ∈ warnings, w.Of file) :
    (ScannedFeature.reference ref range warnings).Placed file := by
  refine ⟨?_, hwarnings, ?_⟩
  · rintro range ⟨⟩
    exact h
  · intro d w hw
    change ImportRef.resolve ref d.url range warnings = .error w at hw
    unfold ImportRef.resolve at hw
    split at hw
    · cases hw
      refine ⟨_, rfl, ?_⟩
      cases hrange : ref.urlRange with
      | none => exact h
      | some r => exact hurl r hrange
    · cases hw

theorem placed_inlineDocument (h : range.Of file) (inner : InlineDocument) :
    (ScannedFeature.inlineDocument inner range []).Placed file := by
  refine ⟨?_, List.forall_mem_nil _, ?_⟩
  · rintro range ⟨⟩
    exact h
  · intro d w hw
    cases hw

end ScannedFeature

section

variable {node : Markup.Node} (hnode : node.StopsBy file k)
include hnode

theorem Markup.Node.StopsBy.attribute? {name : String} {a : Markup.Attribute}
    (h : node.attribute? name = some a) : a.range.Of file :=
  hnode.attributes a (List.mem_of_find?_eq_some h)

theorem Script.of_ignoredContent : ∀ w ∈ ignoredContent node, w.Of file := by
  unfold ignoredContent
  split
  · next text range _ hrange =>
    split
    · exact List.forall_mem_nil _
    · exact List.forall_mem_singleton.mpr ⟨range, rfl, hnode.textRange hrange⟩
  · exact List.forall_mem_nil _

theorem Script.placed_feature? {base : Option String} {id : NodeId} {s : ScannedFeature}
    (h : feature? base id node = some s) : s.Placed file := by
  unfold feature? at h
  split at h
  · next src hsrc =>
    cases h
    refine ScannedFeature.placed_reference hnode.range_of ?_ (of_ignoredContent hnode)
    rintro range ⟨⟩
    exact hnode.attribute? hsrc
  · unfold internal? at h
    split at h
    · next hrange =>
      cases h
      exact ScannedFeature.placed_inlineDocument (hnode.textRange hrange) _
    · cases h

theorem Style.placed_feature? {base : Option String} {id : NodeId} {s : ScannedFeature}
    (h : feature? base id node = some s) : s.Placed file := by
  unfold feature? at h
  split at h
  · split at h
    · cases h
      refine ScannedFeature.placed_reference hnode.range_of ?_ (List.forall_mem_nil _)
      intro range hrange
      obtain ⟨href, hhref, rfl⟩ := Option.map_eq_some_iff.mp hrange
      exact hnode.attribute? hhref
    · cases h
  · split at h
    · unfold embedded? at h
      split at h
      · next hrange =>
        cases h
        exact ScannedFeature.placed_inlineDocument (hnode.textRange hrange) _
      · cases h
    · cases h

end

theorem FunctionKeyword.span_in {cs : List Char} {site : Site} (h : site ∈ sites cs) :
    site.span.In cs := by
  obtain ⟨hstart, hstop⟩ := isBoundary_of_mem_sites h
  refine ⟨hstart, hstop, ?_⟩
  obtain ⟨pre, post, -, -, rfl⟩ := mem_sites_iff.mp h
  rw [spanAt, Nat.add_assoc]
  exact Nat.le_add_right _ _

/-- A function of a script is found in the file around the script. -/
theorem FunctionKeyword.Site.placed_foundAt {part : List Char}
    (stands : Text.StandsAt file.content.toList k part) {site : Site} (h : site ∈ sites part) :
    (site.foundAt file k).Placed file := by
  have hspan := span_in h
  apply ScannedFeature.placed_function
  exact ⟨_, ⟨stands.isBoundary_add hspan.start, stands.isBoundary_add hspan.stop,
    Nat.add_le_add_left hspan.le k⟩, rfl⟩

/-! ## Journals -/

/-- All that is said in the journal is said of the file. -/
structure Journal.Placed (file : SourceFile) (j : Journal) : Prop where
  warnings : ∀ w ∈ j.parsed.warnings, w.Of file
  remarks : j.remarks = []
  findings : ∀ s ∈ j.findings, s.Placed file

/-- What holds of all that the parser and the scanners say, and of what is wrong with their
findings, holds of all that is said in the journal. -/
theorem Journal.forall_mem_produced {p : Warning → Prop} {j : Journal}
    (parsed : ∀ w ∈ j.parsed.warnings, p w) (remarks : ∀ w ∈ j.remarks, p w)
    (attached : ∀ s ∈ j.findings, ∀ w ∈ s.warnings, p w)
    (errors : ∀ s ∈ j.findings, ∀ w, s.resolveAt j.parsed = .error w → p w) :
    ∀ w ∈ j.produced, p w := by
  have hattached : ∀ w ∈ j.attached, p w := by
    intro w hw
    obtain ⟨s, hs, hw⟩ := List.mem_flatMap.mp hw
    exact attached s hs w hw
  have herrors : ∀ w ∈ j.resolution.warnings, p w := by
    intro w hw
    obtain ⟨outcome, houtcome, heq⟩ := List.mem_filterMap.mp hw
    obtain ⟨s, hs, rfl⟩ := List.mem_map.mp houtcome
    cases hresolve : s.resolveAt j.parsed with
    | ok f =>
      rw [hresolve] at heq
      cases heq
    | error w' =>
      rw [hresolve] at heq
      cases heq
      exact errors s hs w hresolve
  rw [produced]
  exact List.forall_mem_append.mpr ⟨List.forall_mem_append.mpr
    ⟨List.forall_mem_append.mpr ⟨parsed, remarks⟩, hattached⟩, herrors⟩

theorem Journal.Placed.produced {j : Journal} (h : j.Placed file) : ∀ w ∈ j.produced, w.Of file :=
  Journal.forall_mem_produced h.warnings (h.remarks ▸ List.forall_mem_nil _)
    (fun s hs => (h.findings s hs).warnings) fun s hs _ => (h.findings s hs).errors

namespace Analyzer

theorem placed_journal_page {url : Path} {source : String} {mode : ResolutionMode} {j : Journal}
    (h : (withFunctions mode).journal url .html source none = .ok j) :
    j.Placed (SourceFile.ofContent url source) := by
  obtain ⟨hparsed, hresults, -⟩ := journal_eq_ok_iff.mp h
  obtain ⟨parsed, hparse, hnodes, hwarnings⟩ := Markup.parse_ranges url source
  obtain ⟨d, results⟩ := j
  have hd : d = ⟨url, .html, source, parsed.tree, none, [], parsed.warnings⟩ := by
    change Except.bind (Markup.parse url source none) _ = _ at hparsed
    rw [hparse] at hparsed
    exact (Except.ok.inj hparsed).symm
  rw [scannersOf_withFunctions] at hresults
  subst hd
  change consult ⟨url, .html, source, parsed.tree, none, [], parsed.warnings⟩
    [Script.scanner, Style.scanner] = .ok results at hresults
  cases hresults
  refine ⟨hwarnings, rfl, ?_⟩
  intro s hs
  obtain ⟨result, hresult, hs⟩ := List.mem_flatMap.mp hs
  simp only [List.mem_cons, List.not_mem_nil, or_false] at hresult
  rcases hresult with rfl | rfl
  · obtain ⟨⟨id, node⟩, he, heq⟩ := List.mem_filterMap.mp hs
    have hnode := Arena.mem_values_of_mem_entries (List.mem_filter.mp he).1
    exact Script.placed_feature? (hnodes node hnode) heq
  · obtain ⟨⟨id, node⟩, he, heq⟩ := List.mem_filterMap.mp hs
    exact Style.placed_feature? (hnodes node (Arena.mem_values_of_mem_entries he)) heq

theorem ReadAt.placed {j : Journal} (h : ReadAt file k j) : j.Placed file := by
  refine ⟨?_, h.remarks, ?_⟩
  · rw [h.warnings]
    exact List.forall_mem_nil _
  · rw [h.findings]
    split
    · intro s hs
      obtain ⟨site, hsite, rfl⟩ := List.mem_map.mp hs
      exact FunctionKeyword.Site.placed_foundAt h.stands hsite
    · exact List.forall_mem_nil _

end Analyzer

namespace Page

/-- What holds of all that is said in the journals of a page and of the scripts inside it holds
of all warnings about the page. -/
theorem forall_mem_warnings {url : Path} {source : String} {mode : ResolutionMode} {page : Page}
    (short : Text.byteLength source.toList < UInt32.size)
    (h : analyze url source mode [FunctionKeyword.scanner] = .ok page) {p : Warning → Prop}
    (outer : ∀ j, (Analyzer.withFunctions mode).journal url .html source none = .ok j →
      ∀ w ∈ j.produced, p w)
    (inner : ∀ j k, Analyzer.ReadAt (SourceFile.ofContent url source) k j → ∀ w ∈ j.produced, p w) :
    ∀ w ∈ page.warnings, p w := by
  obtain ⟨j, js, hread, hj, hreads⟩ := journals_read url source mode short
  obtain ⟨_, hjournals, hperm⟩ := warnings_perm h
  cases hread.symm.trans hjournals
  intro w hw
  have hproduced : w ∈ (j :: js).flatMap Journal.produced :=
    hperm.subset (List.mem_append_left _ hw)
  obtain ⟨j', hj', hw⟩ := List.mem_flatMap.mp hproduced
  rcases List.mem_cons.mp hj' with rfl | hj'
  · exact outer _ hj w hw
  · obtain ⟨k, hk⟩ := hreads j' hj'
    exact inner j' k hk w hw

/-- All warnings about a page are about spans of it. -/
theorem warnings_placed {url : Path} {source : String} {mode : ResolutionMode} {page : Page}
    (short : Text.byteLength source.toList < UInt32.size)
    (h : analyze url source mode [FunctionKeyword.scanner] = .ok page) :
    ∀ w ∈ page.warnings, w.Of (SourceFile.ofContent url source) :=
  forall_mem_warnings short h (fun _ hj => (Analyzer.placed_journal_page hj).produced)
    fun _ _ hk => hk.placed.produced

end Page

end PageLint
