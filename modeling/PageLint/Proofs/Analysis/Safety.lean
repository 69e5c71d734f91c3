import PageLint.Proofs.Analysis.Reading
import PageLint.Proofs.Source.Lines

/-!
# Reading a page is safe

A page that is not too long is always analyzed: no coordinate leaves its range, no finding is
one of another file, and no document is missing when others are put into it. All places at
which a document is cut or looked up are there.
-/

namespace PageLint

open FunctionKeyword (sites)

/-- All places of the document that its readers look at are there. -/
structure Document.Sound (url : Path) (d : Document) : Prop where
  url_eq : d.url = url
  kinds : ∀ f ∈ d.features, f.kinds ≠ []
  ranges : ∀ f ∈ d.features, ∀ range, f.range = some range → range.file = url
  /-- The places of the document have positions in the file, wherever in it the document is. -/
  positions {n : Nat} (h : Text.IsBoundary d.contents.toList n) :
    ∃ p, (⟨SourceFile.ofContent url d.contents, d.offset⟩ : Markup.Locator).position n = .ok p
  /-- Every byte is looked up in a line that exists, from a boundary on. -/
  lines (n : Nat) : let file := SourceFile.ofContent url d.contents
    0 < border (·.start ≤ n) file.lines ∧
      ∃ line, file.lines[border (·.start ≤ n) file.lines - 1]? = some line ∧ line.start ≤ n ∧
        Text.IsBoundary d.contents.toList line.start
  tokens : ∀ t ∈ (Markup.lex d.contents).tokens, t.span.In d.contents.toList ∧
    ∀ raw ∈ t.attributes, raw.In d.contents.toList
  problems : ∀ p ∈ (Markup.lex d.contents).problems, p.span.In d.contents.toList
  functions : ∀ site ∈ sites d.contents.toList, site.span.In d.contents.toList

theorem Journal.Placed.ranges {file : SourceFile} {j : Journal} (h : j.Placed file)
    (container : Option DocumentId) :
    ∀ f ∈ (j.document container).features, ∀ range, f.range = some range →
      range.file = file.path := by
  intro f hf range hrange
  rcases List.mem_append.mp hf with hf | hf
  · obtain ⟨c, -, rfl⟩ := Option.map_eq_some_iff.mp (Option.mem_toList.mp hf)
    cases hrange
  · obtain ⟨s, hs, hfound, -⟩ := Journal.exists_finding hf
    obtain ⟨span, -, rfl⟩ := (h.findings s hs).range (hfound.symm.trans hrange)
    rfl

/-- A document is sound if all that is said of it is said of one file, and if it has its
positions there. -/
theorem Journal.Placed.sound {file : SourceFile} {j : Journal} (h : j.Placed file)
    (url : j.parsed.url = file.path)
    (positions : ∀ n, Text.IsBoundary j.parsed.contents.toList n →
      ∃ p, (⟨SourceFile.ofContent file.path j.parsed.contents, j.parsed.offset⟩ :
        Markup.Locator).position n = .ok p) (container : Option DocumentId) :
    (j.document container).Sound file.path where
  url_eq := url
  kinds f _ := f.kinds_ne_nil
  ranges := h.ranges container
  positions hn := positions _ hn
  lines := SourceFile.exists_line _
  tokens t ht := ⟨(Markup.covers_lex _ t ht).span_in, Markup.attributes_in_lex _ t ht⟩
  problems := Markup.problems_in_lex _
  functions _ hsite := FunctionKeyword.span_in hsite

theorem Analyzer.ReadAt.sound {file : SourceFile} {k : Nat} {j : Journal}
    (h : Analyzer.ReadAt file k j) (short : Text.byteLength file.content.toList < UInt32.size)
    (container : Option DocumentId) : (j.document container).Sound file.path := by
  apply h.placed.sound h.url
  intro n hn
  rw [h.offset]
  exact ⟨_, FunctionKeyword.position_embedded short h.stands hn⟩

theorem Analyzer.contents_of_journal {a : Analyzer} {url : Path} {language : Language}
    {contents : String} {offset : Option Offset} {j : Journal}
    (h : a.journal url language contents offset = .ok j) : j.parsed.contents = contents := by
  obtain ⟨tree, warnings, hparsed⟩ := exists_of_parse (journal_eq_ok_iff.mp h).1
  rw [hparsed]

theorem Analyzer.sound_journal_page {url : Path} {source : String} {mode : ResolutionMode}
    {j : Journal} (h : (withFunctions mode).journal url .html source none = .ok j)
    (container : Option DocumentId) : (j.document container).Sound url := by
  obtain ⟨hurl, hoffset⟩ := parsed_of_journal h
  apply (placed_journal_page h).sound hurl
  intro n _
  rw [hoffset]
  exact ⟨_, rfl⟩

namespace Page

/-- A page that is not too long is analyzed, whatever is written in it. It is the first of its
documents, and all of them are sound. -/
theorem analyze_safe (url : Path) (source : String) (mode : ResolutionMode)
    (short : Text.byteLength source.toList < UInt32.size) :
    ∃ page, analyze url source mode [FunctionKeyword.scanner] = .ok page ∧
      (∃ id d, page.table.entries.head? = some (id, d) ∧ d.contents = source) ∧
      ∀ id d, (id, d) ∈ page.table.entries → d.Sound url := by
  obtain ⟨page, j, js, hpage, hj, hreads, made⟩ := analyze_read url source mode short
  refine ⟨page, hpage, ?_, ?_⟩
  · obtain ⟨d, ds, ⟨container, rfl, -⟩, -, hds⟩ := List.forall₂_cons_right_iff.mp made
    obtain ⟨⟨id, d⟩, entries, hentries, hd, -⟩ := List.map_eq_cons_iff.mp hds
    refine ⟨id, d, ?_, ?_⟩
    · rw [hentries]
      rfl
    · rw [show d = j.document container from hd]
      exact Analyzer.contents_of_journal hj
  · intro id d hd
    obtain ⟨j', hj', container, rfl, -⟩ :=
      Analyzer.exists_journal_of_mem made (List.mem_map_of_mem (f := (·.2)) hd)
    rcases List.mem_cons.mp hj' with rfl | hj'
    · exact Analyzer.sound_journal_page hj container
    · obtain ⟨k, hk⟩ := hreads j' hj'
      exact hk.sound short container

/-- A page whose last script and comment are never closed. -/
def unclosedPage : String := "<b é=<script>é</b\r\n><script>function é( \x7b\n<!-- é"

theorem offsets_unclosedPage :
    (analyze ⟨"a.html"⟩ unclosedPage .sequential [FunctionKeyword.scanner]).map
      (·.table.entries.map (·.2.offset)) = .ok [none, some ⟨1, 9⟩] := by
  decide +kernel

theorem analyze_safe_unclosedPage :
    ∃ page, analyze ⟨"a.html"⟩ unclosedPage .sequential [FunctionKeyword.scanner] = .ok page ∧
      page.table.entries.map (·.2.offset) = [none, some ⟨1, 9⟩] ∧
      (∃ id d, page.table.entries.head? = some (id, d) ∧ d.contents = unclosedPage) ∧
      ∀ id d, (id, d) ∈ page.table.entries → d.Sound ⟨"a.html"⟩ := by
  obtain ⟨page, hpage, hfirst, hsound⟩ := analyze_safe ⟨"a.html"⟩ unclosedPage .sequential
    (by decide +kernel)
  obtain ⟨page', hpage', hoffsets⟩ := map_eq_ok_iff.mp offsets_unclosedPage
  obtain rfl : page = page' := Except.ok.inj (hpage.symm.trans hpage')
  exact ⟨page, hpage, hoffsets, hfirst, hsound⟩

end Page

end PageLint
