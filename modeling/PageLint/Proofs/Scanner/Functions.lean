import PageLint.Proofs.Markup.Located
import PageLint.Proofs.Outcome
import PageLint.Proofs.Source.Place
import PageLint.Scanner.FunctionKeyword

/-!
# Where functions are found

`mem_sites_iff` describes the functions of a script by the places of their keyword.
`scan_embedded` says that the functions of an embedded script are found where they
stand in the file around it.
-/

namespace PageLint.FunctionKeyword

/-- The bytes of a function whose keyword starts `post`, from byte `k` through the
next closing brace or the end. -/
def spanAt (k : Nat) (post : List Char) : Markup.Span :=
  ⟨k, k + Text.byteLength (post.takeWhile (· ≠ '}')) + if '}' ∈ post then 1 else 0⟩

theorem ne_nil_of_isSite {before : Option Char} {cs : List Char} (h : isSite before cs) :
    cs ≠ [] := by
  rintro rfl
  have hkeyword : keyword.isPrefixOf [] = false := by decide
  rw [isSite, hkeyword] at h
  cases h

theorem mem_sitesAndStop_iff {before : Option Char} {offset : Nat} {cs : List Char} {site : Site} :
    site ∈ (sitesAndStop before offset cs).1 ↔
      ∃ pre post, cs = pre ++ post ∧ isSite (pre.getLast?.or before) post ∧
        site = ⟨nameAt post, spanAt (offset + Text.byteLength pre) post⟩ := by
  induction cs generalizing before offset with
  | nil =>
    constructor
    · intro h
      cases h
    · rintro ⟨pre, post, h, hsite, -⟩
      exact absurd (List.append_eq_nil_iff.mp h.symm).2 (ne_nil_of_isSite hsite)
  | cons c cs ih =>
    have hhere : site ∈ (if isSite before (c :: cs) then
        [⟨nameAt (c :: cs), offset, (sitesAndStop before offset (c :: cs)).2⟩] else []) ↔
        isSite before (c :: cs) ∧ site = ⟨nameAt (c :: cs), spanAt offset (c :: cs)⟩ := by
      rw [sitesAndStop_snd]
      split
      · next h => simp [h, spanAt]
      · next h => simp [h]
    change site ∈ _ ++ _ ↔ _
    rw [List.mem_append, ih]
    apply (or_congr hhere Iff.rfl).trans
    constructor
    · rintro (⟨hsite, rfl⟩ | ⟨pre, post, rfl, hsite, rfl⟩)
      · exact ⟨[], c :: cs, rfl, hsite, rfl⟩
      · refine ⟨c :: pre, post, rfl, ?_, ?_⟩
        · rw [List.getLast?_cons]
          cases hlast : pre.getLast? with
          | none => simpa [hlast] using hsite
          | some d => simpa [hlast] using hsite
        · rw [Text.byteLength_cons, Nat.add_assoc]
    · rintro ⟨pre, post, h, hsite, rfl⟩
      cases pre with
      | nil =>
        cases h
        exact Or.inl ⟨hsite, rfl⟩
      | cons d pre =>
        cases h
        refine Or.inr ⟨pre, post, rfl, ?_, ?_⟩
        · rw [List.getLast?_cons] at hsite
          cases hlast : pre.getLast? with
          | none => simpa [hlast] using hsite
          | some d => simpa [hlast] using hsite
        · rw [Text.byteLength_cons, Nat.add_assoc]

/-- The functions of a script are the keywords that stand alone in it. -/
theorem mem_sites_iff {cs : List Char} {site : Site} :
    site ∈ sites cs ↔ ∃ pre post, cs = pre ++ post ∧ isSite pre.getLast? post ∧
      site = ⟨nameAt post, spanAt (Text.byteLength pre) post⟩ := by
  simp [sites, mem_sitesAndStop_iff]

theorem isBoundary_of_mem_sites {cs : List Char} {site : Site} (h : site ∈ sites cs) :
    Text.IsBoundary cs site.span.start ∧ Text.IsBoundary cs site.span.stop := by
  obtain ⟨pre, post, rfl, -, rfl⟩ := mem_sites_iff.mp h
  refine ⟨⟨pre, post, rfl, rfl⟩, ?_⟩
  have hsplit := List.takeWhile_append_dropWhile (p := (· ≠ '}')) (l := post)
  by_cases hmem : '}' ∈ post
  · cases hdrop : post.dropWhile (· ≠ '}') with
    | nil =>
      have hall := List.dropWhile_eq_nil_iff.mp hdrop '}' hmem
      simp at hall
    | cons c rest =>
      have hc : c = '}' := by
        have hhead := List.head?_dropWhile_not (· ≠ '}') post
        rw [hdrop] at hhead
        simpa using hhead
      subst hc
      rw [hdrop] at hsplit
      refine ⟨pre ++ (post.takeWhile (· ≠ '}') ++ ['}']), rest, ?_, ?_⟩
      · rw [List.append_assoc, List.append_assoc, List.singleton_append, hsplit]
      · rw [spanAt, if_pos hmem, Text.byteLength_append, Text.byteLength_append, ← Nat.add_assoc]
        rfl
  · refine ⟨pre ++ post.takeWhile (· ≠ '}'), post.dropWhile (· ≠ '}'), ?_, ?_⟩
    · rw [List.append_assoc, hsplit]
    · rw [spanAt, if_neg hmem, Text.byteLength_append]
      rfl

/-- What is found at a function of a script that stands at byte `k` of a file. -/
def Site.foundAt (file : SourceFile) (k : Nat) (site : Site) : ScannedFeature :=
  .function ⟨site.name, none, none, [], none, none⟩
    (file.rangeOf ⟨k + site.span.start, k + site.span.stop⟩) []

/-- The bytes of an embedded text are located where they are in the file around it. -/
theorem position_embedded {file : SourceFile}
    (short : Text.byteLength file.content.toList < UInt32.size) {path : Path} {contents : String}
    {k : Nat} (stands : Text.StandsAt file.content.toList k contents.toList) {n : Nat}
    (hn : Text.IsBoundary contents.toList n) :
    (⟨SourceFile.ofContent path contents, some (file.positionAt k).toOffset⟩ :
      Markup.Locator).position n = .ok (file.positionAt (k + n)) := by
  obtain ⟨pre, post, hcontent, rfl⟩ := stands
  obtain ⟨before, after, hbefore, rfl⟩ := hn
  have hfile : file.content.toList = pre ++ before ++ (after ++ post) := by
    rw [hcontent, hbefore]
    simp only [List.append_assoc]
  change ((SourceFile.ofContent path contents).positionAt _).offsetBy _ = _
  rw [SourceFile.positionAt_of_append _ hbefore,
    file.positionAt_of_append (hfile.trans (List.append_assoc _ _ _)),
    ← Text.byteLength_append, file.positionAt_of_append hfile]
  apply Position.offsetBy_after
  rw [hfile, Text.byteLength_append] at short
  omega

theorem feature_embedded {file : SourceFile}
    (short : Text.byteLength file.content.toList < UInt32.size) {contents : String} {k : Nat}
    (stands : Text.StandsAt file.content.toList k contents.toList) {site : Site}
    (hsite : site ∈ sites contents.toList) :
    site.feature ⟨SourceFile.ofContent file.path contents, some (file.positionAt k).toOffset⟩ =
      .ok (site.foundAt file k) := by
  obtain ⟨hstart, hstop⟩ := isBoundary_of_mem_sites hsite
  rw [Site.feature, Markup.Locator.range, position_embedded short stands hstart,
    position_embedded short stands hstop]
  rfl

/-- The functions of an embedded script are found where they stand in the file. -/
theorem scan_embedded {file : SourceFile}
    (short : Text.byteLength file.content.toList < UInt32.size) {d : Document} {k : Nat}
    (hurl : d.url = file.path) (hoffset : d.offset = some (file.positionAt k).toOffset)
    (stands : Text.StandsAt file.content.toList k d.contents.toList) :
    scanner.scan d = .ok ⟨(sites d.contents.toList).map (·.foundAt file k), []⟩ := by
  have hfeatures : (sites d.contents.toList).mapM
      (Site.feature ⟨SourceFile.ofContent d.url d.contents, d.offset⟩) =
        .ok ((sites d.contents.toList).map (·.foundAt file k)) := by
    rw [hurl, hoffset]
    exact mapM_eq_ok fun site hsite => feature_embedded short stands hsite
  change Except.bind (List.mapM _ _) _ = _
  rw [hfeatures]
  rfl

end PageLint.FunctionKeyword
