import PageLint.Proofs.Feature.Resolution

/-!
# One outcome for each finding

Resolving findings deals them out: in their order, each one gives either the next error or the
next feature, and which of the two it gives is said by the finding alone.
-/

namespace PageLint

namespace ScannedFeature

/-- What an error about a finding points at. -/
def blamed? : ScannedFeature → Option SourceRange
  | .reference ref range _ => some (ref.urlRange.getD range)
  | .function _ range _ => some range
  | .inlineDocument _ range _ => some range
  | .backreference _ => none
  | .extension _ range _ => range

/-- The names under which the feature of a finding is found. -/
def names : ScannedFeature → List String
  | .function decl _ _ => [decl.name]
  | .extension tags _ _ => tags.identifiers
  | .reference .. | .inlineDocument .. | .backreference _ => []

theorem isFoundIn_iff {s : ScannedFeature} {d : Document} :
    s.isFoundIn d = true ↔ ∀ range, s.range? = some range → range.file.Same d.url := by
  rw [isFoundIn, Option.all_eq_true]
  simp only [decide_eq_true_eq]

variable (s : ScannedFeature) (d : Document)

/-- The error is what becomes of a void finding. -/
structure GivesError (w : Warning) : Prop where
  isVoid : s.IsVoid
  outcome : s.resolveAt d = .error w
  severity : w.severity = .error
  range : w.range = s.blamed?

/-- The feature is what becomes of a finding that is not void. -/
structure GivesFeature (f : Feature) : Prop where
  not_isVoid : ¬ s.IsVoid
  outcome : s.resolveAt d = .ok f
  kinds : f.kinds ≠ []
  range : f.range = s.range?
  warnings : f.warnings = s.warnings
  identifiers : f.identifiers = s.names

variable {s}

theorem exists_givesError (h : s.IsVoid) : ∃ w, s.GivesError d w := by
  cases s with
  | function decl range warnings => exact ⟨_, h, if_pos h, rfl, rfl⟩
  | reference ref range warnings => exact ⟨_, h, if_pos h, rfl, rfl⟩
  | extension tags range warnings => exact ⟨_, h, dif_pos h, rfl, rfl⟩
  | inlineDocument document range warnings => exact h.elim
  | backreference container => exact h.elim

theorem exists_givesFeature (h : ¬ s.IsVoid) : ∃ f, s.GivesFeature d f := by
  obtain ⟨f, hf, hwarnings, hrange, -⟩ := resolveAt_of_not_isVoid h d
  refine ⟨f, h, hf, f.kinds_ne_nil, hrange, hwarnings, ?_⟩
  cases s with
  | function decl range warnings =>
    rw [← Except.ok.inj ((if_neg h).symm.trans hf)]
    rfl
  | reference ref range warnings =>
    rw [← Except.ok.inj ((if_neg h).symm.trans hf)]
    rfl
  | extension tags range warnings =>
    rw [← Except.ok.inj ((dif_neg h).symm.trans hf)]
    rfl
  | inlineDocument document range warnings =>
    rw [← Except.ok.inj hf]
    rfl
  | backreference container =>
    rw [← Except.ok.inj hf]
    rfl

end ScannedFeature

/-- Each finding in turn gives the next feature or the next error, and none is left over. -/
inductive DealtOut (d : Document) : List ScannedFeature → List Feature → List Warning → Prop
  | nil : DealtOut d [] [] []
  | error {s found features w warnings} (first : s.GivesError d w)
      (rest : DealtOut d found features warnings) :
      DealtOut d (s :: found) features (w :: warnings)
  | feature {s found f features warnings} (first : s.GivesFeature d f)
      (rest : DealtOut d found features warnings) :
      DealtOut d (s :: found) (f :: features) warnings

theorem dealtOut_ofOutcomes (d : Document) (found : List ScannedFeature) :
    DealtOut d found (Resolution.ofOutcomes (found.map (·.resolveAt d))).features
      (Resolution.ofOutcomes (found.map (·.resolveAt d))).warnings := by
  induction found with
  | nil => exact .nil
  | cons s found ih =>
    rw [List.map_cons]
    by_cases h : s.IsVoid
    · obtain ⟨w, hw⟩ := ScannedFeature.exists_givesError d h
      rw [hw.outcome]
      exact .error hw ih
    · obtain ⟨f, hf⟩ := ScannedFeature.exists_givesFeature d h
      rw [hf.outcome]
      exact .feature hf ih

/-- Findings of a document are dealt out into features and errors. -/
theorem dealtOut_resolveAll (mode : ResolutionMode) (d : Document) (found : List ScannedFeature)
    (inFile : ∀ s ∈ found, ∀ range, s.range? = some range → range.file.Same d.url) :
    ∃ r, resolveAll mode d found = .ok r ∧ DealtOut d found r.features r.warnings := by
  have hfound : ∀ s ∈ found, s.isFoundIn d :=
    fun s hs => ScannedFeature.isFoundIn_iff.mpr (inFile s hs)
  exact ⟨_, (resolveAll_eq mode d found).trans (if_pos hfound), dealtOut_ofOutcomes d found⟩

/-- Findings of all kinds in a page, some of them void. -/
def mixedFindings : List ScannedFeature :=
  let range : SourceRange := ⟨⟨"a/b.html"⟩, ⟨0, 0⟩, ⟨0, 4⟩⟩
  let written : SourceRange := ⟨⟨"a/b.html"⟩, ⟨0, 1⟩, ⟨0, 2⟩⟩
  let note : Warning := .info "note" "seen" range
  [.function ⟨"\u00a0", none, none, [], none, none⟩ range [note],
    .inlineDocument ⟨.css, "p \x7b\x7d", ⟨0, 0⟩, false, none⟩ range [note],
    .reference ⟨"html-script", " ", some written, false, none⟩ range [],
    .backreference ⟨0⟩,
    .extension ⟨[], ["x"], []⟩ none [note],
    .function ⟨"f", none, none, [], none, none⟩ range [note, note]]

/-- The page that the findings were made in, under another spelling of its path. -/
def mixedDocument : Document := .bare ⟨"a//b.html"⟩ .html "" Markup.Tree.empty none

theorem outcome_mixedFindings :
    (resolveAll .parallel mixedDocument mixedFindings).toOption.map
      (fun r => (r.warnings.map (·.range), r.features.map (·.identifiers))) =
        some ([some ⟨⟨"a/b.html"⟩, ⟨0, 0⟩, ⟨0, 4⟩⟩, some ⟨⟨"a/b.html"⟩, ⟨0, 1⟩, ⟨0, 2⟩⟩, none],
          [[], [], ["f"]]) := by
  decide +kernel

theorem dealtOut_resolveAll_mixedFindings :
    (∀ s ∈ mixedFindings, ∀ range, s.range? = some range → range.file.Same mixedDocument.url) ∧
      ∃ r, resolveAll .parallel mixedDocument mixedFindings = .ok r ∧
        DealtOut mixedDocument mixedFindings r.features r.warnings ∧
        r.warnings.map (·.range) = [some ⟨⟨"a/b.html"⟩, ⟨0, 0⟩, ⟨0, 4⟩⟩,
          some ⟨⟨"a/b.html"⟩, ⟨0, 1⟩, ⟨0, 2⟩⟩, none] ∧
        r.features.map (·.identifiers) = [[], [], ["f"]] := by
  have hfound : ∀ s ∈ mixedFindings, s.isFoundIn mixedDocument = true := by decide +kernel
  have inFile : ∀ s ∈ mixedFindings, ∀ range, s.range? = some range →
      range.file.Same mixedDocument.url :=
    fun s hs => ScannedFeature.isFoundIn_iff.mp (hfound s hs)
  obtain ⟨r, hr, hdealt⟩ := dealtOut_resolveAll .parallel mixedDocument mixedFindings inFile
  have houtcome := outcome_mixedFindings
  rw [hr] at houtcome
  obtain ⟨hwarnings, hfeatures⟩ := Prod.mk.inj (Option.some.inj houtcome)
  exact ⟨inFile, r, hr, hdealt, hwarnings, hfeatures⟩

end PageLint
