import PageLint.Feature.Resolution
import PageLint.Proofs.Outcome

/-!
# What becomes of findings

A finding is void if it lacks what a feature needs; any other finding becomes a
feature with the warnings of the finding. Resolving all findings of a document fails
only on those of other files.
-/

namespace PageLint

namespace ScannedFeature

/-- Whether a finding lacks what a feature needs. -/
def IsVoid : ScannedFeature → Prop
  | .function decl _ _ => Text.isBlank decl.name
  | .reference ref _ _ => Text.isBlank ref.url
  | .extension tags _ _ => tags.kinds = []
  | .inlineDocument .. | .backreference _ => False

instance (s : ScannedFeature) : Decidable s.IsVoid := by
  cases s <;> unfold IsVoid <;> infer_instance

/-- The inline document that was found. -/
def inlineDocument? : ScannedFeature → Option InlineDocument
  | .inlineDocument document _ _ => some document
  | _ => none

/-- The document that the finding names as the one around. -/
def container? : ScannedFeature → Option DocumentId
  | .backreference container => some container
  | _ => none

theorem resolveAt_of_isVoid {s : ScannedFeature} (h : s.IsVoid) (d : Document) :
    ∃ w, s.resolveAt d = .error w := by
  cases s with
  | function decl range warnings => exact ⟨_, if_pos h⟩
  | reference ref range warnings => exact ⟨_, if_pos h⟩
  | extension tags range warnings => exact ⟨_, dif_pos h⟩
  | inlineDocument document range warnings => exact h.elim
  | backreference container => exact h.elim

theorem resolveAt_of_not_isVoid {s : ScannedFeature} (h : ¬ s.IsVoid) (d : Document) :
    ∃ f : Feature, s.resolveAt d = .ok f ∧ f.warnings = s.warnings ∧ f.range = s.range? ∧
      f.inlineDocument? = s.inlineDocument? ∧ f.container? = s.container? := by
  cases s with
  | function decl range warnings => exact ⟨_, if_neg h, rfl, rfl, rfl, rfl⟩
  | reference ref range warnings => exact ⟨_, if_neg h, rfl, rfl, rfl, rfl⟩
  | extension tags range warnings => exact ⟨_, dif_neg h, rfl, rfl, rfl, rfl⟩
  | inlineDocument document range warnings => exact ⟨_, rfl, rfl, rfl, rfl, rfl⟩
  | backreference container => exact ⟨_, rfl, rfl, rfl, rfl, rfl⟩

/-- A feature is about what was found, and where it was found. -/
theorem of_resolveAt {s : ScannedFeature} {d : Document} {f : Feature}
    (h : s.resolveAt d = .ok f) : f.range = s.range? ∧
      f.inlineDocument? = s.inlineDocument? ∧ f.container? = s.container? := by
  by_cases hvoid : s.IsVoid
  · obtain ⟨w, hw⟩ := resolveAt_of_isVoid hvoid d
    rw [hw] at h
    cases h
  · obtain ⟨f', hf', -, hfound⟩ := resolveAt_of_not_isVoid hvoid d
    rw [hf'] at h
    cases h
    exact hfound

end ScannedFeature

theorem Resolution.ofOutcomes_append (as bs : List Resolved) :
    Resolution.ofOutcomes (as ++ bs) =
      ⟨(Resolution.ofOutcomes as).features ++ (Resolution.ofOutcomes bs).features,
        (Resolution.ofOutcomes as).warnings ++ (Resolution.ofOutcomes bs).warnings⟩ := by
  simp [Resolution.ofOutcomes]

theorem resolveAll_eq (mode : ResolutionMode) (d : Document) (found : List ScannedFeature) :
    resolveAll mode d found =
      if ∀ s ∈ found, s.isFoundIn d then .ok (Resolution.ofOutcomes (found.map (·.resolveAt d)))
      else .error .foreignRange := by
  have houtcomes : (mode.map (·.resolve d) found).mapM id = found.mapM (·.resolve d) := by
    rw [ResolutionMode.map_eq, List.mapM_map]
    rfl
  rw [resolveAll, houtcomes]
  split
  · next h =>
    have hall : ∀ s ∈ found, s.resolve d = .ok (s.resolveAt d) := fun s hs => if_pos (h s hs)
    rw [mapM_eq_ok hall]
    rfl
  · next h =>
    have heach : ∀ s ∈ found, (∃ r, s.resolve d = .ok r) ∨ s.resolve d = .error .foreignRange := by
      intro s _
      by_cases hs : s.isFoundIn d
      · exact Or.inl ⟨_, if_pos hs⟩
      · exact Or.inr (if_neg hs)
    obtain ⟨s, hs, hforeign⟩ : ∃ s ∈ found, ¬ s.isFoundIn d := by
      simpa using h
    rw [mapM_eq_error heach ⟨s, hs, if_neg hforeign⟩]
    rfl

end PageLint
