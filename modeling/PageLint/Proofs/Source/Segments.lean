import PageLint.Proofs.Text.Pieces
import PageLint.Source.Path

/-!
# The segments of a path

A path is cut at its slashes. A name that is put behind a path is one more segment and one more
component, whatever the spelling of the path.
-/

namespace PageLint.Path

theorem splitOn_text (p : Path) : p.text.toList.splitOn '/' = p.segments.map String.toList := by
  simp [segments, Function.comp_def]

theorem segments_ne_nil (p : Path) : p.segments ≠ [] :=
  mt List.map_eq_nil_iff.mp (List.splitOn_ne_nil _ _)

/-- A path that does not start with a slash starts with its first segment. -/
theorem mem_of_segments_eq_cons {p : Path} {c : Char} (hc : p.text.toList.head? = some c)
    (hslash : c ≠ '/') {first : String} {after : List String} (h : p.segments = first :: after) :
    c ∈ first.toList := by
  obtain ⟨cs, hcs⟩ := List.head?_eq_some_iff.mp hc
  have hsplit := p.splitOn_text
  rw [hcs, List.splitOn_cons_eq_if_modifyHead, if_neg (by simpa using hslash), h,
    List.map_cons] at hsplit
  cases hpieces : cs.splitOn '/' with
  | nil => exact absurd hpieces (List.splitOn_ne_nil _ _)
  | cons piece pieces =>
    rw [hpieces, List.modifyHead_cons] at hsplit
    rw [← (List.cons.inj hsplit).1]
    exact List.mem_cons_self

theorem segments_append {p q : String} {before after : List String} {last first : String}
    (hp : (mk p).segments = before ++ [last]) (hq : (mk q).segments = first :: after) :
    (mk (p ++ q)).segments = before ++ (last ++ first) :: after := by
  have hp' := (mk p).splitOn_text
  have hq' := (mk q).splitOn_text
  rw [hp, List.map_append, List.map_singleton] at hp'
  rw [hq, List.map_cons] at hq'
  rw [segments, String.toList_append, Text.splitOn_append hp' hq']
  simp [Function.comp_def]

theorem isAbsolute_append {p : String} (h : p ≠ "") (q : String) :
    (mk (p ++ q)).isAbsolute = (mk p).isAbsolute := by
  obtain ⟨c, cs, hp⟩ := List.exists_cons_of_ne_nil (mt String.toList_eq_nil_iff.mp h)
  simp [isAbsolute, hp]

/-! ## Joining a name -/

/-- The name of an entry of a directory: one segment that stands for itself. -/
structure IsName (name : String) : Prop where
  ne_empty : name ≠ ""
  ne_here : name ≠ "."
  ne_up : name ≠ ".."
  slash_not_mem : '/' ∉ name.toList

instance (name : String) : Decidable (IsName name) :=
  decidable_of_iff (name ≠ "" ∧ name ≠ "." ∧ name ≠ ".." ∧ '/' ∉ name.toList)
    ⟨fun ⟨hempty, hhere, hup, hslash⟩ => ⟨hempty, hhere, hup, hslash⟩,
      fun h => ⟨h.ne_empty, h.ne_here, h.ne_up, h.slash_not_mem⟩⟩

variable {name : String}

theorem IsName.segments (h : IsName name) : (⟨name⟩ : Path).segments = [name] := by
  rw [Path.segments, Text.splitOn_of_not_mem h.slash_not_mem, List.map_singleton,
    String.ofList_toList]

theorem IsName.ofSegment? (h : IsName name) : Component.ofSegment? name = some (.name name) := by
  simp [Component.ofSegment?, h.ne_empty, h.ne_here, h.ne_up]

theorem segments_append_slash (p q : String) :
    (⟨p ++ "/" ++ q⟩ : Path).segments = (⟨p⟩ : Path).segments ++ (⟨q⟩ : Path).segments := by
  have htext : (p ++ "/" ++ q).toList = p.toList ++ '/' :: q.toList := by simp
  rw [segments, htext, Text.splitOn_append_cons, List.map_append]
  rfl

/-- The name is the last segment of the joined path; an empty segment behind a last slash of the
directory is gone. -/
theorem segments_join (h : IsName name) {dir : Path} (hdir : dir.text ≠ "") :
    ∃ before, before ≠ [] ∧ (dir.join name).segments = before ++ [name] ∧
      (dir.segments = before ∨ dir.segments = before ++ [""]) := by
  by_cases hend : dir.text.toList.getLast? = some '/'
  · obtain ⟨cs, hcs⟩ := List.getLast?_eq_some_iff.mp hend
    have htext : dir.text = String.ofList cs ++ "/" := by
      rw [← String.toList_inj, hcs]
      simp
    have hjoin : dir.join name = ⟨dir.text ++ name⟩ := by simp [join, hend]
    refine ⟨(⟨String.ofList cs⟩ : Path).segments, segments_ne_nil _, ?_, Or.inr ?_⟩
    · rw [hjoin, htext, segments_append_slash, h.segments]
    · have hslash := segments_append_slash (String.ofList cs) ""
      rwa [String.append_empty, ← htext] at hslash
  · have hjoin : dir.join name = ⟨dir.text ++ "/" ++ name⟩ := by simp [join, hdir, hend]
    refine ⟨dir.segments, segments_ne_nil _, ?_, Or.inl rfl⟩
    rw [hjoin, segments_append_slash, h.segments]

theorem isAbsolute_join {dir : Path} (hdir : dir.text ≠ "") (name : String) :
    (dir.join name).isAbsolute = dir.isAbsolute := by
  unfold join
  split
  · exact isAbsolute_append hdir name
  · rw [String.append_assoc]
    exact isAbsolute_append hdir ("/" ++ name)

/-- The components of a path behind its start. -/
def steps (p : Path) : List Component := p.segments.filterMap Component.ofSegment?

theorem components_eq (p : Path) : p.components =
    (if p.isAbsolute then [.root] else if p.segments.head? = some "." then [.here] else []) ++
      p.steps := rfl

/-- The segment that stands for a component behind the start of a path. -/
def Component.segment : Component → String
  | .root => ""
  | .here => "."
  | .up => ".."
  | .name name => name

theorem Component.segment_of_ofSegment? {segment : String} {component : Component}
    (h : ofSegment? segment = some component) :
    component.segment = segment ∧ component ≠ .root ∧ component ≠ .here := by
  unfold ofSegment? at h
  split at h
  · cases h
  · split at h
    · next hup =>
      cases h
      exact ⟨hup.symm, nofun, nofun⟩
    · cases h
      exact ⟨rfl, nofun, nofun⟩

theorem not_start_of_mem_steps {p : Path} {component : Component} (h : component ∈ p.steps) :
    component ≠ .root ∧ component ≠ .here := by
  obtain ⟨segment, -, hsegment⟩ := List.mem_filterMap.mp h
  exact (Component.segment_of_ofSegment? hsegment).2

/-- Spellings of one path start at the same place and take the same steps. -/
theorem Same.steps_eq {p q : Path} (h : p.Same q) :
    p.isAbsolute = q.isAbsolute ∧ p.steps = q.steps := by
  have habsolute (p : Path) : p.isAbsolute ↔ .root ∈ p.components := by
    have hsteps : .root ∉ p.steps := fun h => (not_start_of_mem_steps h).1 rfl
    rw [components_eq]
    split_ifs <;> simp_all
  have hsteps (p : Path) : p.components.filter (fun c => c ≠ .root && c ≠ .here) = p.steps := by
    have hall : p.steps.filter (fun c => c ≠ .root && c ≠ .here) = p.steps :=
      List.filter_eq_self.mpr fun c hc => by simpa using not_start_of_mem_steps hc
    rw [components_eq, List.filter_append, hall]
    split_ifs <;> rfl
  constructor
  · rw [Bool.eq_iff_iff, habsolute, habsolute, h]
  · rw [← hsteps, ← hsteps, h]

theorem components_join (h : IsName name) (dir : Path) :
    (dir.join name).components = dir.components ++ [.name name] := by
  by_cases hdir : dir.text = ""
  · obtain rfl : dir = ⟨""⟩ := congrArg Path.mk hdir
    have hjoin : (⟨""⟩ : Path).join name = ⟨name⟩ := congrArg Path.mk String.empty_append
    have hnone : (⟨""⟩ : Path).components = [] := by decide
    have hroot : ¬ (⟨name⟩ : Path).isAbsolute := by
      intro habsolute
      exact h.slash_not_mem (List.mem_of_head? (of_decide_eq_true habsolute))
    simp [hjoin, hnone, components_eq, steps, hroot, h.segments, h.ne_here, h.ofSegment?]
  · obtain ⟨before, hne, hjoin, hsegments⟩ := segments_join h hdir
    have hhead : (dir.join name).segments.head? = dir.segments.head? := by
      obtain ⟨first, rest, rfl⟩ := List.exists_cons_of_ne_nil hne
      rcases hsegments with hsegments | hsegments <;> rw [hjoin, hsegments] <;> rfl
    have hsteps : (dir.join name).steps = dir.steps ++ [.name name] := by
      have hempty : Component.ofSegment? "" = none := rfl
      rcases hsegments with hsegments | hsegments <;>
        simp [steps, hjoin, hsegments, hempty, h.ofSegment?]
    rw [components_eq, components_eq dir, isAbsolute_join hdir, hhead, hsteps, List.append_assoc]

/-! ## Extensions -/

theorem fileName?_join (h : IsName name) (dir : Path) : (dir.join name).fileName? = some name := by
  rw [fileName?, components_join h, List.getLast?_concat]

/-- The name has the extension: it is what stands behind the last dot, and something stands before
that dot. -/
def EndsIn (name extension : String) : Prop :=
  '.' ∉ extension.toList ∧ ∃ stem, stem ≠ "" ∧ name = stem ++ "." ++ extension

theorem extension?_of_dot {stem extension : String} (h : IsName (stem ++ "." ++ extension))
    (hextension : '.' ∉ extension.toList) (dir : Path) :
    (dir.join (stem ++ "." ++ extension)).extension? =
      if stem = "" then none else some extension := by
  have htext : (stem ++ "." ++ extension).toList = stem.toList ++ '.' :: extension.toList := by
    simp
  have hstem : stem.toList.splitOn '.' = [[]] ↔ stem = "" := by
    constructor
    · intro hsplit
      have hjoined : ['.'].intercalate (stem.toList.splitOn '.') = stem.toList :=
        List.intercalate_splitOn '.'
      rw [hsplit] at hjoined
      exact String.toList_eq_nil_iff.mp hjoined.symm
    · rintro rfl
      rfl
  have hpos : 0 < (stem.toList.splitOn '.').length :=
    List.length_pos_iff.mpr (List.splitOn_ne_nil _ _)
  rw [extension?, fileName?_join h, Option.bind_some, htext, Text.splitOn_append_cons,
    Text.splitOn_of_not_mem hextension]
  by_cases hempty : stem = ""
  · simp [hempty]
  · simp [hstem, hempty, Nat.succ_le_iff.mpr hpos]

theorem extension?_of_not_mem (h : IsName name) (hdot : '.' ∉ name.toList) (dir : Path) :
    (dir.join name).extension? = none := by
  rw [extension?, fileName?_join h, Option.bind_some, Text.splitOn_of_not_mem hdot]
  rfl

theorem extension?_join (h : IsName name) (dir : Path) (extension : String) :
    (dir.join name).extension? = some extension ↔ EndsIn name extension := by
  constructor
  · intro hsome
    by_cases hdot : '.' ∈ name.toList
    · obtain ⟨after, before, hname, hafter⟩ :=
        List.eq_append_cons_of_mem (List.mem_reverse.mpr hdot)
      have hname' : name = String.ofList before.reverse ++ "." ++ String.ofList after.reverse := by
        rw [← String.toList_inj, ← List.reverse_reverse name.toList, hname]
        simp
      have hafter' : '.' ∉ (String.ofList after.reverse).toList := by simpa using hafter
      rw [hname'] at h hsome
      rw [extension?_of_dot h hafter'] at hsome
      split at hsome
      · cases hsome
      · next hstem =>
        cases hsome
        exact ⟨hafter', _, hstem, hname'⟩
    · rw [extension?_of_not_mem h hdot] at hsome
      cases hsome
  · rintro ⟨hextension, stem, hstem, rfl⟩
    rw [extension?_of_dot h hextension, if_neg hstem]

end PageLint.Path
