import PageLint.Proofs.Text.Pieces
import PageLint.Url

/-!
# Paths without dots

Following the dots of a path leaves some steps up and then names, and no steps up in a path
from the root. A path and what is left of it lead to the same directory, and of two paths of
this form no one is a shorter way of writing the other.
-/

namespace PageLint.Url

/-- The segment is the name of something in a directory. -/
def IsName (segment : String) : Prop := segment ≠ "" ∧ segment ≠ "." ∧ segment ≠ ".."

instance (segment : String) : Decidable (IsName segment) :=
  inferInstanceAs (Decidable (_ ∧ _ ∧ _))

theorem segment_cases (segment : String) :
    (segment = "" ∨ segment = ".") ∨ segment = ".." ∨ IsName segment := by
  by_cases hempty : segment = ""
  · exact Or.inl (Or.inl hempty)
  · by_cases hdot : segment = "."
    · exact Or.inl (Or.inr hdot)
    · by_cases hup : segment = ".."
      · exact Or.inr (Or.inl hup)
      · exact Or.inr (Or.inr ⟨hempty, hdot, hup⟩)

/-! ## Walking -/

/-- The directory behind one segment of a way. A directory is given by the names above it,
its own first; above the root is the root. -/
def walkSegment (directory : List String) (segment : String) : List String :=
  if segment = "" || segment = "." then directory
  else if segment = ".." then directory.tail
  else segment :: directory

def walk (directory : List String) (segments : List String) : List String :=
  segments.foldl walkSegment directory

/-- Where a path leads, from the root if it is absolute and else from `directory`. -/
def destination (directory : List String) (path : Path) : List String :=
  walk (if path.isAbsolute then [] else directory) path.segments

theorem walkSegment_of_idle {segment : String} (h : segment = "" ∨ segment = ".")
    (directory : List String) : walkSegment directory segment = directory :=
  if_pos (by simpa using h)

theorem walkSegment_up (directory : List String) : walkSegment directory ".." = directory.tail := rfl

theorem walkSegment_of_isName {segment : String} (h : IsName segment) (directory : List String) :
    walkSegment directory segment = segment :: directory := by
  obtain ⟨hempty, hdot, hup⟩ := h
  simp [walkSegment, hempty, hdot, hup]

theorem walk_concat (directory segments : List String) (segment : String) :
    walk directory (segments ++ [segment]) = walkSegment (walk directory segments) segment :=
  List.foldl_append

/-! ## The stack of segments -/

/-- A stack of segments with its names above the steps up, of which there are none below
the root. -/
inductive Stacked (absolute : Bool) : List String → Prop
  | ups (n : Nat) (h : absolute = true → n = 0) : Stacked absolute (List.replicate n "..")
  | name {segment : String} {stack : List String} (hname : IsName segment)
      (h : Stacked absolute stack) : Stacked absolute (segment :: stack)

section

variable {absolute : Bool} {segment : String} {stack : List String}

theorem pushSegment_of_idle (h : segment = "" ∨ segment = ".") :
    pushSegment absolute stack segment = stack :=
  if_pos (by simpa using h)

theorem pushSegment_of_isName (h : IsName segment) :
    pushSegment absolute stack segment = segment :: stack := by
  obtain ⟨hempty, hdot, hup⟩ := h
  simp [pushSegment, hempty, hdot, hup]

/-- A step up takes back a name. -/
theorem pushSegment_up_name (h : IsName segment) :
    pushSegment absolute (segment :: stack) ".." = stack := by
  simp [pushSegment, h.2.2]

/-- Behind other steps up a step up stays, but not below the root. -/
theorem pushSegment_up_ups (n : Nat) :
    pushSegment absolute (List.replicate n "..") ".." =
      List.replicate (if absolute then n else n + 1) ".." := by
  cases n <;> cases absolute <;> rfl

theorem Stacked.push (h : Stacked absolute stack) (segment : String) :
    Stacked absolute (pushSegment absolute stack segment) := by
  rcases segment_cases segment with hidle | rfl | hname
  · rwa [pushSegment_of_idle hidle]
  · cases h with
    | ups n hn =>
      rw [pushSegment_up_ups]
      cases absolute with
      | true => exact .ups n hn
      | false => exact .ups (n + 1) nofun
    | name hname h => rwa [pushSegment_up_name hname]
  · rw [pushSegment_of_isName hname]
    exact .name hname h

theorem Stacked.foldl_push (h : Stacked absolute stack) (segments : List String) :
    Stacked absolute (segments.foldl (pushSegment absolute) stack) := by
  induction segments generalizing stack with
  | nil => exact h
  | cons segment segments ih => exact ih (h.push segment)

/-- The way through a stack and on to a segment is the way through the new stack. -/
theorem Stacked.walk_push (h : Stacked absolute stack) {directory : List String}
    (root : absolute = true → directory = []) (segment : String) :
    walk directory (pushSegment absolute stack segment).reverse =
      walkSegment (walk directory stack.reverse) segment := by
  rcases segment_cases segment with hidle | rfl | hname
  · rw [pushSegment_of_idle hidle, walkSegment_of_idle hidle]
  · cases h with
    | ups n hn =>
      rw [pushSegment_up_ups, List.reverse_replicate, List.reverse_replicate]
      cases absolute with
      | true =>
        -- the way is still at the root, and above it is the root
        rw [hn rfl, root rfl]
        rfl
      | false =>
        rw [← walk_concat, ← List.replicate_succ']
        rfl
    | name hname h =>
      rw [pushSegment_up_name hname, List.reverse_cons, walk_concat, walkSegment_of_isName hname,
        walkSegment_up, List.tail_cons]
  · rw [pushSegment_of_isName hname, List.reverse_cons, walk_concat]

theorem Stacked.walk_foldl_push (h : Stacked absolute stack) {directory : List String}
    (root : absolute = true → directory = []) (segments : List String) :
    walk directory (segments.foldl (pushSegment absolute) stack).reverse =
      walk (walk directory stack.reverse) segments := by
  induction segments generalizing stack with
  | nil => rfl
  | cons segment segments ih =>
    rw [List.foldl_cons, ih (h.push segment), h.walk_push root]
    rfl

/-- A stack is what is left of its own segments. -/
theorem Stacked.foldSegments_reverse (h : Stacked absolute stack) :
    foldSegments absolute stack.reverse = stack.reverse := by
  rw [foldSegments, List.reverse_inj]
  induction h with
  | ups n hn =>
    rw [List.reverse_replicate]
    cases absolute with
    | true =>
      rw [hn rfl]
      rfl
    | false =>
      induction n with
      | zero => rfl
      | succ n ih =>
        rw [List.replicate_succ', List.foldl_append, ih nofun, ← List.replicate_succ']
        exact pushSegment_up_ups n
  | name hname h ih =>
    rw [List.reverse_cons, List.foldl_append, ih]
    exact pushSegment_of_isName hname

end

/-! ## What is left of a path -/

/-- Some steps up, none of them from the root, and then names. -/
def Folded (absolute : Bool) (segments : List String) : Prop :=
  ∃ n names, segments = List.replicate n ".." ++ names ∧ (∀ name ∈ names, IsName name) ∧
    (absolute = true → n = 0)

theorem folded_reverse_iff {absolute : Bool} {stack : List String} :
    Folded absolute stack.reverse ↔ Stacked absolute stack := by
  constructor
  · rintro ⟨n, names, hstack, hnames, hn⟩
    have hreverse : stack = names.reverse ++ List.replicate n ".." := by
      rw [← List.reverse_reverse stack, hstack, List.reverse_append, List.reverse_replicate]
    have hreversed : ∀ name ∈ names.reverse, IsName name :=
      fun name h => hnames name (List.mem_reverse.mp h)
    rw [hreverse]
    generalize names.reverse = names at hreversed
    induction names with
    | nil => exact .ups n hn
    | cons name names ih =>
      obtain ⟨hname, hrest⟩ := List.forall_mem_cons.mp hreversed
      exact .name hname (ih hrest)
  · intro h
    induction h with
    | ups n hn => exact ⟨n, [], by simp, List.forall_mem_nil _, hn⟩
    | @name segment stack hname h ih =>
      obtain ⟨n, names, hstack, hnames, hn⟩ := ih
      refine ⟨n, names ++ [segment], ?_, ?_, hn⟩
      · rw [List.reverse_cons, hstack, List.append_assoc]
      · exact List.forall_mem_append.mpr ⟨hnames, List.forall_mem_singleton.mpr hname⟩

theorem folded_foldSegments (absolute : Bool) (segments : List String) :
    Folded absolute (foldSegments absolute segments) :=
  folded_reverse_iff.mpr ((Stacked.ups 0 fun _ => rfl).foldl_push segments)

/-- What is left of segments is left as it is, and nothing else is. -/
theorem foldSegments_eq_self_iff {absolute : Bool} {segments : List String} :
    foldSegments absolute segments = segments ↔ Folded absolute segments := by
  constructor
  · intro h
    rw [← h]
    exact folded_foldSegments absolute segments
  · intro h
    rw [← List.reverse_reverse segments] at h ⊢
    exact (folded_reverse_iff.mp h).foldSegments_reverse

theorem walk_foldSegments {absolute : Bool} {directory : List String}
    (root : absolute = true → directory = []) (segments : List String) :
    walk directory (foldSegments absolute segments) = walk directory segments :=
  (Stacked.ups 0 fun _ => rfl).walk_foldl_push root segments

theorem pushSegment_subset (absolute : Bool) (stack : List String) (segment : String) :
    pushSegment absolute stack segment ⊆ stack ++ [segment] := by
  cases stack <;> grind [pushSegment]

theorem foldl_push_subset (absolute : Bool) (stack segments : List String) :
    segments.foldl (pushSegment absolute) stack ⊆ stack ++ segments := by
  induction segments generalizing stack with
  | nil =>
    rw [List.append_nil]
    exact List.Subset.refl _
  | cons segment segments ih =>
    have hpush := pushSegment_subset absolute stack segment
    rw [← List.singleton_append, ← List.append_assoc]
    exact List.Subset.trans (ih _) (List.append_subset.mpr
      ⟨List.Subset.trans hpush (List.subset_append_left _ _), List.subset_append_right _ _⟩)

theorem foldSegments_subset (absolute : Bool) (segments : List String) :
    foldSegments absolute segments ⊆ segments :=
  fun _ h => foldl_push_subset absolute [] segments (List.mem_reverse.mp h)

/-! ## Paths as texts -/

/-- The segments behind the slash of an absolute path or, in a relative path, all of them. The
root and the empty path have none. -/
def steps (path : Path) : List String :=
  let inner := if path.isAbsolute then path.segments.tail else path.segments
  if inner = [""] then [] else inner

/-- The path of some segments. -/
def ofSegments (absolute : Bool) (segments : List String) : String :=
  let joined := "/".intercalate segments
  if absolute then "/" ++ joined else joined

/-- The segments can be told apart in a path. -/
structure Clean (segments : List String) : Prop where
  slash : ∀ segment ∈ segments, '/' ∉ segment.toList
  head : segments.head? ≠ some ""

theorem normalize_eq (path : String) : normalize path =
    ofSegments (Path.mk path).isAbsolute
      (foldSegments (Path.mk path).isAbsolute (Path.mk path).segments) := by
  simp [normalize, ofSegments, Path.isAbsolute]

theorem slash_not_mem_segment {path : Path} {segment : String} (h : segment ∈ path.segments) :
    '/' ∉ segment.toList := by
  obtain ⟨piece, hpiece, rfl⟩ := List.mem_map.mp h
  rw [String.toList_ofList]
  exact Text.not_mem_of_mem_splitOn hpiece

theorem Folded.head {absolute : Bool} {segments : List String} (h : Folded absolute segments) :
    segments.head? ≠ some "" := by
  obtain ⟨n, names, rfl, hnames, -⟩ := h
  cases n with
  | succ n => simp [List.replicate_succ]
  | zero =>
    intro hhead
    exact (hnames "" (List.mem_of_mem_head? hhead)).1 rfl

theorem clean_foldSegments (absolute : Bool) {segments : List String}
    (h : ∀ segment ∈ segments, '/' ∉ segment.toList) : Clean (foldSegments absolute segments) where
  slash segment hsegment := h segment (foldSegments_subset _ _ hsegment)
  head := (folded_foldSegments absolute segments).head

section

variable {segments : List String} (clean : Clean segments)

include clean

theorem segments_ofSegments (absolute : Bool) :
    (Path.mk (ofSegments absolute segments)).segments =
      (if absolute then [""] else []) ++ (if segments = [] then [""] else segments) := by
  have hjoined : (("/".intercalate segments).toList.splitOn '/').map String.ofList =
      if segments = [] then [""] else segments := by
    rw [String.toList_intercalate]
    split
    · next h =>
      rw [h]
      rfl
    · next h =>
      have hpieces : ∀ piece ∈ segments.map String.toList, '/' ∉ piece := by
        intro piece hpiece
        obtain ⟨segment, hsegment, rfl⟩ := List.mem_map.mp hpiece
        exact clean.slash segment hsegment
      rw [show "/".toList = ['/'] from rfl, List.splitOn_intercalate '/' hpieces (by simpa using h),
        List.map_map, String.ofList_comp_toList, List.map_id]
  cases absolute with
  | false => exact hjoined
  | true =>
    change ((("/" ++ "/".intercalate segments).toList.splitOn '/').map String.ofList) = _
    rw [String.toList_append]
    change (('/' :: ("/".intercalate segments).toList).splitOn '/').map String.ofList = _
    rw [List.splitOn_cons_eq_if_modifyHead, if_pos (beq_self_eq_true _), List.map_cons, hjoined]
    rfl

theorem isAbsolute_ofSegments (absolute : Bool) :
    (Path.mk (ofSegments absolute segments)).isAbsolute = absolute := by
  cases absolute with
  | true => simp [Path.isAbsolute, ofSegments]
  | false =>
    apply decide_eq_false
    intro h
    cases segments with
    | nil => simp [ofSegments] at h
    | cons segment segments =>
      have hslash := clean.slash segment List.mem_cons_self
      have hne : segment.toList ≠ [] := by
        simpa using clean.head
      obtain ⟨c, cs, hsegment⟩ := List.exists_cons_of_ne_nil hne
      cases segments <;> simp_all [ofSegments, String.toList_intercalate]

theorem steps_ofSegments (absolute : Bool) :
    steps ⟨ofSegments absolute segments⟩ = segments := by
  have hne : segments ≠ [""] := by
    rintro rfl
    exact clean.head rfl
  rw [steps, isAbsolute_ofSegments clean, segments_ofSegments clean]
  cases absolute with
  | true => by_cases h : segments = [] <;> simp [h, hne]
  | false => by_cases h : segments = [] <;> simp [h, hne]

/-- A path has its segments, and before them only empty ones. -/
theorem exists_segments_ofSegments (absolute : Bool) :
    ∃ n, (Path.mk (ofSegments absolute segments)).segments = List.replicate n "" ++ segments := by
  rw [segments_ofSegments clean]
  cases absolute with
  | true =>
    by_cases h : segments = []
    · exact ⟨2, by simp [h]⟩
    · exact ⟨1, by simp [h]⟩
  | false =>
    by_cases h : segments = []
    · exact ⟨1, by simp [h]⟩
    · exact ⟨0, by simp [h]⟩

/-- What passes over empty segments reads of a path nothing but its segments. -/
theorem foldl_ofSegments {f : List String → String → List String}
    (pass : ∀ stack, f stack "" = stack) (absolute : Bool) (stack : List String) :
    (Path.mk (ofSegments absolute segments)).segments.foldl f stack = segments.foldl f stack := by
  obtain ⟨n, hn⟩ := exists_segments_ofSegments clean absolute
  rw [hn]
  clear hn
  induction n with
  | zero => rfl
  | succ n ih =>
    rw [List.replicate_succ, List.cons_append, List.foldl_cons, pass]
    exact ih

theorem walk_ofSegments (absolute : Bool) (directory : List String) :
    walk directory (Path.mk (ofSegments absolute segments)).segments = walk directory segments :=
  foldl_ofSegments clean (fun _ => rfl) absolute directory

theorem foldSegments_ofSegments (absolute : Bool) :
    foldSegments absolute (Path.mk (ofSegments absolute segments)).segments =
      foldSegments absolute segments :=
  congrArg List.reverse (foldl_ofSegments clean (fun _ => rfl) absolute [])

end

theorem ofSegments_inj {absolute : Bool} {segments segments' : List String}
    (clean : Clean segments) (clean' : Clean segments') :
    ofSegments absolute segments = ofSegments absolute segments' ↔ segments = segments' := by
  constructor
  · intro h
    rw [← steps_ofSegments clean absolute, h, steps_ofSegments clean']
  · exact congrArg _

/-- Following the dots of a path gives a path from the same start, of steps up and then names,
in which no more dots can be followed and which leads to the same directory. -/
theorem folded_normalize (path : String) :
    (Path.mk (normalize path)).isAbsolute = (Path.mk path).isAbsolute ∧
      Folded (Path.mk path).isAbsolute (steps ⟨normalize path⟩) ∧
      normalize (normalize path) = normalize path ∧
      ∀ directory, destination directory ⟨normalize path⟩ = destination directory ⟨path⟩ := by
  have clean : Clean (foldSegments (Path.mk path).isAbsolute (Path.mk path).segments) :=
    clean_foldSegments _ fun _ => slash_not_mem_segment
  have hfolded := folded_foldSegments (Path.mk path).isAbsolute (Path.mk path).segments
  rw [normalize_eq path]
  refine ⟨isAbsolute_ofSegments clean _, ?_, ?_, ?_⟩
  · rwa [steps_ofSegments clean]
  · rw [normalize_eq, isAbsolute_ofSegments clean, foldSegments_ofSegments clean,
      foldSegments_eq_self_iff.mpr hfolded]
  · intro directory
    rw [destination, isAbsolute_ofSegments clean, walk_ofSegments clean, walk_foldSegments]
    · rfl
    · exact fun h => if_pos h

example : normalize "../a/./b//../c/" = "../a/c" := by decide +kernel

end PageLint.Url
