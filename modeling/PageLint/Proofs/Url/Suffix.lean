import PageLint.Feature.Resolution
import PageLint.Proofs.Source.Segments
import PageLint.Proofs.Text.Search
import PageLint.Proofs.Url.Folding

/-!
# Urls with a query or a fragment

A query or a fragment is read as a part of the path that it stands behind. It is left as it is
if and only if nothing in it can be taken for a scheme or for a segment that is followed.
-/

namespace PageLint

namespace Url

/-! ## Folding a path and what is behind it -/

section

variable {absolute : Bool} {segment : String} {stack names : List String}

/-- Of what lies on a name in a stack, all are names. -/
theorem stacked_append_iff (hname : IsName segment) (h : Stacked absolute stack) :
    Stacked absolute (names ++ segment :: stack) ↔ ∀ name ∈ names, IsName name := by
  constructor
  · intro hstacked
    induction names with
    | nil => exact List.forall_mem_nil _
    | cons name names ih =>
      generalize hstack : name :: names ++ segment :: stack = whole at hstacked
      cases hstacked with
      | ups n hn =>
        have hmem : segment ∈ List.replicate n ".." := by
          rw [← hstack]
          simp
        exact absurd (List.eq_of_mem_replicate hmem) hname.2.2
      | name hfirst hrest =>
        obtain ⟨rfl, rfl⟩ := List.cons.inj hstack
        exact List.forall_mem_cons.mpr ⟨hfirst, ih hrest⟩
  · intro hnames
    induction names with
    | nil => exact .name hname h
    | cons name names ih =>
      obtain ⟨hfirst, hrest⟩ := List.forall_mem_cons.mp hnames
      exact .name hfirst (ih hrest)

theorem folded_append_iff (hname : IsName segment) (h : Folded absolute stack) :
    Folded absolute (stack ++ segment :: names) ↔ ∀ name ∈ names, IsName name := by
  have hreverse : stack ++ segment :: names = (names.reverse ++ segment :: stack.reverse).reverse := by
    simp
  rw [hreverse, folded_reverse_iff, stacked_append_iff hname]
  · simp
  · rwa [← folded_reverse_iff, List.reverse_reverse]

end

theorem foldSegments_append (absolute : Bool) (before after : List String) :
    foldSegments absolute (before ++ after) =
      foldSegments absolute (foldSegments absolute before ++ after) := by
  have hself := foldSegments_eq_self_iff.mpr (folded_foldSegments absolute before)
  rw [foldSegments, foldSegments, List.reverse_inj] at hself
  rw [foldSegments, foldSegments, foldSegments, List.foldl_append, List.foldl_append, hself]

theorem ofSegments_append (absolute : Bool) (before : List String) (last first : String)
    (after : List String) : ofSegments absolute (before ++ [last]) ++ "/".intercalate (first :: after) =
      ofSegments absolute (before ++ (last ++ first) :: after) := by
  have hjoined : "/".intercalate (before ++ [last]) ++ "/".intercalate (first :: after) =
      "/".intercalate (before ++ (last ++ first) :: after) := by
    rw [← String.toList_inj]
    simpa [String.toList_intercalate] using Text.intercalate_append_intercalate '/'
      (before.map String.toList) last.toList first.toList (after.map String.toList)
  cases absolute with
  | true =>
    change "/" ++ _ ++ _ = "/" ++ _
    rw [String.append_assoc, hjoined]
  | false => exact hjoined

theorem intercalate_segments (path : String) : "/".intercalate (Path.mk path).segments = path := by
  rw [← String.toList_inj, String.toList_intercalate, ← (Path.mk path).splitOn_text]
  exact List.intercalate_splitOn '/'

/-- Of what is behind the last name of a path, nothing is followed if and only if there are
only names. -/
theorem normalize_append_iff {path suffix : String} {before after : List String}
    {last first : String} (hpath : (Path.mk path).segments = before ++ [last])
    (hsuffix : (Path.mk suffix).segments = first :: after) (hlast : IsName last)
    (hname : IsName (last ++ first)) :
    normalize (path ++ suffix) = normalize path ++ suffix ↔ ∀ segment ∈ after, IsName segment := by
  have hne : path ≠ "" := by
    rintro rfl
    have hsegments : [""] = before ++ [last] := hpath
    have hend := congrArg List.getLast? hsegments
    rw [List.getLast?_concat] at hend
    exact hlast.1 (Option.some.inj hend).symm
  have hwhole := Path.segments_append hpath hsuffix
  rw [normalize_eq, normalize_eq path, Path.isAbsolute_append hne, hwhole, hpath]
  generalize (Path.mk path).isAbsolute = absolute
  -- what is left of the path is what is left before its last name, and that name
  let start := foldSegments absolute before
  have hstart : Folded absolute start := folded_foldSegments absolute before
  have hfolded : foldSegments absolute (before ++ [last]) = start ++ [last] := by
    rw [foldSegments_append, foldSegments_eq_self_iff]
    exact (folded_append_iff hlast hstart).mpr (List.forall_mem_nil _)
  have hclean : Clean (start ++ (last ++ first) :: after) := by
    constructor
    · intro segment hsegment
      have hmem : segment ∈ (Path.mk (path ++ suffix)).segments := by
        rw [hwhole]
        exact (List.mem_append.mp hsegment).elim
          (fun h => List.mem_append_left _ (foldSegments_subset absolute before h))
          (List.mem_append_right _)
      exact slash_not_mem_segment hmem
    · intro hhead
      cases hnames : start with
      | nil =>
        rw [hnames] at hhead
        exact hname.1 (Option.some.inj hhead)
      | cons segment segments =>
        rw [hnames] at hhead hstart
        exact hstart.head hhead
  rw [hfolded, ← intercalate_segments suffix, hsuffix, ofSegments_append, foldSegments_append,
    ofSegments_inj _ hclean, foldSegments_eq_self_iff, folded_append_iff hname hstart]
  exact clean_foldSegments absolute hclean.slash

/-! ## Urls -/

/-- A relative path without query and fragment that does not end in a slash or in dots that
can be followed. -/
structure IsRelative (path : String) : Prop where
  bare : ∀ c ∈ path.toList, c ≠ '?' ∧ c ≠ '#' ∧ c ≠ ':'
  relative : path.toList.head? ≠ some '/'
  last : ∃ segment, (Path.mk path).segments.getLast? = some segment ∧ IsName segment

/-- A query or a fragment. -/
def IsSuffix (suffix : String) : Prop :=
  suffix.toList.head? = some '?' ∨ suffix.toList.head? = some '#'

instance (suffix : String) : Decidable (IsSuffix suffix) := inferInstanceAs (Decidable (_ ∨ _))

/-- Nothing in a suffix is taken for a segment that is followed or for a scheme; where there
is what looks like a scheme, it does not matter since the path is left as it is anyway. -/
def KeepsSuffix (document : Path) (path suffix : String) : Prop :=
  if Text.occursIn [':', '/', '/'] suffix.toList then resolve document path = path
  else ∀ segment ∈ (Path.mk suffix).segments.tail, IsName segment

instance (document : Path) (path suffix : String) : Decidable (KeepsSuffix document path suffix) :=
  inferInstanceAs (Decidable (if Text.occursIn [':', '/', '/'] suffix.toList then
    resolve document path = path else ∀ segment ∈ (Path.mk suffix).segments.tail, IsName segment))

theorem isName_of_mem {segment : String} {c : Char} (h : c ∈ segment.toList) (hc : c ≠ '.') :
    IsName segment := by
  refine ⟨?_, ?_, ?_⟩
  · rintro rfl
    cases h
  · rintro rfl
    exact hc (List.mem_singleton.mp h)
  · rintro rfl
    simp [hc] at h

/-- The directory of a document comes before a path with all its segments. -/
theorem exists_segments_directory (document : Path) :
    ∃ above, ∀ path, (Path.mk (directory document ++ path)).segments =
      above ++ (Path.mk path).segments := by
  rw [directory]
  rcases Text.throughLast_cases '/' (document.text.toList.map fun c => if c = '\\' then '/' else c)
    with h | ⟨before, h⟩
  · refine ⟨[], fun path => ?_⟩
    rw [h]
    simp
  · refine ⟨(before.splitOn '/').map String.ofList, fun path => ?_⟩
    rw [h, Path.segments, Path.segments, ← List.map_append]
    simp [List.splitOn_append_cons_self]

section

variable {path suffix : String} (hpath : IsRelative path)

include hpath

theorem IsRelative.ne_empty : path ≠ "" := by
  rintro rfl
  obtain ⟨segment, hlast, hname⟩ := hpath.last
  exact hname.1 (Option.some.inj hlast).symm

theorem IsRelative.colon_not_mem : ':' ∉ path.toList := fun h => (hpath.bare ':' h).2.2 rfl

theorem IsRelative.exists_cons : ∃ c cs, path.toList = c :: cs ∧ c ≠ '/' ∧ c ≠ '#' := by
  obtain ⟨c, cs, hcons⟩ :=
    List.exists_cons_of_ne_nil (mt String.toList_eq_nil_iff.mp hpath.ne_empty)
  refine ⟨c, cs, hcons, ?_, (hpath.bare c (hcons ▸ List.mem_cons_self)).2.1⟩
  rintro rfl
  exact hpath.relative (by rw [hcons]; rfl)

/-- No suffix makes a relative path one with its data in it. -/
theorem IsRelative.not_data (hmark : ∀ c ∈ suffix.toList.head?, c = '?' ∨ c = '#') :
    ¬ "data:".toList <+: path.toList ++ suffix.toList := by
  intro hdata
  -- the path would have a colon in it, or else the suffix start with a letter or a colon
  rcases List.prefix_or_prefix_of_prefix hdata (List.prefix_append _ _) with h | h
  · exact hpath.colon_not_mem (h.subset (by decide))
  · obtain ⟨rest, hrest⟩ := h
    rw [← hrest, List.prefix_append_right_inj] at hdata
    cases rest with
    | nil =>
      apply hpath.colon_not_mem
      rw [← List.append_nil path.toList, hrest]
      decide
    | cons c rest =>
      have hc : c ∈ "data:".toList := by
        rw [← hrest]
        simp
      obtain ⟨more, hmore⟩ := hdata
      rcases hmark c (by rw [← hmore]; rfl) with rfl | rfl
      · exact absurd hc (by decide)
      · exact absurd hc (by decide)

/-- A relative path is resolved with what is behind it, unless there is what looks like a
scheme. -/
theorem IsRelative.resolve_append (hmark : ∀ c ∈ suffix.toList.head?, c = '?' ∨ c = '#')
    (document : Path) : resolve document (path ++ suffix) =
      if Text.occursIn [':', '/', '/'] suffix.toList then path ++ suffix
      else normalize (directory document ++ path ++ suffix) := by
  obtain ⟨c, cs, hcons, hslash, hhash⟩ := hpath.exists_cons
  have hscheme : Text.occursIn [':', '/', '/'] (path.toList ++ suffix.toList) =
      Text.occursIn [':', '/', '/'] suffix.toList :=
    Text.occursIn_append hpath.colon_not_mem _
  have hdata : "data:".toList.isPrefixOf (path.toList ++ suffix.toList) = false := by
    rw [Bool.eq_false_iff, Ne, List.isPrefixOf_iff_prefix]
    exact hpath.not_data hmark
  have hhead : (path.toList ++ suffix.toList).head? = some c := by
    rw [hcons]
    rfl
  rw [resolve, isAbsolute, String.toList_append, hscheme, hdata, hhead, String.append_assoc]
  simp [hslash, hhash]

theorem IsRelative.resolve_eq (document : Path) :
    resolve document path = normalize (directory document ++ path) := by
  have hempty : ∀ c ∈ "".toList.head?, c = '?' ∨ c = '#' := nofun
  have h := hpath.resolve_append hempty document
  rw [String.append_empty, if_neg (by decide), String.append_empty] at h
  exact h

/-- What is behind a path is left as it is if and only if nothing in it is taken for
something else. -/
theorem IsRelative.resolve_append_eq_iff (hsuffix : IsSuffix suffix) (document : Path) :
    resolve document (path ++ suffix) = resolve document path ++ suffix ↔
      KeepsSuffix document path suffix := by
  have hmark : ∀ c ∈ suffix.toList.head?, c = '?' ∨ c = '#' := by
    rintro c hc
    rcases hsuffix with h | h
    · exact Or.inl (Option.some.inj (hc.symm.trans h))
    · exact Or.inr (Option.some.inj (hc.symm.trans h))
  rw [hpath.resolve_append hmark, KeepsSuffix]
  split
  · rw [String.append_left_inj, eq_comm]
  · obtain ⟨above, habove⟩ := exists_segments_directory document
    obtain ⟨last, hlast, hname⟩ := hpath.last
    obtain ⟨before, hbefore⟩ := List.getLast?_eq_some_iff.mp hlast
    obtain ⟨first, after, hsegments⟩ :=
      List.exists_cons_of_ne_nil (Path.segments_ne_nil ⟨suffix⟩)
    have hwhole : (Path.mk (directory document ++ path)).segments = (above ++ before) ++ [last] := by
      rw [habove, hbefore, List.append_assoc]
    rw [hpath.resolve_eq, normalize_append_iff hwhole hsegments hname, hsegments, List.tail_cons]
    have hmem {c : Char} (hc : suffix.toList.head? = some c) (hslash : c ≠ '/') :
        c ∈ (last ++ first).toList := by
      rw [String.toList_append]
      exact List.mem_append_right _ (Path.mem_of_segments_eq_cons hc hslash hsegments)
    rcases hsuffix with h | h
    · exact isName_of_mem (hmem h (by decide)) (by decide)
    · exact isName_of_mem (hmem h (by decide)) (by decide)

end

end Url

namespace ImportRef

theorem exists_resolve {ref : ImportRef} (h : ¬ Text.isBlank ref.url) (document : Path)
    (range : SourceRange) (warnings : List Warning) :
    ∃ f, ref.resolve document range warnings = .ok f ∧
      f.reference? = some (ref, Url.resolve document ref.url) :=
  ⟨_, if_neg h, rfl⟩

theorem not_isBlank_append {path : String} (h : ¬ Text.isBlank path) (suffix : String) :
    ¬ Text.isBlank (path ++ suffix) := by
  intro hblank
  rw [Text.isBlank, String.toList_append, List.all_append, Bool.and_eq_true] at hblank
  exact h hblank.1

/-- With a query or a fragment behind its path, a reference refers to what it refers to without,
with the same behind it, if and only if nothing there is taken for something else. -/
theorem suffix_kept_iff (ref : ImportRef) (suffix : String) (nonblank : ¬ Text.isBlank ref.url)
    (relative : Url.IsRelative ref.url) (hsuffix : Url.IsSuffix suffix) (document : Path)
    (range : SourceRange) (warnings : List Warning) :
    let long : ImportRef := { ref with url := ref.url ++ suffix }
    ∃ f f' resolved resolved', ref.resolve document range warnings = .ok f ∧
      f.reference? = some (ref, resolved) ∧ long.resolve document range warnings = .ok f' ∧
      f'.reference? = some (long, resolved') ∧
      (resolved' = resolved ++ suffix ↔ Url.KeepsSuffix document ref.url suffix) := by
  obtain ⟨f, hf, hreference⟩ := exists_resolve nonblank document range warnings
  let long : ImportRef := { ref with url := ref.url ++ suffix }
  have nonblank' : ¬ Text.isBlank long.url := not_isBlank_append nonblank suffix
  obtain ⟨f', hf', hreference'⟩ := exists_resolve nonblank' document range warnings
  exact ⟨f, f', _, _, hf, hreference, hf', hreference',
    relative.resolve_append_eq_iff hsuffix document⟩

/-- A script of a page. -/
def script (url : String) : ImportRef := ⟨"html-script", url, none, false, none⟩

/-- A scheme in a query keeps the path from being resolved, and dots in a fragment take it
back. -/
theorem suffix_lost :
    (["a.js", "a.js?u=http://b", "a.js#b/../c"].map fun url =>
      (((script url).resolve ⟨"src/index.html"⟩ default []).toOption.bind (·.reference?)).map
        (·.2)) = [some "src/a.js", some "a.js?u=http://b", some "src/c"] := by
  decide +kernel

theorem suffix_kept_iff_query :
    ¬ Text.isBlank "../x/./a.js" ∧ Url.IsRelative "../x/./a.js" ∧ Url.IsSuffix "?b=..c#d/e.f" ∧
      ∃ f f' resolved resolved',
        (script "../x/./a.js").resolve ⟨"src/index.html"⟩ default [] = .ok f ∧
        f.reference? = some (script "../x/./a.js", resolved) ∧
        (script "../x/./a.js?b=..c#d/e.f").resolve ⟨"src/index.html"⟩ default [] = .ok f' ∧
        f'.reference? = some (script "../x/./a.js?b=..c#d/e.f", resolved') ∧
        resolved' = resolved ++ "?b=..c#d/e.f" := by
  have nonblank : ¬ Text.isBlank "../x/./a.js" := by decide +kernel
  have relative : Url.IsRelative "../x/./a.js" :=
    ⟨by simp, by decide +kernel, "a.js", by decide +kernel, by decide +kernel⟩
  have hsuffix : Url.IsSuffix "?b=..c#d/e.f" := by decide +kernel
  obtain ⟨f, f', resolved, resolved', hf, hreference, hf', hreference', hkept⟩ :=
    suffix_kept_iff (script "../x/./a.js") "?b=..c#d/e.f" nonblank relative hsuffix
      ⟨"src/index.html"⟩ default []
  refine ⟨nonblank, relative, hsuffix, f, f', resolved, resolved', hf, hreference, hf', hreference',
    hkept.mpr ?_⟩
  decide +kernel

end ImportRef

end PageLint
