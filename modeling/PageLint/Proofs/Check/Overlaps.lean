import PageLint.Proofs.Check.Alone
import PageLint.Proofs.Check.Verdict

/-!
# Files with several paths

A check lists each path once, up to spelling. One file may still have several paths: one from a
directory that is named and one that is named itself, or one that goes up and down again. It is
listed once if and only if paths that overlap are written alike.
-/

namespace PageLint

theorem Path.same_descend_iff {names : List String} (h : ∀ name ∈ names, IsName name)
    (p q : Path) : (p.descend names).Same (q.descend names) ↔ p.Same q := by
  rw [Same, components_descend h, components_descend h]
  exact List.append_left_inj _

namespace Disk

open Check (blankSourceDisk)

/-- The two paths lead to one file. -/
def SameFile (disk : Disk) (p q : Path) : Prop :=
  disk.isFile p ∧ disk.isFile q ∧ disk.place p = disk.place q

instance (disk : Disk) (p q : Path) : Decidable (disk.SameFile p q) :=
  inferInstanceAs (Decidable (_ ∧ _ ∧ _))

variable {disk : Disk} {settings : AnalysisSettings} {paths documents : List Path}
  {p q : Path} {names : List String}

theorem SameFile.symm (h : disk.SameFile p q) : disk.SameFile q p := ⟨h.2.1, h.1, h.2.2.symm⟩

instance : Std.Symm fun p q => ¬ disk.SameFile p q :=
  ⟨fun _ _ hnot hsame => hnot hsame.symm⟩

theorem isFile_iff : disk.isFile p ↔ ∃ trail bytes, disk.follow p = .ok trail ∧
    disk.current trail = .file bytes := by
  unfold isFile find
  cases disk.follow p with
  | error e => simp [Except.map]
  | ok trail => cases hcurrent : disk.current trail <;> simp [Except.map, hcurrent]

theorem place_eq_of_same (h : p.Same q) (hp : disk.isFile p) (hq : disk.isFile q) :
    disk.place p = disk.place q := by
  obtain ⟨trail, -, htrail, -⟩ := isFile_iff.mp hp
  obtain ⟨other, -, hother, -⟩ := isFile_iff.mp hq
  rw [place, place, htrail, hother, follow_unique h htrail hother]

/-- Two paths lead to one file if they are followed to one place: the names from the root down
tell which file it is. -/
theorem sameFile_iff (wf : disk.root.WellFormed) : disk.SameFile p q ↔
    ∃ trail bytes, disk.follow p = .ok trail ∧ disk.follow q = .ok trail ∧
      disk.current trail = .file bytes := by
  constructor
  · rintro ⟨hp, hq, hplace⟩
    obtain ⟨trail, bytes, htrail, hcurrent⟩ := isFile_iff.mp hp
    obtain ⟨other, -, hother, -⟩ := isFile_iff.mp hq
    simp only [place, htrail, hother] at hplace
    have hnames : trail.names = other.names := Except.ok.inj hplace
    obtain rfl := (isTrail_of_follow htrail).eq_of_names wf (isTrail_of_follow hother) hnames
    exact ⟨trail, bytes, htrail, hother, hcurrent⟩
  · rintro ⟨trail, bytes, htrail, hother, hcurrent⟩
    exact ⟨isFile_iff.mpr ⟨trail, bytes, htrail, hcurrent⟩,
      isFile_iff.mpr ⟨trail, bytes, hother, hcurrent⟩, by rw [place, place, htrail, hother]⟩

theorem Finds.leads (h : disk.Finds settings p names) :
    ∃ trail bytes, disk.follow p = .ok trail ∧ (disk.current trail).Leads names (.file bytes) := by
  cases h with
  | @file bytes found =>
    obtain ⟨trail, htrail, hcurrent⟩ := map_eq_ok_iff.mp found
    exact ⟨trail, bytes, htrail, hcurrent ▸ .here (.file bytes)⟩
  | inside found leads visible selected =>
    obtain ⟨trail, htrail, hcurrent⟩ := map_eq_ok_iff.mp found
    exact ⟨trail, _, htrail, hcurrent ▸ leads⟩

theorem Finds.isName (wf : disk.root.WellFormed) (h : disk.Finds settings p names) :
    ∀ name ∈ names, Path.IsName name := by
  obtain ⟨trail, bytes, htrail, leads⟩ := h.leads
  exact leads.isName ((isTrail_of_follow htrail).leads.wellFormed wf)

/-- What a path stands for are files below the place that it leads to. -/
theorem Finds.place (wf : disk.root.WellFormed) (h : disk.Finds settings p names) :
    ∃ above, disk.place p = .ok above ∧ disk.isFile (p.descend names) ∧
      disk.place (p.descend names) = .ok (above ++ names) := by
  obtain ⟨trail, bytes, htrail, leads⟩ := h.leads
  obtain ⟨next, hnext, hcurrent, hnames⟩ := follow_descend wf htrail leads
  refine ⟨trail.names, ?_, ?_, ?_⟩
  · rw [Disk.place, htrail]
    rfl
  · exact isFile_iff.mpr ⟨next, bytes, hnext, hcurrent⟩
  · rw [Disk.place, hnext, ← hnames]
    rfl

/-- Paths that stand for one file are written alike: if one leads to a place above that of the
other, or to the same place, the other is spelled like it with the names in between behind it. -/
def Agree (disk : Disk) (settings : AnalysisSettings) (paths : List Path) : Prop :=
  ∀ p ∈ paths, ∀ q ∈ paths, ∀ above between below, disk.place p = .ok above →
    disk.place q = .ok (above ++ between) → disk.Finds settings p (between ++ below) →
      disk.Finds settings q below → (p.descend between).Same q

theorem agree_siteDisk : siteDisk.Agree .default [⟨"."⟩, ⟨"./pages"⟩] := by
  have hsite : siteDisk.place ⟨"."⟩ = .ok ["site"] := rfl
  have hpages : siteDisk.place ⟨"./pages"⟩ = .ok ["site", "pages"] := rfl
  intro p hp q hq above between below hplace hplace' _ _
  simp only [List.mem_cons, List.not_mem_nil, or_false] at hp hq
  rcases hp with rfl | rfl <;> rcases hq with rfl | rfl <;>
    simp only [hsite, hpages, Except.ok.injEq] at hplace hplace' <;> subst hplace
  · obtain rfl : between = [] := by simpa using hplace'
    rfl
  · obtain rfl : ["pages"] = between := by simpa using hplace'
    decide
  · simp at hplace'
  · obtain rfl : between = [] := by simpa using hplace'
    rfl

theorem isFile_of_mem (wf : disk.root.WellFormed)
    (h : disk.discover settings paths = .ok documents) {document : Path}
    (hmem : document ∈ documents) : disk.isFile document := by
  obtain ⟨-, sound, -⟩ := discover_eq_ok wf h
  obtain ⟨p, -, names, finds, rfl⟩ := sound document hmem
  obtain ⟨-, -, hfile, -⟩ := finds.place wf
  exact hfile

theorem exists_given (wf : disk.root.WellFormed)
    (h : disk.discover settings paths = .ok documents) {document : Path}
    (hmem : document ∈ documents) :
    ∃ p ∈ paths, ∃ names above, disk.Finds settings p names ∧ document = p.descend names ∧
      disk.place p = .ok above ∧ disk.place document = .ok (above ++ names) := by
  obtain ⟨-, sound, -⟩ := discover_eq_ok wf h
  obtain ⟨p, hp, names, finds, rfl⟩ := sound document hmem
  obtain ⟨above, habove, -, hplace⟩ := finds.place wf
  exact ⟨p, hp, names, above, finds, rfl, habove, hplace⟩

theorem exists_document (wf : disk.root.WellFormed)
    (h : disk.discover settings paths = .ok documents) (hp : p ∈ paths)
    (finds : disk.Finds settings p names) {above : List String}
    (habove : disk.place p = .ok above) :
    ∃ document ∈ documents, document.Same (p.descend names) ∧
      disk.place document = .ok (above ++ names) := by
  obtain ⟨-, -, complete⟩ := discover_eq_ok wf h
  obtain ⟨document, hmem, hsame⟩ := complete p hp names finds
  obtain ⟨above', habove', hfile, hplace⟩ := finds.place wf
  obtain rfl := Except.ok.inj (habove.symm.trans habove')
  refine ⟨document, hmem, hsame, ?_⟩
  rw [place_eq_of_same hsame (isFile_of_mem wf h hmem) hfile, hplace]

theorem agree_of_pairwise (wf : disk.root.WellFormed)
    (h : disk.discover settings paths = .ok documents)
    (once : documents.Pairwise fun p q => ¬ disk.SameFile p q) : disk.Agree settings paths := by
  intro p hp q hq above between below hplace hplace' finds finds'
  obtain ⟨d, hd, hsame, hat⟩ := exists_document wf h hp finds hplace
  obtain ⟨d', hd', hsame', hat'⟩ := exists_document wf h hq finds' hplace'
  have hsameFile : disk.SameFile d d' := by
    refine ⟨isFile_of_mem wf h hd, isFile_of_mem wf h hd', ?_⟩
    rw [hat, hat', List.append_assoc]
  -- both stand for the one document of the file
  have heq : d = d' := by
    by_contra hne
    exact once.forall hd hd' hne hsameFile
  rw [← Path.same_descend_iff (finds'.isName wf), ← Path.descend_append]
  exact hsame.symm.trans (heq ▸ hsame')

theorem pairwise_of_agree (wf : disk.root.WellFormed)
    (h : disk.discover settings paths = .ok documents) (agree : disk.Agree settings paths) :
    documents.Pairwise fun p q => ¬ disk.SameFile p q := by
  refine (Check.distinct_of_discover h).imp_of_mem ?_
  intro d d' hd hd' hne hsameFile
  obtain ⟨p, hp, names, above, finds, rfl, habove, hplace⟩ := exists_given wf h hd
  obtain ⟨q, hq, names', above', finds', rfl, habove', hplace'⟩ := exists_given wf h hd'
  have hplaces := hsameFile.2.2
  rw [hplace, hplace', Except.ok.injEq] at hplaces
  -- one of the two paths leads to a place above that of the other
  rcases List.append_eq_append_iff.mp hplaces with ⟨between, rfl, rfl⟩ | ⟨between, rfl, rfl⟩
  · have hsame := agree p hp q hq above between names' habove habove' finds finds'
    rw [Path.descend_append] at hne
    exact hne ((Path.same_descend_iff (finds'.isName wf) _ _).mpr hsame)
  · have hsame := agree q hq p hp above' between names habove' habove finds' finds
    rw [Path.descend_append] at hne
    exact hne ((Path.same_descend_iff (finds.isName wf) _ _).mpr hsame).symm

/-- If all paths that are named lead somewhere, documents are found, and no file is among them
twice if and only if the paths that stand for one file are written alike. The check then has the
warnings of each document on the list, as if it were checked alone: those of a file come as often
as the file is on the list. -/
theorem files_once_iff (disk : Disk) (settings : AnalysisSettings) (paths : List Path)
    (wf : disk.root.WellFormed) (found : ∀ given ∈ paths, ∃ entry, disk.find given = .ok entry) :
    ∃ documents, disk.discover settings paths = .ok documents ∧
      (documents.Pairwise (fun p q => ¬ disk.SameFile p q) ↔ disk.Agree settings paths) ∧
      ∀ mode analysis, Check.analyze disk mode documents = .ok analysis →
        analysis.table.warnings = documents.flatMap (Check.warningsOf disk mode) := by
  obtain ⟨documents, hdocuments⟩ := Check.exists_discover_iff.mpr found
  refine ⟨documents, hdocuments, ⟨agree_of_pairwise wf hdocuments, pairwise_of_agree wf hdocuments⟩,
    fun mode analysis hanalyze => ?_⟩
  exact Check.warnings_analyze (Check.distinct_of_discover hdocuments) hanalyze

theorem files_once_siteDisk : siteDisk.root.WellFormed ∧
    ∃ documents, siteDisk.discover .default [⟨"."⟩, ⟨"./pages"⟩] = .ok documents ∧
      documents.Pairwise (fun p q => ¬ siteDisk.SameFile p q) ∧
      ∀ mode analysis, Check.analyze siteDisk mode documents = .ok analysis →
        analysis.table.warnings = documents.flatMap (Check.warningsOf siteDisk mode) := by
  have wf : siteDisk.root.WellFormed := by decide
  obtain ⟨documents, hdocuments, honce, hwarnings⟩ :=
    files_once_iff siteDisk .default [⟨"."⟩, ⟨"./pages"⟩] wf
      (List.forall_mem_cons.mpr ⟨⟨_, rfl⟩, List.forall_mem_singleton.mpr ⟨_, rfl⟩⟩)
  exact ⟨wf, documents, hdocuments, honce.mpr agree_siteDisk, hwarnings⟩

/-- A directory and a file in it: the file is listed twice, and so is its warning. -/
theorem file_twice : blankSourceDisk.root.WellFormed ∧
    blankSourceDisk.discover .default [⟨"."⟩, ⟨"a.html"⟩] = .ok [⟨"./a.html"⟩, ⟨"a.html"⟩] ∧
    blankSourceDisk.SameFile ⟨"./a.html"⟩ ⟨"a.html"⟩ ∧
    (Check.analyze blankSourceDisk .sequential [⟨"./a.html"⟩, ⟨"a.html"⟩]).map
      (fun analysis => analysis.table.warnings.map fun w => (w.code, w.range.map (·.file))) =
        .ok [("empty-import-url", some ⟨"./a.html"⟩), ("empty-import-url", some ⟨"a.html"⟩)] := by
  refine ⟨by decide, ?_, by decide +kernel, by decide +kernel⟩
  have hfound : blankSourceDisk.discover .default [⟨"."⟩, ⟨"a.html"⟩] =
      .ok (Path.sorted [⟨"./a.html"⟩, ⟨"a.html"⟩]) := rfl
  rw [hfound, Path.sorted_of_pairwise]
  exact List.pairwise_pair.mpr (Path.compare_eq_lt_iff.mp (by decide +kernel))

end Disk

end PageLint
