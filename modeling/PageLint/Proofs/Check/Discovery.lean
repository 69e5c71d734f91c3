import PageLint.Proofs.Source.Paths
import PageLint.Proofs.Source.Tree

/-!
# Which documents are found

A path that is named stands for a file, or for all files inside a directory that are reached
without a hidden name and have the extension of a document. These are the documents that are
found, in the order of paths and each path once.
-/

namespace PageLint

/-- The name is that of a document: it has one of the extensions, in any case. -/
def AnalysisSettings.Selects (settings : AnalysisSettings) (name : String) : Prop :=
  ∃ extension, Path.EndsIn name extension ∧
    ∃ wanted ∈ settings.extensions, Text.equalIgnoringCase wanted extension

theorem AnalysisSettings.any_extension?_join (settings : AnalysisSettings) {name : String}
    (h : Path.IsName name) (dir : Path) :
    (dir.join name).extension?.any settings.matchesExtension ↔ settings.Selects name := by
  simp only [Option.any_eq_true, Path.extension?_join h, Selects, matchesExtension,
    List.any_eq_true]

/-! ## Walking a directory -/

section

variable {settings : AnalysisSettings} {path : Path}

theorem mem_documentsIn {dir : Path} {entries : List (String × Entry)} :
    path ∈ documentsIn settings dir entries ↔ ∃ name child, (name, child) ∈ entries ∧
      isHiddenName name = false ∧ path ∈ child.documents settings (dir.join name) := by
  induction entries with
  | nil => simp [documentsIn]
  | cons e entries ih =>
    obtain ⟨name, child⟩ := e
    rw [documentsIn, List.mem_append, ih]
    constructor
    · rintro (h | ⟨name', child', hmem, h⟩)
      · split at h
        · cases h
        · next hvisible =>
          exact ⟨name, child, List.mem_cons_self, by simpa using hvisible, h⟩
      · exact ⟨name', child', List.mem_cons_of_mem _ hmem, h⟩
    · rintro ⟨name', child', hmem, hvisible, h⟩
      rcases List.mem_cons.mp hmem with heq | hmem
      · obtain ⟨rfl, rfl⟩ := Prod.mk.inj heq
        rw [if_neg (by simp [hvisible])]
        exact Or.inl h
      · exact Or.inr ⟨name', child', hmem, hvisible, h⟩

/-- A walk finds the files that visible names lead to, if they have an extension of documents. -/
theorem Entry.mem_documents {entry : Entry} (wf : entry.WellFormed) {dir : Path} :
    path ∈ entry.documents settings dir ↔ ∃ names bytes, entry.Leads names (.file bytes) ∧
      (∀ name ∈ names, isHiddenName name = false) ∧ path = dir.descend names ∧
        path.extension?.any settings.matchesExtension := by
  induction wf generalizing dir with
  | file bytes =>
    rw [Entry.documents]
    constructor
    · intro h
      split at h
      · next hextension =>
        obtain rfl := List.mem_singleton.mp h
        exact ⟨[], bytes, .here _, List.forall_mem_nil _, rfl, hextension⟩
      · cases h
    · rintro ⟨names, bytes', leads, -, rfl, hextension⟩
      cases leads
      rw [Path.descend_nil] at hextension
      rw [if_pos hextension]
      exact List.mem_singleton_self _
  | @directory entries isName distinct children ih =>
    rw [Entry.documents, mem_documentsIn]
    constructor
    · rintro ⟨name, child, hmem, hvisible, h⟩
      obtain ⟨names, bytes, leads, hnames, hpath, hextension⟩ := (ih _ hmem).mp h
      exact ⟨name :: names, bytes, .down hmem leads, List.forall_mem_cons.mpr ⟨hvisible, hnames⟩,
        hpath, hextension⟩
    · rintro ⟨names, bytes, leads, hnames, hpath, hextension⟩
      cases leads with
      | @down _ name child _ names hmem leads =>
        obtain ⟨hvisible, hnames⟩ := List.forall_mem_cons.mp hnames
        exact ⟨name, child, hmem, hvisible, (ih _ hmem).mpr ⟨names, bytes, leads, hnames, hpath,
          hextension⟩⟩

end

/-! ## Documents of the paths that are named -/

/-- What a path stands for when it is named: a file for itself, and a directory for the files that
visible names lead to from it, the last one a name of documents. -/
inductive Disk.Finds (disk : Disk) (settings : AnalysisSettings) : Path → List String → Prop
  | file {path : Path} {bytes : ByteArray} (found : disk.find path = .ok (.file bytes)) :
      Finds disk settings path []
  | inside {dir : Path} {entries : List (String × Entry)} {names : List String} {last : String}
      {bytes : ByteArray} (found : disk.find dir = .ok (.directory entries))
      (leads : (Entry.directory entries).Leads (names ++ [last]) (.file bytes))
      (visible : ∀ name ∈ names ++ [last], isHiddenName name = false)
      (selected : settings.Selects last) : Finds disk settings dir (names ++ [last])

namespace Check

variable {disk : Disk}

theorem exists_documentsAt_iff (settings : AnalysisSettings) {path : Path} :
    (∃ documents, disk.documentsAt settings path = some documents) ↔
      ∃ entry, disk.find path = .ok entry := by
  rw [Disk.documentsAt]
  cases disk.find path with
  | error e => simp
  | ok entry => cases entry <;> simp

/-- Documents are found if and only if all paths lead somewhere. -/
theorem exists_discover_iff {settings : AnalysisSettings} {paths : List Path} :
    (∃ documents, disk.discover settings paths = .ok documents) ↔
      ∀ path ∈ paths, ∃ entry, disk.find path = .ok entry := by
  simp only [← exists_documentsAt_iff settings]
  constructor
  · rintro ⟨documents, h⟩ path hpath
    obtain ⟨found, hfound, -⟩ := bind_eq_ok_iff.mp h
    obtain ⟨part, hpart⟩ := exists_of_mapM_eq_ok hfound path hpath
    cases hdocuments : disk.documentsAt settings path with
    | some documents => exact ⟨documents, rfl⟩
    | none =>
      rw [hdocuments] at hpart
      cases hpart
  · intro h
    apply exists_bind_eq_ok
    · apply exists_mapM_eq_ok
      intro path hpath
      obtain ⟨documents, hdocuments⟩ := h path hpath
      rw [hdocuments]
      exact ⟨documents, rfl⟩
    · exact fun found => ⟨_, rfl⟩

theorem distinct_of_discover {settings : AnalysisSettings} {paths documents : List Path}
    (h : disk.discover settings paths = .ok documents) :
    documents.Pairwise fun p q => ¬ p.Same q := by
  obtain ⟨found, -, h⟩ := bind_eq_ok_iff.mp h
  cases h
  refine (Path.pairwise_sorted _).imp ?_
  intro p q hlt hsame
  rw [Path.compare_eq_eq_iff.mpr hsame] at hlt
  cases hlt

end Check

namespace Disk

variable {disk : Disk} {settings : AnalysisSettings} {paths documents : List Path}

theorem wellFormed_of_find (wf : disk.root.WellFormed) {path : Path} {entry : Entry}
    (h : disk.find path = .ok entry) : entry.WellFormed := by
  obtain ⟨trail, htrail, rfl⟩ := map_eq_ok_iff.mp h
  exact (isTrail_of_follow htrail).leads.wellFormed wf

/-- The extension of a document is that of the last name, so only the name counts. -/
theorem any_extension?_descend (settings : AnalysisSettings) {names : List String} {last : String}
    (h : Path.IsName last) (dir : Path) :
    (dir.descend (names ++ [last])).extension?.any settings.matchesExtension ↔
      settings.Selects last := by
  rw [Path.descend_append]
  exact settings.any_extension?_join h (dir.descend names)

theorem mem_documentsAt (wf : disk.root.WellFormed) {given path : Path}
    (h : disk.documentsAt settings given = some documents) :
    path ∈ documents ↔ ∃ names, disk.Finds settings given names ∧ path = given.descend names := by
  unfold documentsAt at h
  split at h
  · next entries hfind =>
    cases h
    have hwf := wellFormed_of_find wf hfind
    have hwalk : documentsIn settings given entries =
        (Entry.directory entries).documents settings given := by rw [Entry.documents]
    rw [hwalk, Entry.mem_documents hwf]
    constructor
    · rintro ⟨names, bytes, leads, visible, rfl, hextension⟩
      rcases List.eq_nil_or_concat' names with rfl | ⟨names, last, rfl⟩
      · cases leads
      · have hlast := leads.isName hwf last (List.mem_append_right _ List.mem_cons_self)
        have selected := (any_extension?_descend _ hlast _).mp hextension
        exact ⟨_, .inside hfind leads visible selected, rfl⟩
    · rintro ⟨_, ⟨hfile⟩ | ⟨hdir, leads, visible, selected⟩, rfl⟩
      · cases hfind.symm.trans hfile
      · cases hfind.symm.trans hdir
        have hlast := leads.isName hwf _ (List.mem_append_right _ List.mem_cons_self)
        exact ⟨_, _, leads, visible, rfl, (any_extension?_descend _ hlast _).mpr selected⟩
  · next bytes hfind =>
    cases h
    rw [List.mem_singleton]
    constructor
    · rintro rfl
      exact ⟨[], .file hfind, rfl⟩
    · rintro ⟨_, ⟨hfile⟩ | ⟨hdir, leads, visible, selected⟩, rfl⟩
      · rfl
      · cases hfind.symm.trans hdir
  · cases h

/-- The list of a check has what the paths that are named stand for, up to spelling. -/
theorem discover_eq_ok (wf : disk.root.WellFormed)
    (h : disk.discover settings paths = .ok documents) :
    documents.Pairwise Path.Precedes ∧
      (∀ path ∈ documents, ∃ given ∈ paths, ∃ names, disk.Finds settings given names ∧
        path = given.descend names) ∧
      ∀ given ∈ paths, ∀ names, disk.Finds settings given names →
        ∃ path ∈ documents, path.Same (given.descend names) := by
  obtain ⟨found, hfound, h⟩ := bind_eq_ok_iff.mp h
  cases h
  refine ⟨(Path.pairwise_sorted _).imp Path.compare_eq_lt_iff.mp, ?_, ?_⟩
  · intro path hpath
    obtain ⟨part, hpart, hmem⟩ := List.mem_flatten.mp (Path.mem_of_mem_sorted hpath)
    obtain ⟨given, hgiven, hdocuments⟩ := exists_of_mem_mapM hfound hpart
    cases hat : disk.documentsAt settings given with
    | none =>
      rw [hat] at hdocuments
      cases hdocuments
    | some documents =>
      rw [hat] at hdocuments
      cases hdocuments
      exact ⟨given, hgiven, (mem_documentsAt wf hat).mp hmem⟩
  · intro given hgiven names finds
    obtain ⟨part, hpart⟩ := exists_of_mapM_eq_ok hfound given hgiven
    cases hat : disk.documentsAt settings given with
    | none =>
      rw [hat] at hpart
      cases hpart
    | some documents =>
      rw [hat] at hpart
      have hmem := mem_of_mapM_eq_ok hfound hgiven (by rw [hat])
      refine Path.exists_same_sorted.mpr ⟨given.descend names, ?_, Path.Same.refl _⟩
      exact List.mem_flatten.mpr ⟨documents, hmem, (mem_documentsAt wf hat).mpr ⟨names, finds, rfl⟩⟩

/-- An error names a path that leads nowhere. -/
theorem discover_eq_error {missing : Path} (h : disk.discover settings paths = .error missing) :
    missing ∈ paths ∧ ∃ e, disk.find missing = .error e := by
  rcases bind_eq_error_iff.mp h with h | ⟨found, -, h⟩
  · obtain ⟨given, hgiven, herror⟩ := exists_of_mapM_eq_error h
    cases hat : disk.documentsAt settings given with
    | some documents =>
      rw [hat] at herror
      cases herror
    | none =>
      rw [hat] at herror
      cases herror
      refine ⟨hgiven, exists_error_of_not_ok fun hentry => ?_⟩
      obtain ⟨documents, hdocuments⟩ := (Check.exists_documentsAt_iff settings).mpr hentry
      cases hat.symm.trans hdocuments
  · cases h

/-- The documents that are found: if all paths that are named lead somewhere, they are in strict
order and are those that the paths stand for, up to spelling; else there is an error that names a
path which leads nowhere. -/
theorem discover_exact (disk : Disk) (settings : AnalysisSettings) (paths : List Path)
    (wf : disk.root.WellFormed) :
    ((∀ given ∈ paths, ∃ entry, disk.find given = .ok entry) →
      ∃ documents, disk.discover settings paths = .ok documents ∧
        documents.Pairwise Path.Precedes ∧
        ∀ path, (∃ document ∈ documents, document.Same path) ↔
          ∃ given ∈ paths, ∃ names, disk.Finds settings given names ∧
            (given.descend names).Same path) ∧
      ((∃ given ∈ paths, ∃ e, disk.find given = .error e) → ∃ missing ∈ paths,
        (∃ e, disk.find missing = .error e) ∧ disk.discover settings paths = .error missing) := by
  constructor
  · intro hfound
    obtain ⟨documents, hdiscover⟩ := Check.exists_discover_iff.mpr hfound
    obtain ⟨sorted, sound, complete⟩ := discover_eq_ok wf hdiscover
    refine ⟨documents, hdiscover, sorted, fun path => ⟨?_, ?_⟩⟩
    · rintro ⟨document, hdocument, hsame⟩
      obtain ⟨given, hgiven, names, finds, rfl⟩ := sound document hdocument
      exact ⟨given, hgiven, names, finds, hsame⟩
    · rintro ⟨given, hgiven, names, finds, hsame⟩
      obtain ⟨document, hdocument, hdescend⟩ := complete given hgiven names finds
      exact ⟨document, hdocument, hdescend.trans hsame⟩
  · rintro ⟨given, hgiven, e, he⟩
    cases hdiscover : disk.discover settings paths with
    | ok documents =>
      obtain ⟨entry, hentry⟩ := Check.exists_discover_iff.mp ⟨documents, hdiscover⟩ given hgiven
      cases he.symm.trans hentry
    | error missing =>
      obtain ⟨hmissing, hnone⟩ := discover_eq_error hdiscover
      exact ⟨missing, hmissing, hnone, rfl⟩

/-- A disk with a hidden directory and a directory that has the name of a page. -/
def siteDisk : Disk :=
  ⟨.directory [("site", .directory [("index.html", .file .empty),
    (".git", .directory [("x.html", .file .empty)]),
    ("pages", .directory [("about.HTM", .file .empty), ("app.js", .file .empty),
      ("old.html", .directory [("b.html", .file .empty)])])])], ["site"]⟩

theorem discover_exact_siteDisk : siteDisk.root.WellFormed ∧
    (∃ documents,
      siteDisk.discover .default [⟨"pages//app.js"⟩, ⟨"."⟩, ⟨"pages/"⟩] = .ok documents ∧
      documents.Pairwise Path.Precedes ∧
      ∀ path, (∃ document ∈ documents, document.Same path) ↔
        ∃ given ∈ [⟨"pages//app.js"⟩, ⟨"."⟩, ⟨"pages/"⟩], ∃ names,
          siteDisk.Finds .default given names ∧ (given.descend names).Same path) ∧
    ∃ missing ∈ [⟨"pages"⟩, ⟨"gone"⟩], (∃ e, siteDisk.find missing = .error e) ∧
      siteDisk.discover .default [⟨"pages"⟩, ⟨"gone"⟩] = .error missing := by
  have wf : siteDisk.root.WellFormed := by decide
  refine ⟨wf, (discover_exact siteDisk .default _ wf).1 ?_,
    (discover_exact siteDisk .default _ wf).2 ⟨⟨"gone"⟩, by simp, .notFound, rfl⟩⟩
  simp only [List.forall_mem_cons]
  exact ⟨⟨_, rfl⟩, ⟨_, rfl⟩, ⟨_, rfl⟩, List.forall_mem_nil _⟩

end Disk

end PageLint
