import Mathlib.Data.Finset.Card
import Mathlib.Data.Finset.Dedup
import PageLint.Source.Database

/-!
# The source database as a cache

What a database holds for a path is what came in last under a spelling of it, by being added or
by being read from the disk when nothing was held. A `History` keeps all that came in and
forgets nothing; a database that keeps one file for a path answers every request as the history
says, however requests and removals from the disk follow one another.
-/

namespace PageLint

namespace Database

/-! ## Requests -/

/-- What is asked of a database, or done to the disk of the machine. -/
inductive Request where
  | add (path : Path) (content : String)
  | get (path : Path)
  | load (path : Path)
  | lines (path : Path) (first last : UInt32)
  /-- The file at a path is removed from the disk. -/
  | remove (path : Path)

inductive Answer where
  | added (file : SourceFile)
  | held (file : Option SourceFile)
  | loaded (file : Except LoadError SourceFile)
  | lines (texts : Except LoadError (List String))
  | removed (done : Bool)

/-- A database and the disk of the machine, which the database may not read. -/
structure Host where
  database : Database
  disk : Disk

namespace Host

/-- A database that holds nothing, over the disk or in memory. -/
def start (reads : Bool) (disk : Disk) : Host :=
  ⟨if reads then .onDisk disk else .inMemory, disk⟩

/-- The host with another disk, which the database reads if it read the one before. -/
def withDisk (host : Host) (disk : Disk) : Host :=
  ⟨{ host.database with disk := host.database.disk.map fun _ => disk }, disk⟩

def serve (host : Host) : Request → Answer × Host
  | .add path content =>
    let file := SourceFile.ofContent path content
    (.added file, { host with database := host.database.add file })
  | .get path => (.held (host.database.get? path), host)
  | .load path =>
    let (file, database) := host.database.load path
    (.loaded file, { host with database })
  | .lines path first last =>
    let (_, database) := host.database.load path
    (.lines (host.database.loader.lines path first last), { host with database })
  | .remove path =>
    match host.disk.remove? path with
    | some disk => (.removed true, host.withDisk disk)
    | none => (.removed false, host)

def after (host : Host) (requests : List Request) : Host :=
  requests.foldl (fun host request => (host.serve request).2) host

end Host

/-! ## Histories -/

/-- All files that came into a database, the latest first, and the disk as it is by now. -/
structure History where
  files : List SourceFile
  disk : Disk

namespace History

/-- The file that came in last under a spelling of a path. -/
def latest? (history : History) (path : Path) : Option SourceFile :=
  history.files.find? (·.path.Same path)

/-- The paths under which files came in, each once up to spelling. -/
def paths (history : History) : Finset (List Path.Component) :=
  (history.files.map (·.path.components)).toFinset

/-- What the disk gives for a path, if it is read at all. -/
def fetch (history : History) (reads : Bool) (path : Path) : Except LoadError SourceFile :=
  if reads then
    match history.disk.readText path with
    | .ok text => .ok (.ofContent path text)
    | .error .notFound => .error (.notFound path)
    | .error cause => .error (.unreadable path cause)
  else .error (.notFound path)

theorem fetch_eq_ok_iff {history : History} {reads : Bool} {path : Path} {file : SourceFile} :
    history.fetch reads path = .ok file ↔ reads = true ∧
      ∃ text, history.disk.readText path = .ok text ∧ file = .ofContent path text := by
  cases reads with
  | false => simp [fetch]
  | true =>
    simp only [fetch, if_true, true_and]
    cases history.disk.readText path with
    | ok text => simp [eq_comm]
    | error cause => cases cause <;> simp

def push (history : History) (file : SourceFile) : History :=
  { history with files := file :: history.files }

/-- A path was asked for: if nothing had come in for it, what the disk gave came in. -/
def seek (history : History) (reads : Bool) (path : Path) : History :=
  match history.latest? path, history.fetch reads path with
  | none, .ok file => history.push file
  | _, _ => history

def next (history : History) (reads : Bool) : Request → History
  | .add path content => history.push (.ofContent path content)
  | .get _ => history
  | .load path => history.seek reads path
  | .lines path _ _ => history.seek reads path
  | .remove path => { history with disk := (history.disk.remove? path).getD history.disk }

def of (reads : Bool) (disk : Disk) (requests : List Request) : History :=
  requests.foldl (fun history request => history.next reads request) ⟨[], disk⟩

variable {history : History} {reads : Bool} {path : Path}

theorem seek_of_latest? {file : SourceFile} (h : history.latest? path = some file) :
    history.seek reads path = history := by
  rw [seek, h]

theorem seek_of_fetch {file : SourceFile} (hnew : history.latest? path = none)
    (h : history.fetch reads path = .ok file) : history.seek reads path = history.push file := by
  rw [seek, hnew, h]

theorem seek_of_not_fetch {e : LoadError} (h : history.fetch reads path = .error e) :
    history.seek reads path = history := by
  rw [seek, h]
  cases history.latest? path <;> rfl

theorem latest?_push (history : History) (file : SourceFile) (path : Path) :
    (history.push file).latest? path =
      if file.path.Same path then some file else history.latest? path := by
  rw [push, latest?, List.find?_cons]
  by_cases h : file.path.Same path
  · simp [h]
  · simp [h, latest?]

theorem mem_paths : path.components ∈ history.paths ↔ (history.latest? path).isSome := by
  simp only [paths, latest?, List.mem_toFinset, List.mem_map, List.find?_isSome, decide_eq_true_eq]
  rfl

end History

/-! ## What a database holds -/

variable {db : Database} {path : Path} {file : SourceFile}

theorem same_of_get? (h : db.get? path = some file) : file.path.Same path := by
  unfold get? at h
  simpa using List.find?_some h

theorem get?_eq_none_iff : db.get? path = none ↔ ∀ held ∈ db.files, ¬ held.path.Same path := by
  simp only [get?, List.find?_eq_none, decide_eq_true_eq]

theorem isSome_get?_iff : (db.get? path).isSome ↔ ∃ held ∈ db.files, held.path.Same path := by
  simp only [get?, List.find?_isSome, decide_eq_true_eq]

/-- The file of a place once `file` was added. -/
def replacement (file held : SourceFile) : SourceFile :=
  if held.path.Same file.path then file else held

theorem same_replacement (file held : SourceFile) :
    (replacement file held).path.Same held.path := by
  unfold replacement
  split
  · next hsame => exact hsame.symm
  · exact Path.Same.refl _

theorem get?_add (db : Database) (file : SourceFile) (path : Path) :
    (db.add file).get? path = if file.path.Same path then some file else db.get? path := by
  unfold add
  split
  · next hany =>
    have hkeeps : (fun held : SourceFile => decide (held.path.Same path)) ∘ replacement file =
        fun held => decide (held.path.Same path) := by
      funext held
      exact decide_eq_decide.mpr
        ⟨(same_replacement file held).symm.trans, (same_replacement file held).trans⟩
    change (db.files.map (replacement file)).find? _ = _
    rw [List.find?_map, hkeeps]
    change (db.get? path).map (replacement file) = _
    split
    · next hsame =>
      obtain ⟨held, hheld, hfile⟩ := List.any_eq_true.mp hany
      have hsome : (db.get? path).isSome :=
        isSome_get?_iff.mpr ⟨held, hheld, (of_decide_eq_true hfile).trans hsame⟩
      obtain ⟨found, hfound⟩ := Option.isSome_iff_exists.mp hsome
      rw [hfound, Option.map_some, replacement, if_pos ((same_of_get? hfound).trans hsame.symm)]
    · next hother =>
      cases hget : db.get? path with
      | none => rfl
      | some found =>
        have hpath := same_of_get? hget
        rw [Option.map_some, replacement, if_neg fun hsame => hother (hsame.symm.trans hpath)]
  · next hnone =>
    have hnone : ∀ held ∈ db.files, ¬ held.path.Same file.path := by simpa using hnone
    change (db.files ++ [file]).find? _ = _
    rw [List.find?_append]
    by_cases hsame : file.path.Same path
    · have hget : db.get? path = none := get?_eq_none_iff.mpr fun held hheld h =>
        hnone held hheld (h.trans hsame.symm)
      change (db.get? path).or _ = _
      simp [hget, hsame]
    · change (db.get? path).or _ = _
      simp [hsame]

theorem nodup_add (h : (db.files.map (·.path.components)).Nodup) (file : SourceFile) :
    ((db.add file).files.map (·.path.components)).Nodup := by
  unfold add
  split
  · next hany =>
    have hsame : (db.files.map (replacement file)).map (·.path.components) =
        db.files.map (·.path.components) := by
      rw [List.map_map]
      exact List.map_congr_left fun held _ => same_replacement file held
    exact hsame ▸ h
  · next hnone =>
    rw [List.map_append, List.map_singleton, List.nodup_append]
    refine ⟨h, List.nodup_singleton _, ?_⟩
    simp only [List.mem_map, List.mem_singleton, forall_exists_index, and_imp]
    rintro _ held hheld rfl _ rfl
    exact fun h => hnone (List.any_eq_true.mpr ⟨held, hheld, decide_eq_true h⟩)

theorem disk_add (db : Database) (file : SourceFile) : (db.add file).disk = db.disk := by
  unfold add
  split <;> rfl

theorem load_of_held (h : db.get? path = some file) : db.load path = (.ok file, db) := by
  rw [load, h]

/-! ## A database and its history -/

namespace Host

variable {host : Host} {reads : Bool} {history : History}

theorem serve_load (host : Host) (path : Path) : host.serve (.load path) =
    (.loaded (host.database.load path).1, ⟨(host.database.load path).2, host.disk⟩) := rfl

theorem serve_lines (host : Host) (path : Path) (first last : UInt32) :
    host.serve (.lines path first last) =
      (.lines ((host.database.load path).1.map (·.lineTexts first last)),
        ⟨(host.database.load path).2, host.disk⟩) := rfl

/-- The database holds what came in last for every path, once, and reads the disk as it is. -/
structure Keeps (host : Host) (reads : Bool) (history : History) : Prop where
  disk : host.disk = history.disk
  read : host.database.disk = if reads then some history.disk else none
  get? (path : Path) : host.database.get? path = history.latest? path
  nodup : (host.database.files.map (·.path.components)).Nodup

namespace Keeps

theorem start (reads : Bool) (disk : Disk) : (Host.start reads disk).Keeps reads ⟨[], disk⟩ := by
  cases reads
  · exact ⟨rfl, rfl, fun _ => rfl, List.nodup_nil⟩
  · exact ⟨rfl, rfl, fun _ => rfl, List.nodup_nil⟩

theorem push (keeps : host.Keeps reads history) (file : SourceFile) :
    Keeps ⟨host.database.add file, host.disk⟩ reads (history.push file) where
  disk := keeps.disk
  read := (disk_add _ _).trans keeps.read
  get? := by
    intro path
    rw [get?_add, History.latest?_push, keeps.get?]
  nodup := nodup_add keeps.nodup file

theorem withDisk (keeps : host.Keeps reads history) (disk : Disk) :
    (host.withDisk disk).Keeps reads { history with disk } where
  disk := rfl
  read := by
    change host.database.disk.map _ = _
    rw [keeps.read]
    cases reads <;> rfl
  get? := keeps.get?
  nodup := keeps.nodup

theorem size_eq (keeps : host.Keeps reads history) :
    host.database.size = history.paths.card := by
  have hpaths : history.paths = (host.database.files.map (·.path.components)).toFinset := by
    ext components
    simp only [List.mem_toFinset, List.mem_map]
    constructor
    · intro h
      obtain ⟨f, -, rfl⟩ := List.mem_map.mp (List.mem_toFinset.mp h)
      exact isSome_get?_iff.mp (keeps.get? f.path ▸ History.mem_paths.mp h)
    · rintro ⟨held, hheld, rfl⟩
      refine History.mem_paths.mpr (keeps.get? held.path ▸ ?_)
      exact isSome_get?_iff.mpr ⟨held, hheld, Path.Same.refl _⟩
  rw [hpaths, List.toFinset_card_of_nodup keeps.nodup, List.length_map]
  rfl

theorem load_of_latest? (keeps : host.Keeps reads history) (h : history.latest? path = some file) :
    host.database.load path = (.ok file, host.database) :=
  load_of_held ((keeps.get? path).trans h)

theorem load_of_new (keeps : host.Keeps reads history) (hnew : history.latest? path = none) :
    host.database.load path = (history.fetch reads path,
      match history.fetch reads path with
      | .ok file => host.database.add file
      | .error _ => host.database) := by
  have hget := (keeps.get? path).trans hnew
  have hread := keeps.read
  cases reads with
  | false =>
    rw [if_neg Bool.false_ne_true] at hread
    simp [load, History.fetch, hget, hread]
  | true =>
    rw [if_pos rfl] at hread
    cases htext : history.disk.readText path with
    | ok text => simp [load, History.fetch, hget, hread, htext]
    | error cause => cases cause <;> simp [load, History.fetch, hget, hread, htext]

theorem seek (keeps : host.Keeps reads history) (path : Path) :
    Keeps ⟨(host.database.load path).2, host.disk⟩ reads (history.seek reads path) := by
  cases hlatest : history.latest? path with
  | some file =>
    rw [keeps.load_of_latest? hlatest, History.seek_of_latest? hlatest]
    exact keeps
  | none =>
    cases hfetch : history.fetch reads path with
    | error e =>
      rw [keeps.load_of_new hlatest, History.seek_of_not_fetch hfetch, hfetch]
      exact keeps
    | ok file =>
      rw [keeps.load_of_new hlatest, History.seek_of_fetch hlatest hfetch, hfetch]
      exact keeps.push file

theorem serve (keeps : host.Keeps reads history) (request : Request) :
    (host.serve request).2.Keeps reads (history.next reads request) := by
  cases request with
  | add path content => exact keeps.push _
  | get path => exact keeps
  | load path => exact keeps.seek path
  | lines path first last => exact keeps.seek path
  | remove path =>
    unfold Host.serve History.next
    rw [keeps.disk]
    simp only
    cases hremove : history.disk.remove? path with
    | none => exact keeps
    | some disk => exact keeps.withDisk disk

theorem after (keeps : host.Keeps reads history) (requests : List Request) :
    (host.after requests).Keeps reads
      (requests.foldl (fun history request => history.next reads request) history) := by
  induction requests generalizing host history with
  | nil => exact keeps
  | cons request requests ih => exact ih (keeps.serve request)

end Keeps

/-- What requests come to after a history. What came in is given without a look at the disk, a
path under which nothing came in is looked up there, and only what is found is kept. -/
structure Follows (host : Host) (reads : Bool) (history : History) : Prop where
  size : host.database.size = history.paths.card
  get (path : Path) : host.serve (.get path) = (.held (history.latest? path), host)
  load_held {path : Path} {file : SourceFile} (h : history.latest? path = some file)
    (disk : Disk) : (host.withDisk disk).serve (.load path) =
      (.loaded (.ok file), host.withDisk disk)
  lines_held {path : Path} {file : SourceFile} (h : history.latest? path = some file)
    (disk : Disk) (first last : UInt32) : (host.withDisk disk).serve (.lines path first last) =
      (.lines (.ok (file.lineTexts first last)), host.withDisk disk)
  load_found {path : Path} {file : SourceFile} (hnew : history.latest? path = none)
    (h : history.fetch reads path = .ok file) :
    host.serve (.load path) = (.loaded (.ok file), (host.serve (.add path file.content)).2)
  lines_found {path : Path} {file : SourceFile} (hnew : history.latest? path = none)
    (h : history.fetch reads path = .ok file) (first last : UInt32) :
    host.serve (.lines path first last) =
      (.lines (.ok (file.lineTexts first last)), (host.serve (.add path file.content)).2)
  load_failed {path : Path} {e : LoadError} (hnew : history.latest? path = none)
    (h : history.fetch reads path = .error e) :
    host.serve (.load path) = (.loaded (.error e), host)
  lines_failed {path : Path} {e : LoadError} (hnew : history.latest? path = none)
    (h : history.fetch reads path = .error e) (first last : UInt32) :
    host.serve (.lines path first last) = (.lines (.error e), host)

theorem Keeps.follows (keeps : host.Keeps reads history) : host.Follows reads history where
  size := keeps.size_eq
  get path := by rw [Host.serve, keeps.get?]
  load_held h disk := by rw [serve_load, (keeps.withDisk disk).load_of_latest? h]
  lines_held h disk first last := by
    rw [serve_lines, (keeps.withDisk disk).load_of_latest? h]
    rfl
  load_found hnew h := by
    obtain ⟨-, text, -, rfl⟩ := History.fetch_eq_ok_iff.mp h
    rw [serve_load, keeps.load_of_new hnew, h]
    rfl
  lines_found hnew h first last := by
    obtain ⟨-, text, -, rfl⟩ := History.fetch_eq_ok_iff.mp h
    rw [serve_lines, keeps.load_of_new hnew, h]
    rfl
  load_failed hnew h := by rw [serve_load, keeps.load_of_new hnew, h]
  lines_failed hnew h first last := by
    rw [serve_lines, keeps.load_of_new hnew, h]
    rfl

/-- A database in memory changes only when something is added to it. -/
theorem database_serve (hnone : host.database.disk = none) (request : Request) :
    (host.serve request).2.database =
      match request with
      | .add path content => host.database.add (.ofContent path content)
      | _ => host.database := by
  have hload (path : Path) : (host.database.load path).2 = host.database := by
    cases hget : host.database.get? path <;> simp [load, hget, hnone]
  cases request with
  | add path content => rfl
  | get path => rfl
  | load path => exact hload path
  | lines path first last => exact hload path
  | remove path =>
    unfold serve
    simp only
    split
    · rw [withDisk, hnone, Option.map_none, ← hnone]
    · rfl

/-- So it is the same whatever there is on the disk. -/
theorem database_after_eq {host host' : Host} (hsame : host.database = host'.database)
    (hnone : host.database.disk = none) (requests : List Request) :
    (host.after requests).database = (host'.after requests).database := by
  induction requests generalizing host host' with
  | nil => exact hsame
  | cons request requests ih =>
    have hserve := database_serve hnone request
    refine ih ?_ ?_
    · rw [hserve, database_serve (hsame ▸ hnone), hsame]
    · rw [hserve]
      split
      · exact (disk_add _ _).trans hnone
      · exact hnone

/-- After any requests, what a database holds, how many files there are and what it answers are
told by the files that came in and by the disk as it is by then; in memory the disk does not
count at all. -/
theorem follows_after (reads : Bool) (disk : Disk) (requests : List Request) :
    ((start reads disk).after requests).Follows reads (History.of reads disk requests) ∧
      (reads = false → ∀ other : Disk, ((start reads disk).after requests).database =
        ((start reads other).after requests).database) := by
  refine ⟨((Keeps.start reads disk).after requests).follows, ?_⟩
  rintro rfl other
  have hsame : (start false disk).database = (start false other).database := rfl
  exact database_after_eq hsame rfl requests

end Host

end Database

end PageLint
