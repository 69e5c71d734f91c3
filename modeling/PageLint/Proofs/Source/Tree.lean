import Mathlib.Data.List.Nodup
import PageLint.Proofs.Outcome
import PageLint.Proofs.Source.Segments
import PageLint.Source.Disk

/-!
# Directory trees

A chain of names leads from a directory down to what is in it. Put behind a path to the
directory, it gives a path that is followed to the same place. A place is known by the names from
the root down to it, which several paths may lead to.
-/

namespace PageLint

/-- The path of what a chain of names leads to inside the directory `dir`. -/
def Path.descend (dir : Path) (names : List String) : Path := names.foldl Path.join dir

@[simp] theorem Path.descend_nil (dir : Path) : dir.descend [] = dir := rfl

@[simp] theorem Path.descend_cons (dir : Path) (name : String) (names : List String) :
    dir.descend (name :: names) = (dir.join name).descend names := rfl

theorem Path.descend_append (dir : Path) (names rest : List String) :
    dir.descend (names ++ rest) = (dir.descend names).descend rest := List.foldl_append

theorem Path.components_descend {names : List String} (h : ∀ name ∈ names, IsName name)
    (dir : Path) : (dir.descend names).components = dir.components ++ names.map .name := by
  induction names generalizing dir with
  | nil => simp
  | cons name names ih =>
    obtain ⟨hname, hnames⟩ := List.forall_mem_cons.mp h
    rw [descend_cons, ih hnames, components_join hname]
    simp

namespace Entry

/-- A chain of names leads from an entry down to another. -/
inductive Leads : Entry → List String → Entry → Prop
  | here (entry : Entry) : Leads entry [] entry
  | down {entries : List (String × Entry)} {name : String} {child target : Entry}
      {names : List String} (mem : (name, child) ∈ entries) (rest : Leads child names target) :
      Leads (.directory entries) (name :: names) target

/-- The names in a directory are proper, and each is there once. -/
inductive WellFormed : Entry → Prop
  | file (bytes : ByteArray) : WellFormed (.file bytes)
  | directory {entries : List (String × Entry)} (names : ∀ e ∈ entries, Path.IsName e.1)
      (distinct : (entries.map (·.1)).Nodup) (children : ∀ e ∈ entries, WellFormed e.2) :
      WellFormed (.directory entries)

theorem wellFormed_directory_iff {entries : List (String × Entry)} :
    (directory entries).WellFormed ↔ (∀ e ∈ entries, Path.IsName e.1) ∧
      (entries.map (·.1)).Nodup ∧ ∀ e ∈ entries, e.2.WellFormed := by
  constructor
  · intro h
    cases h with
    | directory names distinct children => exact ⟨names, distinct, children⟩
  · exact fun ⟨names, distinct, children⟩ => .directory names distinct children

mutual

def decideWellFormed : (entry : Entry) → Decidable entry.WellFormed
  | .file bytes => .isTrue (.file bytes)
  | .directory entries =>
    haveI := decideChildren entries
    decidable_of_iff _ wellFormed_directory_iff.symm

def decideChildren : (entries : List (String × Entry)) →
    Decidable (∀ e ∈ entries, e.2.WellFormed)
  | [] => .isTrue (List.forall_mem_nil _)
  | (name, entry) :: entries =>
    haveI := decideWellFormed entry
    haveI := decideChildren entries
    decidable_of_iff (entry.WellFormed ∧ ∀ e ∈ entries, e.2.WellFormed)
      (List.forall_mem_cons (p := fun e => e.2.WellFormed) (a := (name, entry))).symm

end

instance : DecidablePred WellFormed := decideWellFormed

variable {entry target other : Entry} {names rest : List String}

theorem leads_append_iff : entry.Leads (names ++ rest) target ↔
    ∃ middle, entry.Leads names middle ∧ middle.Leads rest target := by
  induction names generalizing entry with
  | nil =>
    constructor
    · exact fun h => ⟨entry, .here entry, h⟩
    · rintro ⟨_, ⟨⟩, h⟩
      exact h
  | cons name names ih =>
    constructor
    · intro h
      cases h with
      | down mem h =>
        obtain ⟨middle, hnames, hrest⟩ := ih.mp h
        exact ⟨middle, .down mem hnames, hrest⟩
    · rintro ⟨middle, h, hrest⟩
      cases h with
      | down mem h => exact .down mem (ih.mpr ⟨middle, h, hrest⟩)

theorem Leads.wellFormed (h : entry.Leads names target) (wf : entry.WellFormed) :
    target.WellFormed := by
  induction h with
  | here entry => exact wf
  | down mem rest ih =>
    cases wf with
    | directory _ _ children => exact ih (children _ mem)

theorem Leads.isName (h : entry.Leads names target) (wf : entry.WellFormed) :
    ∀ name ∈ names, Path.IsName name := by
  induction h with
  | here entry => exact List.forall_mem_nil _
  | down mem rest ih =>
    cases wf with
    | directory isName _ children =>
      exact List.forall_mem_cons.mpr ⟨isName _ mem, ih (children _ mem)⟩

theorem eq_of_mem {entries : List (String × Entry)} (distinct : (entries.map (·.1)).Nodup)
    {name : String} (h : (name, entry) ∈ entries) (h' : (name, other) ∈ entries) :
    entry = other :=
  congrArg Prod.snd (List.inj_on_of_nodup_map distinct h h' rfl)

theorem mem_of_lookup {entries : List (String × Entry)} {name : String}
    (h : entries.lookup name = some entry) : (name, entry) ∈ entries := by
  obtain ⟨before, after, rfl, -⟩ := List.lookup_eq_some_iff.mp h
  exact List.mem_append_right _ List.mem_cons_self

theorem lookup_of_mem {entries : List (String × Entry)} (distinct : (entries.map (·.1)).Nodup)
    {name : String} (h : (name, entry) ∈ entries) : entries.lookup name = some entry := by
  obtain ⟨before, after, rfl⟩ := List.append_of_mem h
  refine List.lookup_eq_some_iff.mpr ⟨before, after, rfl, ?_⟩
  rw [List.map_append, List.map_cons, List.nodup_append] at distinct
  intro e he
  simpa using fun heq => distinct.2.2 _ (List.mem_map_of_mem he) name List.mem_cons_self heq.symm

end Entry

namespace Disk

/-- The names from the root down. -/
def Trail.names (trail : Trail) : List String := (trail.map (·.1)).reverse

/-- The names from the root down to where a path leads. -/
def place (disk : Disk) (p : Path) : Except ReadError (List String) :=
  (disk.follow p).map Trail.names

variable {disk : Disk} {trail : Trail} {entries : List (String × Entry)}

/-! ## Following a path -/

theorem enter_eq_ok {segment : String} {next : Trail} (h : disk.enter trail segment = .ok next) :
    ∃ entries, disk.current trail = .directory entries ∧
      ((segment = "" ∨ segment = ".") ∧ next = trail ∨ segment = ".." ∧ next = trail.tail ∨
        ∃ entry, entries.lookup segment = some entry ∧ next = (segment, entry) :: trail) := by
  unfold enter at h
  cases hcurrent : disk.current trail with
  | file bytes =>
    rw [hcurrent] at h
    cases h
  | directory entries =>
    rw [hcurrent] at h
    simp only at h
    refine ⟨entries, rfl, ?_⟩
    split at h
    · next hidle =>
      cases h
      exact Or.inl ⟨by simpa using hidle, rfl⟩
    · split at h
      · next hup =>
        cases h
        exact Or.inr (Or.inl ⟨hup, rfl⟩)
      · split at h
        · cases h
        · next entry hentry =>
          cases h
          exact Or.inr (Or.inr ⟨entry, hentry, rfl⟩)

theorem eq_of_enter_idle {segment : String} (hidle : segment = "" ∨ segment = ".") {next : Trail}
    (h : disk.enter trail segment = .ok next) : trail = next := by
  unfold enter at h
  split at h
  · cases h
  · rw [if_pos (by simpa using hidle)] at h
    exact Except.ok.inj h

/-- Every step of a trail is to an entry of the directory above. -/
inductive IsTrail (disk : Disk) : Trail → Prop
  | root : IsTrail disk []
  | down {trail : Trail} {entries : List (String × Entry)} {name : String} {entry : Entry}
      (above : IsTrail disk trail) (current : disk.current trail = .directory entries)
      (mem : (name, entry) ∈ entries) : IsTrail disk ((name, entry) :: trail)

theorem IsTrail.tail (h : disk.IsTrail trail) : disk.IsTrail trail.tail := by
  cases h with
  | root => exact .root
  | down above _ _ => exact above

theorem names_cons (name : String) (entry : Entry) (trail : Trail) :
    Trail.names ((name, entry) :: trail) = trail.names ++ [name] := by
  simp [Trail.names]

namespace IsTrail

theorem leads (h : disk.IsTrail trail) : disk.root.Leads trail.names (disk.current trail) := by
  induction h with
  | root => exact .here _
  | down above current mem ih =>
    rw [names_cons]
    exact Entry.leads_append_iff.mpr ⟨_, ih, current ▸ .down mem (.here _)⟩

/-- In a well-formed tree the names say where a trail leads. -/
theorem eq_of_names (wf : disk.root.WellFormed) (h : disk.IsTrail trail) {other : Trail}
    (h' : disk.IsTrail other) (hnames : trail.names = other.names) : trail = other := by
  induction h generalizing other with
  | root =>
    cases h' with
    | root => rfl
    | down _ _ _ =>
      rw [names_cons] at hnames
      exact absurd hnames.symm (List.concat_ne_nil _ _)
  | @down trail entries name entry above current mem ih =>
    cases h' with
    | root =>
      rw [names_cons] at hnames
      exact absurd hnames (List.concat_ne_nil _ _)
    | @down trail' entries' name' entry' above' current' mem' =>
      rw [names_cons, names_cons] at hnames
      obtain ⟨htrail, hname⟩ := List.append_inj' hnames rfl
      obtain rfl := ih above' htrail
      obtain rfl := (List.cons.inj hname).1
      obtain rfl := Entry.directory.inj (current.symm.trans current')
      have hwf := above.leads.wellFormed wf
      rw [current] at hwf
      cases hwf with
      | directory _ distinct _ => rw [Entry.eq_of_mem distinct mem mem']

theorem enter (h : disk.IsTrail trail) {segment : String} {next : Trail}
    (henter : disk.enter trail segment = .ok next) : disk.IsTrail next := by
  obtain ⟨entries, hcurrent, ⟨-, rfl⟩ | ⟨-, rfl⟩ | ⟨entry, hentry, rfl⟩⟩ := enter_eq_ok henter
  · exact h
  · exact h.tail
  · exact .down h hcurrent (Entry.mem_of_lookup hentry)

theorem foldlM (h : disk.IsTrail trail) {segments : List String} {next : Trail}
    (hfollow : segments.foldlM disk.enter trail = .ok next) : disk.IsTrail next := by
  induction segments generalizing trail with
  | nil =>
    cases hfollow
    exact h
  | cons segment segments ih =>
    rw [List.foldlM_cons] at hfollow
    obtain ⟨middle, hmiddle, hfollow⟩ := bind_eq_ok_iff.mp hfollow
    exact ih (h.enter hmiddle) hfollow

end IsTrail

/-- Where the segments of a path are followed from: the root or the working directory. -/
def origin (disk : Disk) (absolute : Bool) : Except ReadError Trail :=
  if absolute then pure [] else disk.workingDirectory.foldlM disk.enter []

theorem follow_eq_ok_iff {p : Path} : disk.follow p = .ok trail ↔ p.text ≠ "" ∧
    ∃ start, disk.origin p.isAbsolute = .ok start ∧
      p.segments.foldlM disk.enter start = .ok trail := by
  by_cases hne : p.text = ""
  · simp [follow, hne]
  · have hbind : disk.follow p =
        disk.origin p.isAbsolute >>= fun start => p.segments.foldlM disk.enter start := by
      rw [follow, if_neg hne, origin]
      cases p.isAbsolute <;> rfl
    rw [hbind, bind_eq_ok_iff]
    exact (and_iff_right hne).symm

theorem isTrail_of_follow {p : Path} (h : disk.follow p = .ok trail) : disk.IsTrail trail := by
  obtain ⟨-, start, hstart, hfollow⟩ := follow_eq_ok_iff.mp h
  refine IsTrail.foldlM ?_ hfollow
  unfold origin at hstart
  split at hstart
  · cases hstart
    exact .root
  · exact IsTrail.foldlM .root hstart

theorem enter_name (current : disk.current trail = .directory entries) {name : String}
    (hname : Path.IsName name) {entry : Entry} (h : entries.lookup name = some entry) :
    disk.enter trail name = .ok ((name, entry) :: trail) := by
  simp [enter, current, hname.ne_empty, hname.ne_here, hname.ne_up, h]

/-- A name behind the path of a directory is one more step. -/
theorem follow_join {dir : Path} (hdir : disk.follow dir = .ok trail)
    (current : disk.current trail = .directory entries) {name : String}
    (hname : Path.IsName name) {entry : Entry} (h : entries.lookup name = some entry) :
    disk.follow (dir.join name) = .ok ((name, entry) :: trail) := by
  obtain ⟨hne, start, hstart, hfollow⟩ := follow_eq_ok_iff.mp hdir
  obtain ⟨before, hbeforeNe, hjoin, hsegments⟩ := Path.segments_join hname hne
  have hbefore : before.foldlM disk.enter start = .ok trail := by
    rcases hsegments with hsegments | hsegments
    · rwa [hsegments] at hfollow
    · rw [hsegments, List.foldlM_append] at hfollow
      obtain ⟨middle, hmiddle, hlast⟩ := bind_eq_ok_iff.mp hfollow
      rw [List.foldlM_cons] at hlast
      obtain ⟨last, hlast, hend⟩ := bind_eq_ok_iff.mp hlast
      cases hend
      exact eq_of_enter_idle (Or.inl rfl) hlast ▸ hmiddle
  refine follow_eq_ok_iff.mpr ⟨?_, start, ?_, ?_⟩
  · intro hempty
    have hpath : dir.join name = ⟨""⟩ := congrArg Path.mk hempty
    have hlength := congrArg List.length (hpath ▸ hjoin)
    have hone : (⟨""⟩ : Path).segments.length = 1 := by decide
    rw [hone, List.length_append, List.length_singleton] at hlength
    exact hbeforeNe (List.eq_nil_of_length_eq_zero (by omega))
  · rwa [Path.isAbsolute_join hne]
  · rw [hjoin, List.foldlM_append, hbefore]
    change [name].foldlM disk.enter trail = _
    rw [List.foldlM_cons, enter_name current hname h]
    rfl

/-- What a chain of names leads to is found behind the path of the directory. -/
theorem follow_descend (wf : disk.root.WellFormed) {p : Path} (h : disk.follow p = .ok trail)
    {names : List String} {target : Entry} (leads : (disk.current trail).Leads names target) :
    ∃ next, disk.follow (p.descend names) = .ok next ∧ disk.current next = target ∧
      next.names = trail.names ++ names := by
  have hwf := (isTrail_of_follow h).leads.wellFormed wf
  generalize hcurrent : disk.current trail = entry at leads hwf
  induction leads generalizing p trail with
  | here entry => exact ⟨trail, h, hcurrent, (List.append_nil _).symm⟩
  | @down entries name child target names mem rest ih =>
    cases hwf with
    | directory isName distinct children =>
      have hjoin := follow_join h hcurrent (isName _ mem) (Entry.lookup_of_mem distinct mem)
      obtain ⟨next, hnext, htarget, hnames⟩ := ih hjoin rfl (children _ mem)
      refine ⟨next, hnext, htarget, ?_⟩
      rw [hnames, names_cons, List.append_assoc, List.singleton_append]

/-! ## Spellings of one path -/

theorem foldlM_enter_steps {segments : List String} {start : Trail}
    (h : segments.foldlM disk.enter start = .ok trail) :
    ((segments.filterMap Path.Component.ofSegment?).map Path.Component.segment).foldlM
      disk.enter start = .ok trail := by
  induction segments generalizing start with
  | nil => exact h
  | cons segment segments ih =>
    rw [List.foldlM_cons] at h
    obtain ⟨middle, hmiddle, h⟩ := bind_eq_ok_iff.mp h
    cases hsegment : Path.Component.ofSegment? segment with
    | none =>
      have hidle : segment = "" ∨ segment = "." := by
        unfold Path.Component.ofSegment? at hsegment
        split at hsegment
        · next hidle => simpa using hidle
        · split at hsegment <;> cases hsegment
      rw [List.filterMap_cons_none hsegment, eq_of_enter_idle hidle hmiddle]
      exact ih h
    | some component =>
      rw [List.filterMap_cons_some hsegment, List.map_cons,
        (Path.Component.segment_of_ofSegment? hsegment).1, List.foldlM_cons, hmiddle]
      exact ih h

/-- Two spellings of a path that lead somewhere lead to the same place. -/
theorem follow_unique {p q : Path} (h : p.Same q) {other : Trail}
    (hp : disk.follow p = .ok trail) (hq : disk.follow q = .ok other) : trail = other := by
  obtain ⟨-, start, hstart, hfollow⟩ := follow_eq_ok_iff.mp hp
  obtain ⟨-, start', hstart', hfollow'⟩ := follow_eq_ok_iff.mp hq
  obtain ⟨habsolute, hsteps⟩ := h.steps_eq
  unfold Path.steps at hsteps
  rw [habsolute] at hstart
  obtain rfl := Except.ok.inj (hstart.symm.trans hstart')
  have hp' := foldlM_enter_steps hfollow
  have hq' := foldlM_enter_steps hfollow'
  rw [hsteps] at hp'
  exact Except.ok.inj (hp'.symm.trans hq')

end Disk

end PageLint
