import PageLint.Proofs.Table.Runs

/-!
# Evicting documents one after the other

`Table.evict` takes a document and all that is inside it out of the table at once. The same can
be done one document after the other: a document is taken out, taken off the list of its
container, and then each of the documents that were directly inside it goes in the same way. This
ends for every table, since each document taken out leaves one place fewer, and where the records
of the table agree the two come to the same.
-/

namespace PageLint.Table

/-- The number of places that hold a document. -/
def occupied (t : Table) : Nat := t.slots.values.countP (·.isSome)

/-- A place without one of the documents inside. -/
def Slot.dropChild (s : Slot) (id : DocumentId) : Slot :=
  { s with children := s.children.filter (· ≠ id) }

/-- The table without the document of a place, which is also taken off the list of its
container. -/
def detach (t : Table) (id : DocumentId) (s : Slot) : Table where
  slots :=
    let slots := t.slots.modify id fun _ => none
    match s.container with
    | some p => slots.modify p (·.map (Slot.dropChild · id))
    | none => slots
  live := t.live - 1

/-! ## Taking one document out -/

section

variable {t : Table} {id : DocumentId} {s : Slot}

@[simp] theorem size_slots_detach (t : Table) (id : DocumentId) (s : Slot) :
    (t.detach id s).slots.size = t.slots.size := by
  unfold detach
  cases s.container with
  | none => exact Arena.size_modify _ _ _
  | some p => exact (Arena.size_modify _ _ _).trans (Arena.size_modify _ _ _)

@[simp] theorem live_detach (t : Table) (id : DocumentId) (s : Slot) :
    (t.detach id s).live = t.live - 1 := rfl

theorem slot?_modify (slots : Arena DocumentId (Option Slot)) (live : Nat) (id k : DocumentId)
    (f : Option Slot → Option Slot) (hf : f none = none) :
    (⟨slots.modify id f, live⟩ : Table).slot? k =
      if id = k then f ((⟨slots, live⟩ : Table).slot? k) else (⟨slots, live⟩ : Table).slot? k := by
  simp only [slot?, Arena.get?_modify, DocumentId.storeId_index, DocumentId.index_inj]
  split
  · cases slots.get? k with
    | none => simp [hf]
    | some item => simp
  · rfl

theorem slot?_detach (k : DocumentId) : (t.detach id s).slot? k =
    if k = id then none
    else if s.container = some k then (t.slot? k).map (Slot.dropChild · id)
    else t.slot? k := by
  have hemptied : ∀ live, (⟨t.slots.modify id fun _ => none, live⟩ : Table).slot? k =
      if k = id then none else t.slot? k := by
    intro live
    rw [slot?_modify _ _ _ _ _ rfl]
    simp only [eq_comm (a := id)]
    rfl
  unfold detach
  cases s.container with
  | none => simpa using hemptied _
  | some p =>
    rw [slot?_modify _ _ _ _ _ rfl, hemptied]
    by_cases hk : k = id
    · simp [hk]
    · by_cases hp : p = k <;> simp [hk, hp]

theorem occupied_modify_map (t : Table) (p : DocumentId) (f : Slot → Slot) (live : Nat) :
    (⟨t.slots.modify p (·.map f), live⟩ : Table).occupied = t.occupied := by
  rw [occupied, ← length_ids, occupied, ← length_ids, ids_modify_map]

theorem occupied_emptied (h : t.slot? id = some s) (live : Nat) :
    (⟨t.slots.modify id fun _ => none, live⟩ : Table).occupied + 1 = t.occupied := by
  have hitem : t.slots.values[id.index.toNat]? = some (some s) := by
    rw [Arena.values, Array.getElem?_toList]
    exact Option.join_eq_some_iff.mp h
  obtain ⟨hlt, hget⟩ := List.getElem?_eq_some_iff.mp hitem
  have hvalues : (t.slots.modify id fun _ => none).values =
      t.slots.values.set id.index.toNat none := by
    rw [List.set_eq_modify]
    exact Array.toList_modify
  have hpos : 0 < t.slots.values.countP (·.isSome) :=
    List.countP_pos_iff.mpr ⟨some s, List.mem_of_getElem? hitem, rfl⟩
  simp only [occupied, hvalues, List.countP_set hlt, hget]
  simp
  omega

theorem occupied_detach (h : t.slot? id = some s) : (t.detach id s).occupied + 1 = t.occupied := by
  unfold detach
  cases s.container with
  | none => exact occupied_emptied h _
  | some p =>
    rw [← occupied_emptied h t.live]
    exact congrArg (· + 1) (occupied_modify_map ⟨t.slots.modify id fun _ => none, t.live⟩ p _ _)

end

/-! ## Taking documents out in turn -/

/-- Takes documents out of the table one after the other, and right after each of them those
that were directly inside it. -/
def evictEach (t : Table) : List DocumentId → Table
  | [] => t
  | id :: rest =>
    match _ : t.slot? id with
    | none => t.evictEach rest
    | some s => (t.detach id s).evictEach (s.children ++ rest)
termination_by work => (t.occupied, work.length)
decreasing_by
  · exact Prod.Lex.right _ (Nat.lt_succ_self _)
  · exact Prod.Lex.left _ _ (occupied_detach ‹_› ▸ Nat.lt_succ_self _)

/-- Takes a document and all that is inside it out of the table, one after the other. -/
def evictInTurn (t : Table) (id : DocumentId) : Option Document × Table :=
  (t.get? id, t.evictEach [id])

section

variable {t : Table} {id : DocumentId} {s : Slot}

theorem evictEach_nil (t : Table) : t.evictEach [] = t := by
  rw [evictEach]

theorem evictEach_of_none (h : t.slot? id = none) (rest : List DocumentId) :
    t.evictEach (id :: rest) = t.evictEach rest := by
  rw [evictEach]
  split
  · rfl
  · next hs =>
    rw [h] at hs
    cases hs

theorem evictEach_of_slot? (h : t.slot? id = some s) (rest : List DocumentId) :
    t.evictEach (id :: rest) = (t.detach id s).evictEach (s.children ++ rest) := by
  rw [evictEach]
  split
  · next hs =>
    rw [h] at hs
    cases hs
  · next hs =>
    cases h.symm.trans hs
    rfl

theorem evictEach_append (t : Table) (work more : List DocumentId) :
    t.evictEach (work ++ more) = (t.evictEach work).evictEach more := by
  fun_induction t.evictEach work with
  | case1 t => rfl
  | case2 t id rest h ih => rw [List.cons_append, evictEach_of_none h, ih]
  | case3 t id rest s h ih => rw [List.cons_append, evictEach_of_slot? h, ← ih, List.append_assoc]

theorem evictEach_eq_foldl (t : Table) (work : List DocumentId) :
    t.evictEach work = work.foldl (fun t id => (t.evictInTurn id).2) t := by
  induction work generalizing t with
  | nil => exact evictEach_nil t
  | cons id rest ih =>
    rw [← List.singleton_append, evictEach_append, ih]
    rfl

/-- A document goes first, and then each document directly inside it with all that is inside
that. -/
theorem evictInTurn_of_slot? (h : t.slot? id = some s) : t.evictInTurn id =
    (some s.document, s.children.foldl (fun t child => (t.evictInTurn child).2) (t.detach id s)) := by
  rw [evictInTurn, evictEach_of_slot? h, List.append_nil, evictEach_eq_foldl, get?, h]
  rfl

theorem evictInTurn_of_not_contains (h : ¬ t.contains id) : t.evictInTurn id = (none, t) := by
  have hnone : t.slot? id = none := by simpa [contains] using h
  rw [evictInTurn, evictEach_of_none hnone, evictEach_nil, get?, hnone]
  rfl

/-- No document comes back. -/
theorem slot?_evictEach_of_none {k : DocumentId} (h : t.slot? k = none) (work : List DocumentId) :
    (t.evictEach work).slot? k = none := by
  fun_induction t.evictEach work with
  | case1 t => exact h
  | case2 t id rest hid ih => exact ih h
  | case3 t id rest s hid ih =>
    apply ih
    rw [slot?_detach]
    split
    · rfl
    · split
      · rw [h, Option.map_none]
      · exact h

theorem size_slots_evictEach (t : Table) (work : List DocumentId) :
    (t.evictEach work).slots.size = t.slots.size := by
  fun_induction t.evictEach work with
  | case1 t => rfl
  | case2 t id rest h ih => exact ih
  | case3 t id rest s h ih => rw [ih, size_slots_detach]

theorem live_evictEach (hlive : t.live = t.occupied) (work : List DocumentId) :
    (t.evictEach work).live = (t.evictEach work).occupied := by
  fun_induction t.evictEach work with
  | case1 t => exact hlive
  | case2 t id rest h ih => exact ih hlive
  | case3 t id rest s h ih =>
    apply ih
    rw [live_detach, hlive, ← occupied_detach h, Nat.add_sub_cancel]

end

/-! ## What is taken out -/

/-- One of some documents, or inside one of them. -/
def Under (t : Table) (work : List DocumentId) (k : DocumentId) : Prop :=
  ∃ w ∈ work, k = w ∨ t.Within k w

theorem under_iff {t : Table} {work : List DocumentId} {k : DocumentId} :
    t.Under work k ↔ k ∈ work ∨ ∃ p, t.container? k = some p ∧ t.Under work p := by
  constructor
  · rintro ⟨w, hw, rfl | hwithin⟩
    · exact Or.inl hw
    · obtain ⟨p, hp, hpw⟩ := within_iff.mp hwithin
      exact Or.inr ⟨p, hp, w, hw, hpw⟩
  · rintro (hk | ⟨p, hp, w, hw, hpw⟩)
    · exact ⟨k, hk, Or.inl rfl⟩
    · exact ⟨w, hw, Or.inr (within_iff.mpr ⟨p, hp, hpw⟩)⟩

theorem under_of_mem {t : Table} {work : List DocumentId} {k : DocumentId} (h : k ∈ work) :
    t.Under work k :=
  ⟨k, h, Or.inl rfl⟩

/-- The records of a table from which documents are being taken out: the lists of the documents
inside others are right, and only what is still to be taken out has lost its container. -/
structure Severed (t : Table) (work : List DocumentId) : Prop where
  mem_children {p : DocumentId} {s : Slot} (h : t.slot? p = some s) (c : DocumentId) :
    c ∈ s.children ↔ t.container? c = some p
  index_lt {c p : DocumentId} (h : t.container? c = some p) : p.index < c.index
  container {c p : DocumentId} (h : t.container? c = some p) : t.contains p ∨ c ∈ work

theorem Linked.severed {t : Table} (linked : t.Linked) (work : List DocumentId) :
    t.Severed work where
  mem_children := linked.mem_children
  index_lt h := (linked.container h).2
  container h := Or.inl (linked.container h).1

theorem container?_of_slot?_eq_none {t : Table} {id : DocumentId} (h : t.slot? id = none) :
    t.container? id = none := by
  rw [container?, h, Option.bind_none]

theorem container?_detach {t : Table} {id : DocumentId} {s : Slot} (k : DocumentId) :
    (t.detach id s).container? k = if k = id then none else t.container? k := by
  simp only [container?, slot?_detach]
  split
  · rfl
  · split
    · cases t.slot? k with
      | none => rfl
      | some s => rfl
    · rfl

theorem contains_detach {t : Table} {id : DocumentId} {s : Slot} (k : DocumentId) :
    (t.detach id s).contains k ↔ k ≠ id ∧ t.contains k := by
  simp only [contains, slot?_detach]
  split
  · next hk => simp [hk]
  · next hk =>
    split
    · simp [hk]
    · simp [hk]

namespace Severed

variable {t : Table} {id : DocumentId} {rest : List DocumentId}

/-- What holds of a document if it holds of its container holds of all. -/
theorem induction {work : List DocumentId} (severed : t.Severed work) {P : DocumentId → Prop}
    (step : ∀ k, (∀ p, t.container? k = some p → P p) → P k) (k : DocumentId) : P k := by
  induction hn : k.index.toNat using Nat.strongRecOn generalizing k with
  | ind n ih =>
    apply step
    intro p hp
    exact ih p.index.toNat (hn ▸ UInt32.lt_iff_toNat_lt.mp (severed.index_lt hp)) p rfl

theorem eq_of_mem_children {work : List DocumentId} (severed : t.Severed work)
    {p p' c : DocumentId} {s s' : Slot} (hs : t.slot? p = some s) (hs' : t.slot? p' = some s')
    (h : c ∈ s.children) (h' : c ∈ s'.children) : p = p' := by
  have hp := (severed.mem_children hs c).mp h
  have hp' := (severed.mem_children hs' c).mp h'
  exact Option.some.inj (hp.symm.trans hp')

/-- The container of a document is not the one that was taken off the list before. -/
theorem of_none (severed : t.Severed (id :: rest)) (h : t.slot? id = none) :
    t.Severed rest where
  mem_children := severed.mem_children
  index_lt := severed.index_lt
  container := by
    intro c p hp
    apply (severed.container hp).imp_right
    intro hc
    refine (List.mem_cons.mp hc).resolve_left ?_
    rintro rfl
    rw [container?_of_slot?_eq_none h] at hp
    cases hp

theorem under_of_none (severed : t.Severed (id :: rest)) (h : t.slot? id = none)
    {k : DocumentId} (hk : k ≠ id) : t.Under (id :: rest) k ↔ t.Under rest k := by
  induction k using severed.induction with
  | step k ih =>
    rw [under_iff, List.mem_cons, or_iff_right hk, under_iff]
    by_cases hmem : k ∈ rest
    · simp only [hmem, true_or]
    · apply or_congr_right
      apply exists_congr
      intro p
      apply and_congr_right
      intro hp
      apply ih p hp
      rintro rfl
      rcases severed.container hp with hlive | hmem'
      · simp [contains, h] at hlive
      · exact (List.mem_cons.mp hmem').elim hk hmem

theorem detach (severed : t.Severed (id :: rest)) {s : Slot} (h : t.slot? id = some s) :
    (t.detach id s).Severed (s.children ++ rest) where
  mem_children := by
    intro p sp hp c
    rw [slot?_detach] at hp
    rw [container?_detach]
    split at hp
    · cases hp
    · next hpid =>
      split at hp
      · obtain ⟨old, hold, rfl⟩ := Option.map_eq_some_iff.mp hp
        rw [Slot.dropChild, List.mem_filter, severed.mem_children hold]
        by_cases hc : c = id <;> simp [hc]
      · next hcontainer =>
        rw [severed.mem_children hp]
        by_cases hc : c = id
        · subst hc
          rw [container?, h]
          simpa using hcontainer
        · rw [if_neg hc]
  index_lt := by
    intro c p hp
    rw [container?_detach] at hp
    split at hp
    · cases hp
    · exact severed.index_lt hp
  container := by
    intro c p hp
    rw [container?_detach] at hp
    split at hp
    · cases hp
    · next hc =>
      rw [contains_detach, List.mem_append]
      by_cases hpid : p = id
      · exact Or.inr (Or.inl ((severed.mem_children h c).mpr (hpid ▸ hp)))
      · apply (severed.container hp).imp (fun hlive => ⟨hpid, hlive⟩)
        exact fun hmem => Or.inr ((List.mem_cons.mp hmem).resolve_left hc)

theorem under_detach (severed : t.Severed (id :: rest)) {s : Slot} (h : t.slot? id = some s)
    {k : DocumentId} (hk : k ≠ id) :
    t.Under (id :: rest) k ↔ (t.detach id s).Under (s.children ++ rest) k := by
  induction k using severed.induction with
  | step k ih =>
    rw [under_iff, under_iff (t := t.detach id s), container?_detach, if_neg hk, List.mem_cons,
      or_iff_right hk, List.mem_append, severed.mem_children h, or_assoc, or_left_comm]
    apply or_congr_right
    constructor
    · rintro ⟨p, hp, hunder⟩
      by_cases hpid : p = id
      · exact Or.inl (hpid ▸ hp)
      · exact Or.inr ⟨p, hp, (ih p hp hpid).mp hunder⟩
    · rintro (hp | ⟨p, hp, hunder⟩)
      · exact ⟨id, hp, under_of_mem List.mem_cons_self⟩
      · refine ⟨p, hp, ?_⟩
        by_cases hpid : p = id
        · exact under_of_mem (hpid ▸ List.mem_cons_self)
        · exact (ih p hp hpid).mpr hunder

/-- The lists that a document is on are those of its container. -/
theorem filter_children (severed : t.Severed (id :: rest)) {k : DocumentId} {s : Slot}
    (h : t.slot? k = some s) (hid : t.container? id ≠ some k) :
    s.children.filter (· ∉ id :: rest) = s.children.filter (· ∉ rest) := by
  apply List.filter_congr
  intro c hc
  have hne : c ≠ id := by
    rintro rfl
    exact hid ((severed.mem_children h c).mp hc)
  simp [hne]

/-- The lists lose the same documents whether those inside the next one are named or not. -/
theorem map_slot?_detach (severed : t.Severed (id :: rest)) {s : Slot} (h : t.slot? id = some s)
    {k : DocumentId} (hk : k ≠ id) :
    ((t.detach id s).slot? k).map (fun s' =>
        { s' with children := s'.children.filter (· ∉ s.children ++ rest) }) =
      (t.slot? k).map fun s => { s with children := s.children.filter (· ∉ id :: rest) } := by
  rw [slot?_detach, if_neg hk]
  cases hs : t.slot? k with
  | none => simp
  | some sk =>
    have hapart : ∀ c ∈ sk.children, c ∉ s.children :=
      fun c hc hmem => hk (severed.eq_of_mem_children hs h hc hmem)
    have hfilter : (sk.children.filter (· ≠ id)).filter (· ∉ s.children ++ rest) =
        sk.children.filter (· ∉ id :: rest) := by
      rw [List.filter_filter]
      apply List.filter_congr
      intro c hc
      simp [hapart c hc, Bool.and_comm]
    split
    · rw [Option.map_some, Option.map_some, Option.map_some, Slot.dropChild, hfilter]
    · next hcontainer =>
      have hself : sk.children.filter (· ≠ id) = sk.children := by
        apply List.filter_eq_self.mpr
        intro c hc
        apply decide_eq_true
        rintro rfl
        have hc := (severed.mem_children hs c).mp hc
        rw [container?, h] at hc
        exact hcontainer hc
      rw [Option.map_some, Option.map_some, ← hfilter, hself]

/-- All documents to be taken out go with all that is inside them, and the others stay as they
are but for the lists that those were on. -/
theorem slot?_evictEach {work : List DocumentId} (severed : t.Severed work) (k : DocumentId) :
    (t.Under work k → (t.evictEach work).slot? k = none) ∧
      (¬ t.Under work k → (t.evictEach work).slot? k =
        (t.slot? k).map fun s => { s with children := s.children.filter (· ∉ work) }) := by
  fun_induction t.evictEach work with
  | case1 t =>
    refine ⟨?_, ?_⟩
    · rintro ⟨w, hw, -⟩
      cases hw
    · intro _
      cases t.slot? k with
      | none => rfl
      | some s => simp
  | case2 t id rest h ih =>
    obtain ⟨hgone, hkept⟩ := ih (severed.of_none h)
    by_cases hk : k = id
    · subst hk
      exact ⟨fun _ => slot?_evictEach_of_none h rest,
        fun hout => absurd (under_of_mem List.mem_cons_self) hout⟩
    · rw [severed.under_of_none h hk]
      refine ⟨hgone, fun hout => ?_⟩
      rw [hkept hout]
      cases hs : t.slot? k with
      | none => rfl
      | some sk =>
        have hid : t.container? id ≠ some k := by
          rw [container?_of_slot?_eq_none h]
          nofun
        rw [Option.map_some, Option.map_some, severed.filter_children hs hid]
  | case3 t id rest s h ih =>
    obtain ⟨hgone, hkept⟩ := ih (severed.detach h)
    by_cases hk : k = id
    · subst hk
      refine ⟨fun _ => slot?_evictEach_of_none ?_ _,
        fun hout => absurd (under_of_mem List.mem_cons_self) hout⟩
      rw [slot?_detach, if_pos rfl]
    · rw [severed.under_detach h hk]
      refine ⟨hgone, fun hout => ?_⟩
      rw [hkept hout, severed.map_slot?_detach h hk]

end Severed

/-! ## The same at once -/

/-- A store of places is known by what it has for each id. -/
theorem slots_ext {t t' : Table} (fits : t.slots.size ≤ UInt32.size)
    (hsize : t.slots.size = t'.slots.size) (hslot : ∀ k, t.slot? k = t'.slot? k) :
    t.slots = t'.slots := by
  have hget : ∀ (t : Table) {i : Nat} (h : i < t.slots.items.size), i < UInt32.size →
      t.slot? (Arena.idOf i) = t.slots.items[i] := by
    intro t i h hi
    rw [slot?, Arena.get?, Arena.index_idOf hi, Array.getElem?_eq_getElem h, Option.join_some]
  apply congrArg Arena.mk
  apply Array.ext hsize
  intro i hi hi'
  have hfit : i < UInt32.size := Nat.lt_of_lt_of_le hi fits
  rw [← hget t hi hfit, ← hget t' hi' hfit, hslot]

namespace Linked

variable {t : Table} (linked : t.Linked)

include linked

theorem live_eq_occupied : t.live = t.occupied := by
  rw [linked.live_eq, length_ids, occupied]

/-- Documents that go one after the other with all that is inside them may as well go at once. -/
theorem evictEach_eq_without {work gone : List DocumentId} (nodup : gone.Nodup)
    (hgone : ∀ k, k ∈ gone ↔ t.contains k ∧ t.Under work k) :
    t.evictEach work = t.without gone := by
  have after : (t.without gone).Linked := by
    apply linked.without nodup fun k hk => ((hgone k).mp hk).1
    intro c p hp hmem
    obtain ⟨s, hs, -⟩ := container?_eq_some.mp hp
    exact (hgone c).mpr
      ⟨contains_of_slot? hs, under_iff.mpr (Or.inr ⟨p, hp, ((hgone p).mp hmem).2⟩)⟩
  have hsize : (t.evictEach work).slots.size = (t.without gone).slots.size := by
    rw [size_slots_evictEach, size_slots_without]
  have hslot : ∀ k, (t.evictEach work).slot? k = (t.without gone).slot? k := by
    intro k
    obtain ⟨hout, hkept⟩ := (linked.severed work).slot?_evictEach k
    rw [slot?_without]
    cases hs : t.slot? k with
    | none =>
      rw [slot?_evictEach_of_none hs]
      split <;> rfl
    | some s =>
      by_cases hunder : t.Under work k
      · rw [if_pos ((hgone k).mpr ⟨contains_of_slot? hs, hunder⟩), hout hunder]
      · rw [if_neg fun hmem => hunder ((hgone k).mp hmem).2, hkept hunder, hs]
        have hfilter : s.children.filter (· ∉ work) = s.children.filter (· ∉ gone) := by
          apply List.filter_congr
          intro c hc
          have hcontainer := (linked.mem_children hs c).mp hc
          obtain ⟨sc, hsc, -⟩ := container?_eq_some.mp hcontainer
          -- the container of `c` stays, so that `c` goes only if it is named
          have hmem : c ∈ gone ↔ c ∈ work := by
            rw [hgone, and_iff_right (contains_of_slot? hsc), under_iff, or_iff_left]
            rintro ⟨p, hp, hp'⟩
            cases hcontainer.symm.trans hp
            exact hunder hp'
          simp only [hmem]
        simp only [Option.map_some, hfilter]
  have hslots := slots_ext (hsize ▸ after.fits) hsize hslot
  have hlive : (t.evictEach work).live = (t.without gone).live := by
    rw [live_evictEach linked.live_eq_occupied, after.live_eq_occupied, occupied, occupied, hslots]
  exact congrArg₂ Table.mk hslots hlive

theorem mem_subtree_iff {id k : DocumentId} :
    k ∈ t.subtree id ↔ t.contains k ∧ (k = id ∨ t.Within k id) := by
  rw [← linked.mem_inside, inside, List.mem_filter, decide_eq_true_eq]
  constructor
  · intro h
    refine ⟨linked.contains_of_mem_subtree h, ?_⟩
    by_cases hk : k = id
    · exact Or.inl hk
    · exact Or.inr ⟨h, hk⟩
  · rintro ⟨hlive, rfl | ⟨h, -⟩⟩
    · obtain ⟨s, hs⟩ := contains_iff.mp hlive
      exact (mem_subtree linked.fits).mpr ⟨s, hs, Or.inl rfl⟩
    · exact h

/-- Taking a document and all that is inside it out in turn is evicting it. -/
theorem evictInTurn_eq (id : DocumentId) : t.evictInTurn id = t.evict id := by
  unfold Table.evict
  cases hd : t.get? id with
  | none =>
    apply evictInTurn_of_not_contains
    simpa [get?, contains] using hd
  | some d =>
    rw [evictInTurn, hd, linked.evictEach_eq_without (linked.nodup_subtree id)]
    intro k
    rw [linked.mem_subtree_iff, Under]
    simp

end Linked

/-! ## What is left of a table -/

/-- The second table is the first one without a document and all that is inside it. -/
structure Evicted (t : Table) (id : DocumentId) (t' : Table) : Prop where
  contains_iff (k : DocumentId) :
    t'.contains k ↔ t.contains k ∧ ¬ (k = id ∨ t.Within k id)
  /-- The count goes down by the number of documents that are gone. -/
  size : ∃ gone : List DocumentId, gone.Nodup ∧ (∀ k, k ∈ gone ↔ k = id ∨ t.Within k id) ∧
    t'.size + gone.length = t.size
  /-- The container, if it has one, loses the document and nothing else. -/
  container {p : DocumentId} (h : t.container? id = some p) :
    ∃ s, t.slot? p = some s ∧
      t'.slot? p = some { s with children := s.children.erase id }
  kept {k : DocumentId} (hlive : t'.contains k) (h : t.container? id ≠ some k) :
    t'.slot? k = t.slot? k

theorem under_singleton {t : Table} {id k : DocumentId} :
    t.Under [id] k ↔ k = id ∨ t.Within k id := by
  simp [Under]

namespace Linked

variable {t : Table} (linked : t.Linked)

include linked

theorem not_within_of_container {p id : DocumentId} (h : t.container? id = some p) :
    ¬ (p = id ∨ t.Within p id) := by
  have hlt := (linked.container h).2
  rintro (rfl | hwithin)
  · exact UInt32.lt_irrefl _ hlt
  · exact UInt32.lt_irrefl _ (UInt32.lt_trans hlt (linked.index_lt_of_within hwithin))

theorem length_subtree_le (id : DocumentId) : (t.subtree id).length ≤ t.live := by
  have hlen := length_filter_not_mem_add_length linked.nodup_ids (linked.nodup_subtree id)
    fun k hk => (mem_ids linked.fits).mpr (linked.contains_of_mem_subtree hk)
  rw [linked.live_eq, ← hlen]
  exact Nat.le_add_left _ _

theorem evicted {id : DocumentId} (hlive : t.contains id) :
    t.Evicted id (t.evictEach [id]) := by
  have heq : t.evictEach [id] = t.without (t.subtree id) := by
    apply linked.evictEach_eq_without (linked.nodup_subtree id)
    intro k
    rw [linked.mem_subtree_iff, under_singleton]
  have hslot := (linked.severed [id]).slot?_evictEach
  simp only [under_singleton] at hslot
  have hcontains : ∀ k, (t.evictEach [id]).contains k ↔
      t.contains k ∧ ¬ (k = id ∨ t.Within k id) := by
    intro k
    rw [heq, contains_without, linked.mem_subtree_iff]
    tauto
  constructor
  case contains_iff => exact hcontains
  case size =>
    refine ⟨t.subtree id, linked.nodup_subtree id, ?_, ?_⟩
    · intro k
      rw [linked.mem_subtree_iff, and_iff_right_iff_imp]
      rintro (rfl | h)
      · exact hlive
      · exact contains_of_within h
    · rw [heq]
      exact Nat.sub_add_cancel (linked.length_subtree_le id)
  case container =>
    intro p hp
    obtain ⟨s, hs⟩ := contains_iff.mp (linked.container hp).1
    have hnodup := nodup_childrenOf linked p
    simp only [childrenOf, hs, Option.map_some, Option.getD_some] at hnodup
    have hfilter : s.children.filter (· ∉ [id]) = s.children.erase id := by
      rw [hnodup.erase_eq_filter]
      apply List.filter_congr
      intro c _
      by_cases hc : c = id <;> simp [hc]
    refine ⟨s, hs, ?_⟩
    rw [(hslot p).2 (linked.not_within_of_container hp), hs, Option.map_some, hfilter]
  case kept =>
    intro k hk h
    obtain ⟨hklive, hout⟩ := (hcontains k).mp hk
    obtain ⟨s, hs⟩ := contains_iff.mp hklive
    have hfilter : s.children.filter (· ∉ [id]) = s.children := by
      apply List.filter_eq_self.mpr
      intro c hc
      apply decide_eq_true
      rw [List.mem_singleton]
      rintro rfl
      exact h ((linked.mem_children hs c).mp hc)
    rw [(hslot k).2 hout, hs, Option.map_some, hfilter]

end Linked

/-- In every table that calls on the empty one reach before the ids of 32 bits run out, a
document can be evicted with all that is inside it, whether at once or one after the other; the
rest of the table stays as it is. Where there is no document, nothing happens. -/
theorem evict_run (calls : List Call) (few : (empty.run calls).2.length ≤ UInt32.size)
    (id : DocumentId) :
    let t := (empty.run calls).1
    (∀ d, t.get? id = some d → ∃ t', t.evict id = (some d, t') ∧ t.evictInTurn id = (some d, t') ∧
      t.Evicted id t') ∧
    (¬ t.contains id → t.evict id = (none, t) ∧ t.evictInTurn id = (none, t)) := by
  intro t
  obtain ⟨linked, -⟩ := linked_empty.run_spec calls (by simpa using few)
  rw [← linked.evictInTurn_eq]
  constructor
  · intro d hd
    refine ⟨t.evictEach [id], ?_, ?_, linked.evicted (contains_of_get? hd)⟩
    · rw [evictInTurn, hd]
    · rw [evictInTurn, hd]
  · intro hdead
    exact ⟨evictInTurn_of_not_contains hdead, evictInTurn_of_not_contains hdead⟩

/-- A page with a document inside it that has another one inside, and one more beside that. -/
def nestedPage : List Call :=
  let d := Document.bare ⟨"page.html"⟩ .html "" Markup.Tree.empty none
  [.insert d, .insertInline ⟨0⟩ d, .insertInline ⟨1⟩ d, .insertInline ⟨0⟩ d]

theorem evict_run_nestedPage :
    let t := (empty.run nestedPage).1
    (empty.run nestedPage).2.length ≤ UInt32.size ∧ t.evict ⟨7⟩ = (none, t) ∧
      ∃ d t', t.get? ⟨1⟩ = some d ∧ t.evict ⟨1⟩ = (some d, t') ∧ t.Evicted ⟨1⟩ t' ∧
        ¬ t'.contains ⟨2⟩ ∧ t'.childrenOf ⟨0⟩ = [⟨3⟩] := by
  intro t
  have few : (empty.run nestedPage).2.length ≤ UInt32.size := by decide +kernel
  have live : (t.get? ⟨1⟩).isSome := by decide +kernel
  have inner : t.container? ⟨2⟩ = some ⟨1⟩ := by decide +kernel
  have outer : t.container? ⟨1⟩ = some ⟨0⟩ := by decide +kernel
  have children : t.childrenOf ⟨0⟩ = [⟨1⟩, ⟨3⟩] := by decide +kernel
  obtain ⟨d, hd⟩ := Option.isSome_iff_exists.mp live
  obtain ⟨hlive, -⟩ := evict_run nestedPage few ⟨1⟩
  obtain ⟨-, hdead⟩ := evict_run nestedPage few ⟨7⟩
  obtain ⟨t', hevict, -, evicted⟩ := hlive d hd
  refine ⟨few, (hdead (by decide +kernel)).1, d, t', hd, hevict, evicted, ?_, ?_⟩
  · intro h
    exact ((evicted.contains_iff ⟨2⟩).mp h).2 (Or.inr (Relation.TransGen.single inner))
  · obtain ⟨s, hs, hs'⟩ := evicted.container outer
    have hchildren : s.children = [⟨1⟩, ⟨3⟩] := by
      rw [← children, childrenOf, hs, Option.map_some, Option.getD_some]
    rw [childrenOf, hs', Option.map_some, Option.getD_some, hchildren]
    rfl

end PageLint.Table
