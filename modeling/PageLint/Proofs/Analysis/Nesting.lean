import Mathlib.Data.List.Forall2
import PageLint.Page
import PageLint.Proofs.Analysis.Journal
import PageLint.Proofs.Table.Operations

/-!
# Documents inside documents

The documents of an analysis are made, in the order of their ids, of the journals
of the page and of all that is inside it. An analysis fails only where the reading
of some document does.
-/

namespace PageLint

namespace Table

theorem get?_insert (t : Table) (d : Document) (id : DocumentId) :
    (t.insert d).1.get? id = if id.index.toNat = t.slots.size then some d else t.get? id := by
  change (((t.slots.alloc _).1.get? id).join).map _ = _
  rw [Arena.get?_alloc, DocumentId.storeId_index]
  split
  · rfl
  · rfl

theorem get?_nextId_empty (d : Document) : (empty.insert d).1.get? empty.nextId = some d := by
  rw [get?_insert]
  rfl

theorem get?_insertInline {t t' : Table} {container id : DocumentId} {d : Document}
    (h : t.insertInline container d = .ok (t', id)) (other : DocumentId) :
    t'.get? other = if other.index.toNat = t.slots.size then some d else t.get? other := by
  obtain ⟨hc, rfl⟩ := insertInline_eq_ok h
  rw [insertInline_of_contains d hc] at h
  cases h
  have hget : ∀ slot : Option (Option Slot),
      ((slot.map fun s => s.map fun s => Slot.addChild s t.nextId).join).map (·.document) =
        slot.join.map (·.document) := by
    rintro (_ | _ | s)
    all_goals rfl
  change ((((t.slots.alloc _).1.modify container _).get? other).join).map _ = _
  rw [Arena.get?_modify, Arena.get?_alloc, DocumentId.storeId_index, DocumentId.storeId_index]
  split
  · rw [hget]
    split
    · rfl
    · rfl
  · split
    · rfl
    · rfl

/-- Every document that was ever added is there, and `p` holds of it. -/
def Every (t : Table) (p : Document → Prop) : Prop :=
  ∀ id : DocumentId, id.index.toNat < t.slots.size → ∃ d, t.get? id = some d ∧ p d

theorem every_empty (p : Document → Prop) : empty.Every p := fun _ h => absurd h (Nat.not_lt_zero _)

/-- A document that is added is the one at the last place. -/
theorem Every.of_get? {t t' : Table} {p : Document → Prop} (every : t.Every p) {d : Document}
    (hd : p d) (size : t'.slots.size = t.slots.size + 1)
    (get : ∀ id : DocumentId,
      t'.get? id = if id.index.toNat = t.slots.size then some d else t.get? id) : t'.Every p := by
  intro id hlt
  rw [get]
  split
  · exact ⟨d, rfl, hd⟩
  · exact every id (by omega)

theorem Every.contains {t : Table} {p : Document → Prop} (every : t.Every p) {id : DocumentId}
    (h : id.index.toNat < t.slots.size) : t.contains id := by
  obtain ⟨d, hd, -⟩ := every id h
  exact contains_of_get? hd

/-- The next id is in the table once it is given out, even if ids start over. -/
theorem index_nextId_le (t : Table) : t.nextId.index.toNat ≤ t.slots.size :=
  Nat.le_trans (Nat.le_of_eq UInt32.toNat_ofNat') (Nat.mod_le _ _)

end Table

namespace Analyzer

/-- The journals of documents that are inside another, each followed by those of the
documents inside it. -/
def journals (a : Analyzer) (url : Path) : Nat → List InlineDocument → Except Fault (List Journal)
  | _, [] => .ok []
  | 0, _ :: _ => .error .nestingTooDeep
  | depth + 1, children => do
    let js ← children.mapM fun child => do
      let j ← a.journal url child.language child.contents (some child.offset)
      let inner ← a.journals url depth j.inner
      pure (j :: inner)
    pure js.flatten

/-- A document was made of a journal; it has a container if it has an offset. -/
def MadeOf (d : Document) (j : Journal) : Prop :=
  ∃ container, d = j.document container ∧ container.isSome = j.parsed.offset.isSome

theorem exists_journal_of_mem {ds : List Document} {js : List Journal}
    (made : List.Forall₂ MadeOf ds js) {d : Document} (h : d ∈ ds) : ∃ j ∈ js, MadeOf d j := by
  induction made with
  | nil => cases h
  | cons hd made ih =>
    rcases List.mem_cons.mp h with rfl | h
    · exact ⟨_, List.mem_cons_self, hd⟩
    · obtain ⟨j, hj, hmade⟩ := ih h
      exact ⟨j, List.mem_cons_of_mem _ hj, hmade⟩

/-- Adds a document inside a container, with all that is inside it. -/
def addChild (a : Analyzer) (depth : Nat) (container : DocumentId) (t : Table)
    (child : InlineDocument) : Except Fault Table :=
  match t.get? container with
  | none => .ok t
  | some outer => do
    let document ← a.build outer.url child.language child.contents (some child.offset)
      [.backreference container]
    let (t, id) ← t.insertInline container document
    a.addInline depth t id document.inlineDocuments

theorem addInline_nil (a : Analyzer) (depth : Nat) (t : Table) (container : DocumentId) :
    a.addInline depth t container [] = .ok t := by
  cases depth <;> rfl

theorem addInline_cons (a : Analyzer) (depth : Nat) (t : Table) (container : DocumentId)
    (child : InlineDocument) (children : List InlineDocument) :
    a.addInline (depth + 1) t container (child :: children) =
      (a.addChild depth container t child).bind
        fun t => a.addInline (depth + 1) t container children := by
  cases children with
  | nil => rfl
  | cons next children => rfl

/-- The journal of a document, then those of all documents inside it. -/
def withInner (a : Analyzer) (url : Path) (depth : Nat) (read : Except Fault Journal) :
    Except Fault (List Journal) := do
  let j ← read
  let inner ← a.journals url depth j.inner
  pure (j :: inner)

theorem journals_nil (a : Analyzer) (url : Path) (depth : Nat) :
    a.journals url depth [] = .ok [] := by
  cases depth <;> rfl

theorem journals_cons (a : Analyzer) (url : Path) (depth : Nat) (child : InlineDocument)
    (children : List InlineDocument) :
    a.journals url (depth + 1) (child :: children) =
      (a.withInner url depth
        (a.journal url child.language child.contents (some child.offset))).bind fun js =>
          (a.journals url (depth + 1) children).bind fun others => .ok (js ++ others) := by
  have hcons : ∀ children, a.journals url (depth + 1) children =
      (children.mapM fun child => a.withInner url depth
        (a.journal url child.language child.contents (some child.offset))).bind
          fun js => .ok js.flatten := by
    intro children
    cases children with
    | nil => rfl
    | cons child children => rfl
  rw [hcons, hcons, List.mapM_cons]
  cases a.withInner url depth
      (a.journal url child.language child.contents (some child.offset)) with
  | error e => rfl
  | ok js =>
    change Except.bind (Except.bind (List.mapM _ children) _) _ = Except.bind (Except.bind _ _) _
    cases children.mapM fun child => a.withInner url depth
        (a.journal url child.language child.contents (some child.offset)) with
    | error e => rfl
    | ok others => rfl

/-- What adding documents to a table comes to, when reading them gives `read`. -/
def Adds (url : Path) (t : Table) (read : Except Fault (List Journal))
    (added : Except Fault Table) : Prop :=
  match read with
  | .error fault => added = .error fault
  | .ok js => ∃ t' ds, added = .ok t' ∧ t'.Every (·.url = url) ∧ t.slots.size ≤ t'.slots.size ∧
      t'.entries.map (·.2) = t.entries.map (·.2) ++ ds ∧ List.Forall₂ MadeOf ds js

theorem adds_nil {url : Path} {t : Table} (all : t.Every (·.url = url)) : Adds url t (.ok []) (.ok t) :=
  ⟨t, [], rfl, all, Nat.le_refl _, (List.append_nil _).symm, List.Forall₂.nil⟩

theorem Adds.bind {url : Path} {t : Table} {read others : Except Fault (List Journal)}
    {added : Except Fault Table} {more : Table → Except Fault Table} (h : Adds url t read added)
    (hmore : ∀ t' : Table, t'.Every (·.url = url) → t.slots.size ≤ t'.slots.size →
      Adds url t' others (more t')) :
    Adds url t (read.bind fun js => others.bind fun js' => .ok (js ++ js')) (added.bind more) := by
  cases read with
  | error e =>
    rw [show added = .error e from h]
    rfl
  | ok js =>
    obtain ⟨t', ds, rfl, all, size, entries, made⟩ := h
    have h' := hmore t' all size
    change Adds url t (others.bind _) (more t')
    cases others with
    | error e => exact h'
    | ok js' =>
      obtain ⟨t'', ds', hadded, all', size', entries', made'⟩ := h'
      refine ⟨t'', ds ++ ds', hadded, all', Nat.le_trans size size', ?_,
        List.rel_append made made'⟩
      rw [entries', entries, List.append_assoc]

/-- A document that is put into a table, followed by what is inside it. -/
theorem adds_cons {url : Path} {t t' : Table} {j : Journal} {container : Option DocumentId}
    {id : DocumentId} {inner : Except Fault (List Journal)} {added : Except Fault Table}
    (hoffset : container.isSome = j.parsed.offset.isSome)
    (entries : t'.entries = t.entries ++ [(id, j.document container)])
    (size : t.slots.size ≤ t'.slots.size) (h : Adds url t' inner added) :
    Adds url t (inner.bind fun js => .ok (j :: js)) added := by
  cases inner with
  | error e => exact h
  | ok js =>
    obtain ⟨t'', ds, hadded, all, size', entries', made⟩ := h
    refine ⟨t'', j.document container :: ds, hadded, all, Nat.le_trans size size', ?_,
      List.Forall₂.cons ⟨container, rfl, hoffset⟩ made⟩
    rw [entries', entries, List.map_append, List.append_assoc]
    rfl

theorem adds_addChild {a : Analyzer} {url : Path} {depth : Nat}
    (ih : ∀ (t : Table) (container : DocumentId) (children : List InlineDocument), t.Every (·.url = url) →
      container.index.toNat < t.slots.size →
      Adds url t (a.journals url depth children) (a.addInline depth t container children))
    {t : Table} (all : t.Every (·.url = url)) {container : DocumentId}
    (hcontainer : container.index.toNat < t.slots.size) (child : InlineDocument) :
    Adds url t
      (a.withInner url depth (a.journal url child.language child.contents (some child.offset)))
      (a.addChild depth container t child) := by
  obtain ⟨outer, houter, rfl⟩ := all container hcontainer
  have hbuild := a.build_eq outer.url child.language child.contents (some child.offset)
    (some container)
  rw [addChild, houter, withInner]
  simp only
  change a.build _ _ _ _ [.backreference container] = _ at hbuild
  rw [hbuild]
  cases hj : a.journal outer.url child.language child.contents (some child.offset) with
  | error e => rfl
  | ok j =>
    have hinsert := Table.insertInline_of_contains (j.document (some container))
      (all.contains hcontainer)
    obtain ⟨hurl, hoffset⟩ := parsed_of_journal hj
    have hall := all.of_get? ((j.url_document _).trans hurl)
      (Table.size_slots_insertInline hinsert) (Table.get?_insertInline hinsert)
    have hchild := ih _ t.nextId j.inner hall (by
      rw [Table.size_slots_insertInline hinsert]
      exact Nat.lt_succ_of_le t.index_nextId_le)
    have hadds := adds_cons (by rw [hoffset]; rfl) (Table.entries_insertInline hinsert)
      (Nat.le_trans (Nat.le_succ _) (Nat.le_of_eq (Table.size_slots_insertInline hinsert).symm))
      hchild
    change Adds outer.url t _ ((t.insertInline container (j.document (some container))).bind _)
    rw [hinsert]
    exact hadds

theorem adds_addInline (a : Analyzer) (url : Path) (depth : Nat) (t : Table)
    (container : DocumentId) (children : List InlineDocument) (all : t.Every (·.url = url))
    (hcontainer : container.index.toNat < t.slots.size) :
    Adds url t (a.journals url depth children) (a.addInline depth t container children) := by
  induction depth generalizing t container children with
  | zero =>
    cases children with
    | nil =>
      rw [journals_nil, addInline_nil]
      exact adds_nil all
    | cons child children =>
      rw [journals]
      rfl
  | succ depth ihdepth =>
    induction children generalizing t with
    | nil =>
      rw [journals_nil, addInline_nil]
      exact adds_nil all
    | cons child children ihchildren =>
      rw [journals_cons, addInline_cons]
      refine (adds_addChild ihdepth all hcontainer child).bind fun t' all' size => ?_
      exact ihchildren t' all' (Nat.lt_of_lt_of_le hcontainer size)

end Analyzer

namespace Page

/-- The journals of a page and of all documents inside it. -/
def journals (url : Path) (source : String) (mode : ResolutionMode) (more : List Scanner) :
    Except Fault (List Journal) :=
  let a : Analyzer := ⟨Analyzer.pageScanners ++ more, mode⟩
  a.withInner url Analyzer.nestingLimit (a.journal url .html source none)

theorem analyze_eq (url : Path) (source : String) (mode : ResolutionMode) (more : List Scanner) :
    analyze url source mode more =
      let a : Analyzer := ⟨Analyzer.pageScanners ++ more, mode⟩
      (a.journal url .html source none).bind fun j =>
        (a.addInline Analyzer.nestingLimit (Table.empty.insert (j.document none)).1
          Table.empty.nextId j.inner).bind fun t =>
            .ok ⟨t, Database.inMemory.add (SourceFile.ofContent url source),
              Table.empty.nextId⟩ := by
  rw [analyze, Analyzer.analyze]
  simp only
  generalize (⟨Analyzer.pageScanners ++ more, mode⟩ : Analyzer) = a
  have hbuild := a.build_eq url .html source none none
  change a.build url .html source none [] = _ at hbuild
  rw [hbuild]
  cases a.journal url .html source none with
  | error e => rfl
  | ok j =>
    change Except.bind (Except.bind (a.addInline _ _ Table.empty.nextId j.inner) _) _ =
      Except.bind (a.addInline _ (Table.empty.insert (j.document none)).1 _ j.inner) _
    cases a.addInline Analyzer.nestingLimit (Table.empty.insert (j.document none)).1
      Table.empty.nextId j.inner with
    | error e => rfl
    | ok t => rfl

theorem journals_of_inner {url : Path} {source : String} {mode : ResolutionMode}
    {more : List Scanner} {j : Journal} {js : List Journal}
    (hj : (⟨Analyzer.pageScanners ++ more, mode⟩ : Analyzer).journal url .html source none = .ok j)
    (hinner : (⟨Analyzer.pageScanners ++ more, mode⟩ : Analyzer).journals url
      Analyzer.nestingLimit j.inner = .ok js) :
    journals url source mode more = .ok (j :: js) := by
  rw [journals, hj]
  change Except.bind (Analyzer.journals _ url _ j.inner) _ = _
  rw [hinner]
  rfl

/-- A page is analyzed once it is read and all that is inside it is added. -/
theorem analyze_of_addInline {url : Path} {source : String} {mode : ResolutionMode}
    {more : List Scanner} {j : Journal} {t : Table}
    (hj : (⟨Analyzer.pageScanners ++ more, mode⟩ : Analyzer).journal url .html source none = .ok j)
    (hadd : (⟨Analyzer.pageScanners ++ more, mode⟩ : Analyzer).addInline Analyzer.nestingLimit
      (Table.empty.insert (j.document none)).1 Table.empty.nextId j.inner = .ok t) :
    analyze url source mode more = .ok
      ⟨t, Database.inMemory.add (SourceFile.ofContent url source), Table.empty.nextId⟩ := by
  rw [analyze_eq]
  simp only [hj, Except.bind, hadd]

/-- An analysis fails where the reading does; otherwise its documents are made of the
journals, in the order of the ids. -/
theorem analyze_of_journals (url : Path) (source : String) (mode : ResolutionMode)
    (more : List Scanner) :
    match journals url source mode more with
    | .error fault => analyze url source mode more = .error fault
    | .ok js => ∃ page, analyze url source mode more = .ok page ∧
        List.Forall₂ Analyzer.MadeOf (page.table.entries.map (·.2)) js := by
  rw [analyze_eq, journals, Analyzer.withInner]
  simp only
  generalize (⟨Analyzer.pageScanners ++ more, mode⟩ : Analyzer) = a
  cases hj : a.journal url .html source none with
  | error e => rfl
  | ok j =>
    obtain ⟨hurl, hoffset⟩ := Analyzer.parsed_of_journal hj
    have hall := (Table.every_empty (·.url = url)).of_get? (d := j.document none)
      ((j.url_document _).trans hurl)
      (Table.size_slots_insert _ _) (Table.get?_insert _ _)
    have hsome : (none : Option DocumentId).isSome = j.parsed.offset.isSome := by
      rw [hoffset]
      rfl
    have hadds := Analyzer.adds_cons hsome (Table.entries_insert Table.empty (j.document none))
      (Nat.zero_le _) (a.adds_addInline url Analyzer.nestingLimit _ (Table.nextId Table.empty)
        j.inner hall Nat.one_pos)
    change match (a.journals url Analyzer.nestingLimit j.inner).bind fun js => .ok (j :: js) with
      | .error fault => Except.bind (a.addInline _ _ _ j.inner) _ = _
      | .ok js => ∃ page, Except.bind (a.addInline _ _ _ j.inner) _ = _ ∧ _
    generalize ((a.journals url Analyzer.nestingLimit j.inner).bind fun js => .ok (j :: js)) =
      read at hadds ⊢
    cases read with
    | error e =>
      rw [show a.addInline _ _ _ j.inner = .error e from hadds]
      rfl
    | ok js =>
      obtain ⟨t', ds, hadded, -, -, entries, made⟩ := hadds
      rw [hadded]
      refine ⟨_, rfl, ?_⟩
      rw [show t'.entries.map (·.2) = ds from entries]
      exact made

end Page

end PageLint
