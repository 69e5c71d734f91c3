import PageLint.Toml.Number
/-!
# Tables under construction

A table is put together from the keys of its lines and the headers of a document.
How a table came to be decides what may still be added to it.
-/

namespace PageLint.Toml

/-- How a table came to be. -/
inductive Origin where
  /-- By a header of its own, which takes in no dotted keys from elsewhere. -/
  | header
  /-- By a header of a table in it, and it may still get its own header. -/
  | implied
  /-- By a dotted key, and more dotted keys may go into it. -/
  | dotted
deriving DecidableEq

/-- What a key stands for as long as tables may grow. -/
inductive Draft where
  | value (v : Toml)
  | table (origin : Origin) (entries : List (String × Draft))
  /-- The tables of headers in double brackets. -/
  | tables (elements : List Draft)

/-- The keys of a table under construction. -/
abbrev Drafts := List (String × Draft)

namespace Drafts

/-- The table with a key that it holds already or does not. -/
def put (name : String) (draft : Draft) (entries : Drafts) : Drafts :=
  if (entries.lookup name).isSome then
    entries.map fun e => if e.1 = name then (name, draft) else e
  else entries ++ [(name, draft)]

/-- Changes the table at the end of a path. Tables on the way that are missing are
made; of tables in double brackets the path goes into the last. The change is told
how the table came to be. -/
def changeAt (made : Origin) (change : Origin → Drafts → Option Drafts) :
    List String → Origin → Drafts → Option Drafts
  | [], origin, entries => change origin entries
  | name :: path, _, entries => do
    match entries.lookup name with
    | none =>
      let inner ← changeAt made change path made []
      pure (put name (.table made inner) entries)
    | some (.value _) => none
    | some (.table origin inner) =>
      if made = .dotted && origin = .header then none
      let inner ← changeAt made change path origin inner
      pure (put name (.table origin inner) entries)
    | some (.tables elements) =>
      match elements.getLast? with
      | some (.table origin inner) =>
        let inner ← changeAt made change path origin inner
        pure (put name (.tables (elements.dropLast ++ [.table origin inner])) entries)
      | _ => none

/-- Gives a value to a key that has none. The tables of a dotted key must be made by
dotted keys. -/
def define (entries : Drafts) (key : List String × Toml) : Option Drafts :=
  let path := key.1.dropLast
  changeAt .dotted (fun origin inner => do
    let name ← key.1.getLast?
    if path ≠ [] && origin ≠ .dotted then none
    if (inner.lookup name).isSome then none
    pure (inner ++ [(name, .value key.2)])) path .header entries

/-- The table of some keys with their values. -/
def ofKeys (keys : List (List String × Toml)) : Option Drafts := keys.foldlM define []

/-- Adds the table of a header, with the keys below the header. -/
def addTable (entries : Drafts) (path : List String) (keys : List (List String × Toml)) :
    Option Drafts :=
  changeAt .implied (fun _ inner => do
    let name ← path.getLast?
    let start ← match inner.lookup name with
      | none => some []
      | some (.table .implied start) => some start
      | some _ => none
    let filled ← keys.foldlM define start
    pure (put name (.table .header filled) inner)) path.dropLast .header entries

/-- Adds the table of a header in double brackets, with the keys below the header,
after those of the same name. -/
def addElement (entries : Drafts) (path : List String) (keys : List (List String × Toml)) :
    Option Drafts :=
  changeAt .implied (fun _ inner => do
    let name ← path.getLast?
    let earlier ← match inner.lookup name with
      | none => some []
      | some (.tables earlier) => some earlier
      | some _ => none
    let filled ← ofKeys keys
    pure (put name (.tables (earlier ++ [.table .header filled])) inner))
    path.dropLast .header entries

end Drafts

mutual

/-- The value of a key when nothing more is to come. -/
def Draft.finish : Draft → Toml
  | .value v => v
  | .table _ entries => .table (finishEntries entries)
  | .tables elements => .array (finishElements elements)

/-- The keys of a table when nothing more is to come. -/
def finishEntries : List (String × Draft) → List (String × Toml)
  | [] => []
  | (name, draft) :: entries => (name, draft.finish) :: finishEntries entries

/-- The tables of headers in double brackets when nothing more is to come. -/
def finishElements : List Draft → List Toml
  | [] => []
  | draft :: elements => draft.finish :: finishElements elements

end

end PageLint.Toml
