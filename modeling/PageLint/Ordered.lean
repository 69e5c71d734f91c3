/-!
# Sorted lists as sets

A set is kept as the sorted list of its elements, each once, so equal sets are
equal lists.
-/

namespace PageLint.Ordered

variable {α : Type}

/-- The set with one more element, under an order of the elements. An element
equal to it in that order is replaced. -/
def insert (order : α → α → Ordering) (a : α) : List α → List α
  | [] => [a]
  | b :: bs =>
    match order a b with
    | .lt => a :: b :: bs
    | .eq => a :: bs
    | .gt => b :: insert order a bs

def ofList (order : α → α → Ordering) (as : List α) : List α :=
  as.foldl (fun set a => insert order a set) []

theorem insert_ne_nil (order : α → α → Ordering) (a : α) (bs : List α) :
    insert order a bs ≠ [] := by
  cases bs with
  | nil => simp [insert]
  | cons b bs =>
    unfold insert
    split <;> simp

/-- The set of some names, in the order of their bytes. -/
def ofNames (names : List String) : List String :=
  ofList (fun s t => compareOfLessAndEq s t) names

/-- The set of some pairs, one for each name, in the order of their names. -/
def ofPairs (pairs : List (String × String)) : List (String × String) :=
  ofList (fun p q => compareOfLessAndEq p.1 q.1) pairs

end PageLint.Ordered
