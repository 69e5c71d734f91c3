/-!
# Text as characters and bytes

Places in a text are counted in the bytes of its UTF-8 form, columns in
characters. A text is worked on as its list of characters; `byteLength` is the
bridge to byte offsets.
-/

namespace PageLint.Text

/-- The number of bytes of the UTF-8 form of `cs`. -/
def byteLength (cs : List Char) : Nat :=
  cs.foldr (fun c n => c.utf8Size + n) 0

@[simp] theorem byteLength_nil : byteLength [] = 0 := rfl

@[simp] theorem byteLength_cons (c : Char) (cs : List Char) :
    byteLength (c :: cs) = c.utf8Size + byteLength cs := rfl

@[simp] theorem byteLength_append (cs ds : List Char) :
    byteLength (cs ++ ds) = byteLength cs + byteLength ds := by
  induction cs with
  | nil => simp
  | cons c cs ih => simp [ih, Nat.add_assoc]

theorem length_le_byteLength (cs : List Char) : cs.length ≤ byteLength cs := by
  induction cs with
  | nil => exact Nat.le_refl 0
  | cons c cs ih =>
    rw [byteLength_cons, List.length_cons, Nat.add_comm]
    exact Nat.add_le_add c.utf8Size_pos ih

/-- The number of characters before the first suffix of `cs`, the empty one
included, that satisfies `p`. -/
def suffixIndex? (p : List Char → Bool) (cs : List Char) : Option Nat :=
  go 0 cs
where
  /-- `k` characters have been passed over. -/
  go (k : Nat) : List Char → Option Nat
    | [] => if p [] then some k else none
    | c :: cs => if p (c :: cs) then some k else go (k + 1) cs

/-- Whether `pattern` occurs somewhere in `cs`. -/
def occursIn (pattern cs : List Char) : Bool :=
  (suffixIndex? pattern.isPrefixOf cs).isSome

/-- `cs` up to its last `mark`, the mark included; empty if there is none. -/
def throughLast (mark : Char) (cs : List Char) : List Char :=
  (cs.reverse.dropWhile (· ≠ mark)).reverse

/-- The characters that separate attributes and tokens in markup. -/
def isMarkupSpace (c : Char) : Bool :=
  c = ' ' || c = '\t' || c = '\n' || c = '\x0c' || c = '\r'

/-- A text with its ASCII letters in lower case. -/
def lower (s : String) : String :=
  String.ofList (s.toList.map Char.toLower)

@[simp] theorem toList_lower (s : String) : (lower s).toList = s.toList.map Char.toLower :=
  String.toList_ofList

/-- Whether a text starts with `pattern`, which has no capital letters, up to the
case of ASCII letters. -/
def startsIgnoringCase : List Char → List Char → Bool
  | [], _ => true
  | _ :: _, [] => false
  | p :: pattern, c :: cs => c.toLower = p && startsIgnoringCase pattern cs

/-- Equality up to the case of ASCII letters. -/
def equalIgnoringCase (s t : String) : Bool :=
  lower s = lower t

end PageLint.Text
