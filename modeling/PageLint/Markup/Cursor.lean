import PageLint.Markup.Token
import PageLint.Text.Basic
/-!
# Cursors

A place in markup: its byte offset and the characters from there on. Moving a
cursor drops characters and adds their bytes to the offset.
-/

namespace PageLint.Markup

/-- A byte offset and what follows it. -/
structure Cursor where
  offset : Nat
  rest : List Char
deriving DecidableEq

namespace Cursor

def start (source : String) : Cursor := ⟨0, source.toList⟩

/-- Past the next `n` characters. -/
def skip (c : Cursor) (n : Nat) : Cursor :=
  ⟨c.offset + Text.byteLength (c.rest.take n), c.rest.drop n⟩

/-- The characters ahead that satisfy `p`. -/
def run (c : Cursor) (p : Char → Bool) : List Char := c.rest.takeWhile p

/-- Past the characters ahead that satisfy `p`. -/
def skipWhile (c : Cursor) (p : Char → Bool) : Cursor :=
  ⟨c.offset + Text.byteLength (c.rest.takeWhile p), c.rest.dropWhile p⟩

def toEnd (c : Cursor) : Cursor := ⟨c.offset + Text.byteLength c.rest, []⟩

def skipSpace (c : Cursor) : Cursor := c.skipWhile Text.isMarkupSpace

/-- The bytes between two cursors. -/
def spanTo (c d : Cursor) : Span := ⟨c.offset, d.offset⟩

theorem length_rest_skip (c : Cursor) (n : Nat) :
    (c.skip n).rest.length = c.rest.length - n := by
  simp [skip]

theorem length_rest_skipWhile_le (c : Cursor) (p : Char → Bool) :
    (c.skipWhile p).rest.length ≤ c.rest.length := by
  have h := congrArg List.length (List.takeWhile_append_dropWhile (p := p) (l := c.rest))
  simp only [List.length_append] at h
  simp only [skipWhile]
  omega

theorem length_rest_skipWhile_lt (c : Cursor) (p : Char → Bool) (h : c.run p ≠ []) :
    (c.skipWhile p).rest.length < c.rest.length := by
  have hl := congrArg List.length (List.takeWhile_append_dropWhile (p := p) (l := c.rest))
  have hp := List.length_pos_iff.mpr h
  simp only [List.length_append] at hl
  simp only [run] at hp
  simp only [skipWhile]
  omega

end Cursor

end PageLint.Markup
