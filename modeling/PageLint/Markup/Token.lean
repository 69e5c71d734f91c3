/-!
# Tokens of markup

Markup is cut into tags, text, comments and declarations. Each token knows the
bytes it was read from; what is wrong with the markup is kept beside the tokens.
-/

namespace PageLint.Markup

/-- The bytes from `start` up to, but not including, `stop`. -/
structure Span where
  start : Nat
  stop : Nat
deriving DecidableEq, Inhabited

/-- The value of an attribute without its quotes. -/
structure RawValue where
  text : String
  span : Span
deriving DecidableEq, Inhabited

/-- An attribute as written in a start tag, its name in lower case. -/
structure RawAttribute where
  name : String
  nameSpan : Span
  value : Option RawValue
deriving DecidableEq, Inhabited

/-- What a token is. Names of tags are in lower case. -/
inductive TokenKind where
  | startTag (name : String) (attributes : List RawAttribute) (selfClosing : Bool)
  | endTag (name : String)
  /-- Characters outside of tags, or the whole body of a raw text element. -/
  | text (content : String)
  | comment
  /-- A document type or another declaration. -/
  | declaration
deriving DecidableEq, Inhabited

/-- A part of the markup. -/
structure Token where
  kind : TokenKind
  span : Span
deriving DecidableEq, Inhabited

/-- What is never closed before the markup ends. -/
inductive Defect where
  | comment
  | endTag (name : String)
  | startTag (name : String)
  | attribute (name : String)
  | rawText (name : String)
deriving DecidableEq, Inhabited

def Defect.code : Defect → String
  | .comment => "unterminated-comment"
  | .endTag _ => "unterminated-tag"
  | .startTag _ => "unterminated-tag"
  | .attribute _ => "unterminated-attribute"
  | .rawText _ => "unterminated-raw-text"

def Defect.message : Defect → String
  | .comment => "comment is never closed"
  | .endTag name => s!"end tag </{name}> is never closed"
  | .startTag name => s!"start tag <{name}> is never closed"
  | .attribute name => s!"value of attribute `{name}` is never closed"
  | .rawText name => s!"<{name}> element is never closed"

/-- A defect and the markup from where it opens. -/
structure Problem where
  defect : Defect
  span : Span
deriving DecidableEq, Inhabited

/-- Elements whose body is text up to their end tag. -/
def isRawTextElement (name : String) : Bool :=
  name = "script" || name = "style"

end PageLint.Markup
