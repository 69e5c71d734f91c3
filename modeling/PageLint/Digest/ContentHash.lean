import PageLint.Digest.Xxh3
/-!
# Content hashes

The hash by which contents are told apart: sixteen bytes, written as hexadecimal
digits.
-/

namespace PageLint

/-- Sixteen bytes that stand for a content. -/
structure ContentHash where
  bytes : Vector UInt8 16
deriving DecidableEq

namespace ContentHash

/-- The byte of place `k` of a word, the lowest first. -/
def byteOf (w : UInt64) (k : Nat) : UInt8 := (w >>> (8 * UInt64.ofNat k)).toUInt8

/-- The hash of some bytes: the lower word first, each word from its lowest byte. -/
def ofBytes (bytes : ByteArray) : ContentHash :=
  let hash := Xxh3.hash bytes
  ⟨Vector.ofFn fun k => if k.val < 8 then byteOf hash.low k else byteOf hash.high (k - 8)⟩

def ofText (text : String) : ContentHash := ofBytes text.toUTF8

/-- A byte as two hexadecimal digits. -/
def hexByte (b : UInt8) : String :=
  String.ofList [Nat.digitChar (b.toNat / 16), Nat.digitChar (b.toNat % 16)]

def toHex (hash : ContentHash) : String := String.join (hash.bytes.toList.map hexByte)

instance : ToString ContentHash := ⟨toHex⟩

/-- The first bytes of a hash, for messages to developers. -/
def brief (hash : ContentHash) : String :=
  s!"ContentHash({String.join ((hash.bytes.toList.take 2).map hexByte)}..)"

end ContentHash

end PageLint
