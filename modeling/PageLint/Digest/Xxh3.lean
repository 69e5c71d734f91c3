/-!
# The XXH3 hash of 128 bits

The hash with seed zero and the default secret. Inputs of up to 16 bytes are
mixed directly, those of up to 240 bytes in pairs of 16 bytes from both ends,
longer ones in stripes of 64 bytes into eight lanes.
-/

namespace PageLint.Xxh3

/-- Two words, the lower one first. -/
structure Wide where
  low : UInt64
  high : UInt64
deriving DecidableEq

/-- The secret that inputs are mixed with. -/
def secret : ByteArray := ⟨#[
  0xb8, 0xfe, 0x6c, 0x39, 0x23, 0xa4, 0x4b, 0xbe, 0x7c, 0x01, 0x81, 0x2c, 0xf7, 0x21, 0xad, 0x1c,
  0xde, 0xd4, 0x6d, 0xe9, 0x83, 0x90, 0x97, 0xdb, 0x72, 0x40, 0xa4, 0xa4, 0xb7, 0xb3, 0x67, 0x1f,
  0xcb, 0x79, 0xe6, 0x4e, 0xcc, 0xc0, 0xe5, 0x78, 0x82, 0x5a, 0xd0, 0x7d, 0xcc, 0xff, 0x72, 0x21,
  0xb8, 0x08, 0x46, 0x74, 0xf7, 0x43, 0x24, 0x8e, 0xe0, 0x35, 0x90, 0xe6, 0x81, 0x3a, 0x26, 0x4c,
  0x3c, 0x28, 0x52, 0xbb, 0x91, 0xc3, 0x00, 0xcb, 0x88, 0xd0, 0x65, 0x8b, 0x1b, 0x53, 0x2e, 0xa3,
  0x71, 0x64, 0x48, 0x97, 0xa2, 0x0d, 0xf9, 0x4e, 0x38, 0x19, 0xef, 0x46, 0xa9, 0xde, 0xac, 0xd8,
  0xa8, 0xfa, 0x76, 0x3f, 0xe3, 0x9c, 0x34, 0x3f, 0xf9, 0xdc, 0xbb, 0xc7, 0xc7, 0x0b, 0x4f, 0x1d,
  0x8a, 0x51, 0xe0, 0x4b, 0xcd, 0xb4, 0x59, 0x31, 0xc8, 0x9f, 0x7e, 0xc9, 0xd9, 0x78, 0x73, 0x64,
  0xea, 0xc5, 0xac, 0x83, 0x34, 0xd3, 0xeb, 0xc3, 0xc5, 0x81, 0xa0, 0xff, 0xfa, 0x13, 0x63, 0xeb,
  0x17, 0x0d, 0xdd, 0x51, 0xb7, 0xf0, 0xda, 0x49, 0xd3, 0x16, 0x55, 0x26, 0x29, 0xd4, 0x68, 0x9e,
  0x2b, 0x16, 0xbe, 0x58, 0x7d, 0x47, 0xa1, 0xfc, 0x8f, 0xf8, 0xb8, 0xd1, 0x7a, 0xd0, 0x31, 0xce,
  0x45, 0xcb, 0x3a, 0x8f, 0x95, 0x16, 0x04, 0x28, 0xaf, 0xd7, 0xfb, 0xca, 0xbb, 0x4b, 0x40, 0x7e]⟩

/-! The odd multipliers of the mixing steps: three of 32 bits, five of 64, and the
two of the final mixes. -/

def prime32a : UInt64 := 0x9E3779B1
def prime32b : UInt64 := 0x85EBCA77
def prime32c : UInt64 := 0xC2B2AE3D
def prime64a : UInt64 := 0x9E3779B185EBCA87
def prime64b : UInt64 := 0xC2B2AE3D27D4EB4F
def prime64c : UInt64 := 0x165667B19E3779F9
def prime64d : UInt64 := 0x85EBCA77C2B2AE63
def prime64e : UInt64 := 0x27D4EB2F165667C5
def primeMixA : UInt64 := 0x165667919E3779F9
def primeMixB : UInt64 := 0x9FB21C651E98DF25

/-- The byte at `i`, zero past the end. -/
def byteAt (b : ByteArray) (i : Nat) : UInt64 :=
  if h : i < b.size then b[i].toUInt64 else 0

/-- The `n` bytes from `i` on as a number, the lowest byte first. -/
def read (b : ByteArray) (i : Nat) : Nat → UInt64
  | 0 => 0
  | n + 1 => read b (i + 1) n <<< 8 ||| byteAt b i

def read32 (b : ByteArray) (i : Nat) : UInt64 := read b i 4

def read64 (b : ByteArray) (i : Nat) : UInt64 := read b i 8

/-- The `n` low bytes of a number in opposite order. -/
def swapBytes (w : UInt64) : Nat → UInt64
  | 0 => 0
  | n + 1 => (w &&& 0xFF) <<< (8 * UInt64.ofNat n) ||| swapBytes (w >>> 8) n

/-- The full product of two words. -/
def multiply (a b : UInt64) : Wide :=
  let product := a.toNat * b.toNat
  ⟨UInt64.ofNat product, UInt64.ofNat (product >>> 64)⟩

/-- The two halves of the full product, combined. -/
def multiplyFold (a b : UInt64) : UInt64 :=
  let product := multiply a b
  product.low ^^^ product.high

/-- The final mix of short inputs. -/
def finishShort (h : UInt64) : UInt64 :=
  let h := (h ^^^ (h >>> 33)) * prime64b
  let h := (h ^^^ (h >>> 29)) * prime64c
  h ^^^ (h >>> 32)

/-- The final mix of all other inputs. -/
def finish (h : UInt64) : UInt64 :=
  let h := (h ^^^ (h >>> 37)) * primeMixA
  h ^^^ (h >>> 32)

/-- The difference of two words of the secret. -/
def flip64 (i : Nat) : UInt64 := read64 secret i ^^^ read64 secret (i + 8)

def hashEmpty : Wide :=
  ⟨finishShort (flip64 64), finishShort (flip64 80)⟩

def hash1to3 (b : ByteArray) : Wide :=
  let size := b.size
  let low := byteAt b 0 <<< 16 ||| byteAt b (size / 2) <<< 24 ||| byteAt b (size - 1) |||
    UInt64.ofNat size <<< 8
  let swapped := swapBytes low 4
  let high := (swapped <<< 13 ||| swapped >>> 19) &&& 0xFFFFFFFF
  ⟨finishShort (low ^^^ (read32 secret 0 ^^^ read32 secret 4)),
    finishShort (high ^^^ (read32 secret 8 ^^^ read32 secret 12))⟩

def hash4to8 (b : ByteArray) : Wide :=
  let size := b.size
  let input := read32 b 0 + read32 b (size - 4) <<< 32
  let product := multiply (input ^^^ flip64 16) (prime64a + UInt64.ofNat size <<< 2)
  let high := product.high + product.low <<< 1
  let low := product.low ^^^ (high >>> 3)
  let low := (low ^^^ (low >>> 35)) * primeMixB
  ⟨low ^^^ (low >>> 28), finish high⟩

def hash9to16 (b : ByteArray) : Wide :=
  let size := b.size
  let first := read64 b 0
  let last := read64 b (size - 8)
  let product := multiply (first ^^^ last ^^^ flip64 32) prime64a
  let low := product.low + UInt64.ofNat (size - 1) <<< 54
  let last := last ^^^ flip64 48
  let high := product.high + (last + (last &&& 0xFFFFFFFF) * (prime32b - 1))
  let low := low ^^^ swapBytes high 8
  let product := multiply low prime64b
  ⟨finish product.low, finish (product.high + high * prime64b)⟩

/-- Mixes the 16 bytes at `i` with the secret at `s`. -/
def mix16 (b : ByteArray) (i s : Nat) : UInt64 :=
  multiplyFold (read64 b i ^^^ read64 secret s) (read64 b (i + 8) ^^^ read64 secret (s + 8))

/-- Mixes the 16 bytes at `i` and those at `j` into the accumulators. -/
def mix32 (b : ByteArray) (acc : Wide) (i j s : Nat) : Wide :=
  ⟨(acc.low + mix16 b i s) ^^^ (read64 b j + read64 b (j + 8)),
    (acc.high + mix16 b j (s + 16)) ^^^ (read64 b i + read64 b (i + 8))⟩

/-- The hash of the accumulators of an input of middle size. -/
def finishMiddle (size : Nat) (acc : Wide) : Wide :=
  ⟨finish (acc.low + acc.high),
    0 - finish (acc.low * prime64a + acc.high * prime64d + UInt64.ofNat size * prime64b)⟩

/-- The hash of 17 to 128 bytes: pairs of 16 bytes, from the middle outwards. -/
def hash17to128 (b : ByteArray) : Wide :=
  let size := b.size
  let pairs := (size - 1) / 32
  let acc := (List.range (pairs + 1)).reverse.foldl
    (fun acc k => mix32 b acc (16 * k) (size - 16 * (k + 1)) (32 * k))
    ⟨UInt64.ofNat size * prime64a, 0⟩
  finishMiddle size acc

/-- The hash of 129 to 240 bytes: pairs of 16 bytes in order, the last one twice. -/
def hash129to240 (b : ByteArray) : Wide :=
  let size := b.size
  let acc := (List.range 4).foldl
    (fun acc k => mix32 b acc (32 * k) (32 * k + 16) (32 * k))
    ⟨UInt64.ofNat size * prime64a, 0⟩
  let acc := (List.range (size / 32 - 4)).foldl
    (fun acc k => mix32 b acc (32 * k + 128) (32 * k + 144) (32 * k + 3))
    ⟨finish acc.low, finish acc.high⟩
  finishMiddle size (mix32 b acc (size - 16) (size - 32) 103)

/-- The eight lanes before any stripe. -/
def firstLanes : Array UInt64 :=
  #[prime32c, prime64a, prime64b, prime64c, prime64d, prime32b, prime64e, prime32a]

/-- A lane, zero if there is none. -/
def lane (lanes : Array UInt64) (k : Nat) : UInt64 := lanes[k]?.getD 0

/-- Adds the stripe of 64 bytes at `i` to the lanes. -/
def addStripe (b : ByteArray) (lanes : Array UInt64) (i s : Nat) : Array UInt64 :=
  Array.ofFn fun k : Fin 8 =>
    let key : UInt64 := read64 b (i + 8 * k.val) ^^^ read64 secret (s + 8 * k.val)
    let other := read64 b (i + 8 * (k.val ^^^ 1))
    lane lanes k.val + other + (key &&& (0xFFFFFFFF : UInt64)) * (key >>> (32 : UInt64))

/-- Mixes each lane after a block of stripes. -/
def scramble (lanes : Array UInt64) : Array UInt64 :=
  Array.ofFn fun k : Fin 8 =>
    let a := lane lanes k
    (a ^^^ (a >>> 47) ^^^ read64 secret (128 + 8 * k)) * prime32a

/-- Adds `count` stripes from `i` on. -/
def addStripes (b : ByteArray) (lanes : Array UInt64) (i count : Nat) : Array UInt64 :=
  (List.range count).foldl (fun lanes n => addStripe b lanes (i + 64 * n) (8 * n)) lanes

/-- Folds the lanes into one word. -/
def mergeLanes (lanes : Array UInt64) (s : Nat) (start : UInt64) : UInt64 :=
  finish ((List.range 4).foldl (fun sum k =>
    sum + multiplyFold (lane lanes (2 * k) ^^^ read64 secret (s + 16 * k))
      (lane lanes (2 * k + 1) ^^^ read64 secret (s + 16 * k + 8))) start)

/-- The hash of more than 240 bytes: blocks of 16 stripes, then what is left,
then the last 64 bytes once more. -/
def hashLong (b : ByteArray) : Wide :=
  let size := b.size
  let blocks := (size - 1) / 1024
  let lanes := (List.range blocks).foldl
    (fun lanes k => scramble (addStripes b lanes (1024 * k) 16)) firstLanes
  let lanes := addStripes b lanes (1024 * blocks) ((size - 1 - 1024 * blocks) / 64)
  let lanes := addStripe b lanes (size - 64) 121
  let size := UInt64.ofNat size
  ⟨mergeLanes lanes 11 (size * prime64a), mergeLanes lanes 117 (~~~(size * prime64b))⟩

def hash (b : ByteArray) : Wide :=
  if b.size = 0 then hashEmpty
  else if b.size ≤ 3 then hash1to3 b
  else if b.size ≤ 8 then hash4to8 b
  else if b.size ≤ 16 then hash9to16 b
  else if b.size ≤ 128 then hash17to128 b
  else if b.size ≤ 240 then hash129to240 b
  else hashLong b

end PageLint.Xxh3
