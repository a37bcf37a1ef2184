/-!
The SHA-256 digest of a byte sequence.

The bytes are padded to whole blocks of sixteen words. Each block is stretched to
sixty-four words, one for each round, and the rounds mix them into a state of eight
words. The state after the last block is the digest.
-/

namespace SeriesQuery.Sha256

/-- The eight words that are carried from block to block. -/
structure State where
  a : UInt32
  b : UInt32
  c : UInt32
  d : UInt32
  e : UInt32
  f : UInt32
  g : UInt32
  h : UInt32
deriving DecidableEq, Repr, Inhabited

/-- The state before the first block: the first bits of the fractional parts of the
square roots of the first eight primes. -/
def State.start : State :=
  ⟨0x6a09e667, 0xbb67ae85, 0x3c6ef372, 0xa54ff53a,
    0x510e527f, 0x9b05688c, 0x1f83d9ab, 0x5be0cd19⟩

/-- The words of a state in order. -/
def State.words (s : State) : List UInt32 :=
  [s.a, s.b, s.c, s.d, s.e, s.f, s.g, s.h]

/-- The words of two states added one by one. -/
def State.add (s t : State) : State :=
  ⟨s.a + t.a, s.b + t.b, s.c + t.c, s.d + t.d, s.e + t.e, s.f + t.f, s.g + t.g, s.h + t.h⟩

/-- The constants of the rounds: the first bits of the fractional parts of the cube
roots of the first sixty-four primes. -/
def roundConstants : List UInt32 :=
  [ 0x428a2f98, 0x71374491, 0xb5c0fbcf, 0xe9b5dba5, 0x3956c25b, 0x59f111f1,
    0x923f82a4, 0xab1c5ed5, 0xd807aa98, 0x12835b01, 0x243185be, 0x550c7dc3,
    0x72be5d74, 0x80deb1fe, 0x9bdc06a7, 0xc19bf174, 0xe49b69c1, 0xefbe4786,
    0x0fc19dc6, 0x240ca1cc, 0x2de92c6f, 0x4a7484aa, 0x5cb0a9dc, 0x76f988da,
    0x983e5152, 0xa831c66d, 0xb00327c8, 0xbf597fc7, 0xc6e00bf3, 0xd5a79147,
    0x06ca6351, 0x14292967, 0x27b70a85, 0x2e1b2138, 0x4d2c6dfc, 0x53380d13,
    0x650a7354, 0x766a0abb, 0x81c2c92e, 0x92722c85, 0xa2bfe8a1, 0xa81a664b,
    0xc24b8b70, 0xc76c51a3, 0xd192e819, 0xd6990624, 0xf40e3585, 0x106aa070,
    0x19a4c116, 0x1e376c08, 0x2748774c, 0x34b0bcb5, 0x391c0cb3, 0x4ed8aa4a,
    0x5b9cca4f, 0x682e6ff3, 0x748f82ee, 0x78a5636f, 0x84c87814, 0x8cc70208,
    0x90befffa, 0xa4506ceb, 0xbef9a3f7, 0xc67178f2]

/-! ### Padding -/

/-- How many zero bytes the padding of `size` bytes has. -/
def paddingZeros (size : Nat) : Nat :=
  (119 - size % 64) % 64

/-- A length in bits as eight bytes, the most significant first. -/
def lengthBytes (bits : Nat) : List UInt8 :=
  (List.range 8).reverse.map fun i => (bits >>> (8 * i)).toUInt8

/-- The bytes with a one bit, zero bits and their length after them: whole blocks. -/
def pad (bytes : List UInt8) : List UInt8 :=
  bytes ++ 0x80 :: List.replicate (paddingZeros bytes.length) 0 ++ lengthBytes (8 * bytes.length)

/-- Four bytes as a word, the most significant first. -/
def word (a b c d : UInt8) : UInt32 :=
  a.toUInt32 <<< 24 ||| b.toUInt32 <<< 16 ||| c.toUInt32 <<< 8 ||| d.toUInt32

/-- The words that bytes are made of. -/
def words : List UInt8 → List UInt32
  | a :: b :: c :: d :: bytes => word a b c d :: words bytes
  | _ => []

/-! ### Blocks -/

/-- A word turned by `n` bits to the right, for `n` from 1 to 31. -/
def rotate (x n : UInt32) : UInt32 :=
  x >>> n ||| x <<< (32 - n)

/-- The next word of a schedule whose words are given newest first. -/
def scheduleWord (newest : List UInt32) : UInt32 :=
  let old := newest.getD 14 0
  let late := newest.getD 1 0
  newest.getD 15 0 + (rotate old 7 ^^^ rotate old 18 ^^^ old >>> 3) + newest.getD 6 0 +
    (rotate late 17 ^^^ rotate late 19 ^^^ late >>> 10)

/-- A schedule, newest word first, with `count` more words. -/
def extend : Nat → List UInt32 → List UInt32
  | 0, newest => newest
  | count + 1, newest => extend count (scheduleWord newest :: newest)

/-- The sixty-four words of a block of sixteen. -/
def schedule (block : List UInt32) : List UInt32 :=
  (extend 48 block.reverse).reverse

/-- One round with the sum of its constant and its word. -/
def round (s : State) (k : UInt32) : State :=
  let pick := (s.e &&& s.f) ^^^ (~~~s.e &&& s.g)
  let first := s.h + (rotate s.e 6 ^^^ rotate s.e 11 ^^^ rotate s.e 25) + pick + k
  let most := (s.a &&& s.b) ^^^ (s.a &&& s.c) ^^^ (s.b &&& s.c)
  let second := (rotate s.a 2 ^^^ rotate s.a 13 ^^^ rotate s.a 22) + most
  ⟨first + second, s.a, s.b, s.c, s.d + first, s.e, s.f, s.g⟩

/-- The state after a block of sixteen words. -/
def compress (s : State) (block : List UInt32) : State :=
  s.add ((roundConstants.zipWith (· + ·) (schedule block)).foldl round s)

/-- The state after `count` blocks. -/
def absorb : Nat → State → List UInt32 → State
  | 0, s, _ => s
  | count + 1, s, ws => absorb count (compress s (ws.take 16)) (ws.drop 16)

/-- The digest of a byte sequence as words. -/
def digest (bytes : List UInt8) : List UInt32 :=
  let ws := words (pad bytes)
  (absorb (ws.length / 16) .start ws).words

/-! ### Text -/

/-- The eight hexadecimal digits of a word. -/
def hexDigits (w : UInt32) : List Char :=
  (List.range 8).reverse.map fun i => Nat.digitChar (w.toNat >>> (4 * i) % 16)

/-- The digest of a byte sequence in sixty-four lowercase hexadecimal digits. -/
def hex (bytes : List UInt8) : String :=
  String.ofList ((digest bytes).flatMap hexDigits)

end SeriesQuery.Sha256
