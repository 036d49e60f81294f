/-!
# SHA-256

The digest that identifies a chunk's content, written as sixty-four hexadecimal digits.

## Main definitions

* `CodeAtlas.Sha256.State` — the eight words of the chaining value.
* `CodeAtlas.Sha256.pad`, `schedule`, `compress` — padding, message schedule and one block.
* `CodeAtlas.Sha256.digest` — the chaining value after the whole message.
* `CodeAtlas.Text.contentHash` — the lower-case hexadecimal digest of a text's UTF-8 bytes.

## Main results

* `CodeAtlas.Text.length_contentHash` — a content hash has sixty-four digits.
-/

set_option autoImplicit false

namespace CodeAtlas

namespace Sha256

/-- The chaining value: eight words. -/
structure State where
  a : UInt32
  b : UInt32
  c : UInt32
  d : UInt32
  e : UInt32
  f : UInt32
  g : UInt32
  h : UInt32
  deriving DecidableEq, Repr

/-- The chaining value before the first block. -/
def initial : State :=
  ⟨0x6a09e667, 0xbb67ae85, 0x3c6ef372, 0xa54ff53a, 0x510e527f, 0x9b05688c, 0x1f83d9ab, 0x5be0cd19⟩

/-- The constants of the sixty-four rounds. -/
def roundConstants : List UInt32 :=
  [0x428a2f98, 0x71374491, 0xb5c0fbcf, 0xe9b5dba5, 0x3956c25b, 0x59f111f1, 0x923f82a4, 0xab1c5ed5,
   0xd807aa98, 0x12835b01, 0x243185be, 0x550c7dc3, 0x72be5d74, 0x80deb1fe, 0x9bdc06a7, 0xc19bf174,
   0xe49b69c1, 0xefbe4786, 0x0fc19dc6, 0x240ca1cc, 0x2de92c6f, 0x4a7484aa, 0x5cb0a9dc, 0x76f988da,
   0x983e5152, 0xa831c66d, 0xb00327c8, 0xbf597fc7, 0xc6e00bf3, 0xd5a79147, 0x06ca6351, 0x14292967,
   0x27b70a85, 0x2e1b2138, 0x4d2c6dfc, 0x53380d13, 0x650a7354, 0x766a0abb, 0x81c2c92e, 0x92722c85,
   0xa2bfe8a1, 0xa81a664b, 0xc24b8b70, 0xc76c51a3, 0xd192e819, 0xd6990624, 0xf40e3585, 0x106aa070,
   0x19a4c116, 0x1e376c08, 0x2748774c, 0x34b0bcb5, 0x391c0cb3, 0x4ed8aa4a, 0x5b9cca4f, 0x682e6ff3,
   0x748f82ee, 0x78a5636f, 0x84c87814, 0x8cc70208, 0x90befffa, 0xa4506ceb, 0xbef9a3f7, 0xc67178f2]

/-- The word rotated right by `n` bits, `0 < n < 32`. -/
def rotateRight (x : UInt32) (n : UInt32) : UInt32 := (x >>> n) ||| (x <<< (32 - n))

/-- The mixing function of schedule words fifteen back. -/
def smallSigma0 (x : UInt32) : UInt32 := rotateRight x 7 ^^^ rotateRight x 18 ^^^ (x >>> 3)

/-- The mixing function of schedule words two back. -/
def smallSigma1 (x : UInt32) : UInt32 := rotateRight x 17 ^^^ rotateRight x 19 ^^^ (x >>> 10)

/-- The mixing function of the first word in a round. -/
def bigSigma0 (x : UInt32) : UInt32 := rotateRight x 2 ^^^ rotateRight x 13 ^^^ rotateRight x 22

/-- The mixing function of the fifth word in a round. -/
def bigSigma1 (x : UInt32) : UInt32 := rotateRight x 6 ^^^ rotateRight x 11 ^^^ rotateRight x 25

/-- The `count` low bytes of a number, most significant first. -/
def bigEndian (n : Nat) : Nat → List UInt8
  | 0 => []
  | count + 1 => UInt8.ofNat (n >>> (8 * count)) :: bigEndian n count

/-- The message with a one bit, zeros up to eight bytes before a block's end, and its length in
bits. -/
def pad (message : List UInt8) : List UInt8 :=
  let size := message.length
  message ++ 0x80 :: List.replicate ((119 - size % 64) % 64) 0 ++ bigEndian (8 * size) 8

/-- The bytes as words, four to a word, most significant first. -/
def words : List UInt8 → List UInt32
  | w :: x :: y :: z :: rest =>
    ((w.toUInt32 <<< 24) ||| (x.toUInt32 <<< 16) ||| (y.toUInt32 <<< 8) ||| z.toUInt32) ::
      words rest
  | _ => []

/-- One more schedule word from the words so far, newest first. -/
def extendSchedule (newestFirst : List UInt32) : List UInt32 :=
  (smallSigma1 (newestFirst.getD 1 0) + newestFirst.getD 6 0 +
    smallSigma0 (newestFirst.getD 14 0) + newestFirst.getD 15 0) :: newestFirst

/-- The sixty-four words that a block of sixteen contributes to the rounds. -/
def schedule (block : List UInt32) : List UInt32 :=
  (Nat.repeat extendSchedule 48 block.reverse).reverse

/-- One round with its constant and schedule word. -/
def round (s : State) (input : UInt32 × UInt32) : State :=
  let choice := (s.e &&& s.f) ^^^ (~~~s.e &&& s.g)
  let majority := (s.a &&& s.b) ^^^ (s.a &&& s.c) ^^^ (s.b &&& s.c)
  let t1 := s.h + bigSigma1 s.e + choice + input.1 + input.2
  let t2 := bigSigma0 s.a + majority
  ⟨t1 + t2, s.a, s.b, s.c, s.d + t1, s.e, s.f, s.g⟩

/-- The chaining value after one block: the rounds' result added to the value before. -/
def compress (s : State) (block : List UInt32) : State :=
  let t := (roundConstants.zip (schedule block)).foldl round s
  ⟨s.a + t.a, s.b + t.b, s.c + t.c, s.d + t.d, s.e + t.e, s.f + t.f, s.g + t.g, s.h + t.h⟩

/-- The chaining value after `count` blocks of sixteen words. -/
def compressAll (s : State) : Nat → List UInt32 → State
  | 0, _ => s
  | count + 1, message => compressAll (compress s (message.take 16)) count (message.drop 16)

/-- The chaining value after the whole padded message. -/
def digest (message : List UInt8) : State :=
  let padded := words (pad message)
  compressAll initial (padded.length / 16) padded

/-- The hexadecimal digit of a number below sixteen. -/
def hexDigit (n : Nat) : Char := (Nat.digitChar (n % 16))

/-- A word as eight hexadecimal digits. -/
def hexWord (w : UInt32) : List Char :=
  [28, 24, 20, 16, 12, 8, 4, 0].map fun shift => hexDigit (w.toNat >>> shift)

/-- A chaining value as sixty-four hexadecimal digits. -/
def State.hex (s : State) : List Char :=
  [s.a, s.b, s.c, s.d, s.e, s.f, s.g, s.h].flatMap hexWord

/-- A chaining value is written with sixty-four digits. -/
@[simp] theorem State.length_hex (s : State) : s.hex.length = 64 := by
  simp [State.hex, hexWord]

end Sha256

namespace Text

/-- The lower-case hexadecimal SHA-256 digest of a text's UTF-8 bytes. -/
def contentHash (text : String) : String :=
  String.ofList (Sha256.digest text.toUTF8.toList).hex

/-- A content hash has sixty-four digits. -/
@[simp] theorem length_contentHash (text : String) : (contentHash text).length = 64 := by
  simp [contentHash]

end Text

end CodeAtlas
