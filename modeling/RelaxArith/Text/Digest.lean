/-
The 128-bit message digest MD5, which fingerprints of trees are made of.

A message is padded to whole blocks of sixteen little-endian words; each block is mixed into a
state of four words in 64 steps.
-/
import RelaxArith.Text

namespace RelaxArith.Digest

/-- The four words of the running state. -/
structure State where
  a : UInt32
  b : UInt32
  c : UInt32
  d : UInt32

/-- The state before the first block. -/
def State.start : State := ⟨0x67452301, 0xefcdab89, 0x98badcfe, 0x10325476⟩

/-- Additive constants of the 64 steps. -/
def stepConstants : List UInt32 :=
  [0xd76aa478, 0xe8c7b756, 0x242070db, 0xc1bdceee, 0xf57c0faf, 0x4787c62a, 0xa8304613, 0xfd469501,
   0x698098d8, 0x8b44f7af, 0xffff5bb1, 0x895cd7be, 0x6b901122, 0xfd987193, 0xa679438e, 0x49b40821,
   0xf61e2562, 0xc040b340, 0x265e5a51, 0xe9b6c7aa, 0xd62f105d, 0x02441453, 0xd8a1e681, 0xe7d3fbc8,
   0x21e1cde6, 0xc33707d6, 0xf4d50d87, 0x455a14ed, 0xa9e3e905, 0xfcefa3f8, 0x676f02d9, 0x8d2a4c8a,
   0xfffa3942, 0x8771f681, 0x6d9d6122, 0xfde5380c, 0xa4beea44, 0x4bdecfa9, 0xf6bb4b60, 0xbebfbc70,
   0x289b7ec6, 0xeaa127fa, 0xd4ef3085, 0x04881d05, 0xd9d4d039, 0xe6db99e5, 0x1fa27cf8, 0xc4ac5665,
   0xf4292244, 0x432aff97, 0xab9423a7, 0xfc93a039, 0x655b59c3, 0x8f0ccc92, 0xffeff47d, 0x85845dd1,
   0x6fa87e4f, 0xfe2ce6e0, 0xa3014314, 0x4e0811a1, 0xf7537e82, 0xbd3af235, 0x2ad7d2bb, 0xeb86d391]

/-- Rotation amounts: four per round, used in turn. -/
def rotations : Nat → List UInt32
  | 0 => [7, 12, 17, 22]
  | 1 => [5, 9, 14, 20]
  | 2 => [4, 11, 16, 23]
  | _ => [6, 10, 15, 21]

/-- The mixing function of a round. -/
def mix : Nat → UInt32 → UInt32 → UInt32 → UInt32
  | 0, b, c, d => (b &&& c) ||| (~~~b &&& d)
  | 1, b, c, d => (d &&& b) ||| (~~~d &&& c)
  | 2, b, c, d => b ^^^ c ^^^ d
  | _, b, c, d => c ^^^ (b ||| ~~~d)

/-- The word of the block that a step reads. -/
def wordIndex (step : Nat) : Nat :=
  match step / 16 with
  | 0 => step
  | 1 => (5 * step + 1) % 16
  | 2 => (3 * step + 5) % 16
  | _ => (7 * step) % 16

/-- Rotation of a word to the left. -/
def rotate (x n : UInt32) : UInt32 := (x <<< n) ||| (x >>> (32 - n))

/-- One of the 64 steps on a block. -/
def step (block : List UInt32) (s : State) (i : Nat) : State :=
  let round := i / 16
  let f := mix round s.b s.c s.d + s.a + stepConstants.getD i 0 + block.getD (wordIndex i) 0
  ⟨s.d, s.b + rotate f ((rotations round).getD (i % 4) 0), s.b, s.c⟩

/-- Mixes one block into the state. -/
def absorb (s : State) (block : List UInt32) : State :=
  let t := (List.range 64).foldl (step block) s
  ⟨s.a + t.a, s.b + t.b, s.c + t.c, s.d + t.d⟩

/-- The bytes of a number, least significant first. -/
def littleEndian (width n : Nat) : Bytes :=
  (List.range width).map fun i => (n >>> (8 * i)).toUInt8

/-- A message with its padding: a one bit, zeros, and its length in bits. -/
def padded (s : Bytes) : Bytes :=
  s ++ [0x80] ++ List.replicate ((119 - s.length % 64) % 64) 0 ++ littleEndian 8 (8 * s.length)

/-- Four bytes at a time as words. -/
def words : Bytes → List UInt32
  | a :: b :: c :: d :: rest =>
    (a.toUInt32 ||| (b.toUInt32 <<< 8) ||| (c.toUInt32 <<< 16) ||| (d.toUInt32 <<< 24)) :: words rest
  | _ => []

/-- Sixteen words at a time. -/
def blocks (ws : List UInt32) : List (List UInt32) :=
  (List.range (ws.length / 16)).map fun i => (ws.drop (16 * i)).take 16

/-- The digest of a text in hexadecimal digits. -/
def md5 (s : Bytes) : Bytes :=
  let t := (blocks (words (padded s))).foldl absorb .start
  ([t.a, t.b, t.c, t.d].flatMap fun w => littleEndian 4 w.toNat).flatMap fun b => Bytes.hex 2 b.toNat

end RelaxArith.Digest
