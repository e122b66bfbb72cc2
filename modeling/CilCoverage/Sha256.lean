/-
  SHA-256 of a byte string.

  The padded message is a list of words; sixteen words make a block, and each
  block is worked into the chaining value in sixty-four rounds. A round takes
  the first word of a window of sixteen and appends the word sixteen places
  further on, so the schedule is never held as a whole.
-/
import CilCoverage.Bytes

namespace CilCoverage.Sha256

/-- Chaining value. -/
structure State where
  a : UInt32
  b : UInt32
  c : UInt32
  d : UInt32
  e : UInt32
  f : UInt32
  g : UInt32
  h : UInt32
  deriving DecidableEq, Repr

/-- The chaining value before the first block. -/
def initial : State :=
  ⟨0x6a09e667, 0xbb67ae85, 0x3c6ef372, 0xa54ff53a, 0x510e527f, 0x9b05688c, 0x1f83d9ab, 0x5be0cd19⟩

/-- The constant of each round. -/
def roundConstants : List UInt32 :=
  [0x428a2f98, 0x71374491, 0xb5c0fbcf, 0xe9b5dba5, 0x3956c25b, 0x59f111f1, 0x923f82a4, 0xab1c5ed5,
    0xd807aa98, 0x12835b01, 0x243185be, 0x550c7dc3, 0x72be5d74, 0x80deb1fe, 0x9bdc06a7, 0xc19bf174,
    0xe49b69c1, 0xefbe4786, 0x0fc19dc6, 0x240ca1cc, 0x2de92c6f, 0x4a7484aa, 0x5cb0a9dc, 0x76f988da,
    0x983e5152, 0xa831c66d, 0xb00327c8, 0xbf597fc7, 0xc6e00bf3, 0xd5a79147, 0x06ca6351, 0x14292967,
    0x27b70a85, 0x2e1b2138, 0x4d2c6dfc, 0x53380d13, 0x650a7354, 0x766a0abb, 0x81c2c92e, 0x92722c85,
    0xa2bfe8a1, 0xa81a664b, 0xc24b8b70, 0xc76c51a3, 0xd192e819, 0xd6990624, 0xf40e3585, 0x106aa070,
    0x19a4c116, 0x1e376c08, 0x2748774c, 0x34b0bcb5, 0x391c0cb3, 0x4ed8aa4a, 0x5b9cca4f, 0x682e6ff3,
    0x748f82ee, 0x78a5636f, 0x84c87814, 0x8cc70208, 0x90befffa, 0xa4506ceb, 0xbef9a3f7, 0xc67178f2]

/-- Rotation to the right. -/
def rotate (n : UInt32) (x : UInt32) : UInt32 := x >>> n ||| x <<< (32 - n)

/-- The word sixteen places after the first one of a window. -/
def nextWord (window : List UInt32) : UInt32 :=
  let word := fun k => window.getD k 0
  let s0 := rotate 7 (word 1) ^^^ rotate 18 (word 1) ^^^ word 1 >>> 3
  let s1 := rotate 17 (word 14) ^^^ rotate 19 (word 14) ^^^ word 14 >>> 10
  word 0 + s0 + word 9 + s1

/-- One round, with its constant and its word of the schedule. -/
def round (s : State) (k w : UInt32) : State :=
  let s1 := rotate 6 s.e ^^^ rotate 11 s.e ^^^ rotate 25 s.e
  let choice := (s.e &&& s.f) ^^^ (~~~s.e &&& s.g)
  let t1 := s.h + s1 + choice + k + w
  let s0 := rotate 2 s.a ^^^ rotate 13 s.a ^^^ rotate 22 s.a
  let majority := (s.a &&& s.b) ^^^ (s.a &&& s.c) ^^^ (s.b &&& s.c)
  ⟨t1 + s0 + majority, s.a, s.b, s.c, s.d + t1, s.e, s.f, s.g⟩

/-- Rounds with these constants, on a window of the schedule. -/
def rounds : (constants window : List UInt32) → State → State
  | [], _, s => s
  | k :: constants, window, s =>
    rounds constants (window.tail ++ [nextWord window]) (round s k (window.headD 0))

/-- Works a block of sixteen words into a chaining value. -/
def compress (s : State) (block : List UInt32) : State :=
  let t := rounds roundConstants block s
  ⟨s.a + t.a, s.b + t.b, s.c + t.c, s.d + t.d, s.e + t.e, s.f + t.f, s.g + t.g, s.h + t.h⟩

/-- Works words into a chaining value, block by block. -/
def absorb (s : State) (words : List UInt32) : State :=
  if words.length < 16 then s else absorb (compress s (words.take 16)) (words.drop 16)
termination_by words.length
decreasing_by
  rw [List.length_drop]
  omega

/-- Bytes of a number, highest first. -/
def bigEndian (width n : Nat) : Bytes := (Bytes.ofNat width n).reverse

/-- The message, a one bit, zeros and the length in bits, which fill up a block. -/
def pad (message : Bytes) : Bytes :=
  message ++ 0x80 :: List.replicate ((119 - message.length % 64) % 64) 0 ++
    bigEndian 8 (8 * message.length)

/-- Four bytes each, highest first. -/
def words : Bytes → List UInt32
  | a :: b :: c :: d :: rest => UInt32.ofNat (Bytes.toNat [d, c, b, a]) :: words rest
  | _ => []

/-- The digest of a message. -/
def digest (message : Bytes) : Bytes :=
  let s := absorb initial (words (pad message))
  [s.a, s.b, s.c, s.d, s.e, s.f, s.g, s.h].flatMap fun word => bigEndian 4 word.toNat

theorem length_digest (message : Bytes) : (digest message).length = 32 := by
  simp [digest, bigEndian]

theorem length_pad (message : Bytes) : (pad message).length % 64 = 0 := by
  simp only [pad, bigEndian, List.length_append, List.length_cons, List.length_replicate,
    List.length_reverse, Bytes.length_ofNat]
  omega

end CilCoverage.Sha256
