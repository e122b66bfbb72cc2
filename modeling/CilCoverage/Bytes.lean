/-
  Byte strings: numbers in little-endian bytes and text in hexadecimal.

  `ofNat` and `toNat` are inverse to each other on numbers that fit the width
  (`toNat_ofNat`, `ofNat_toNat`). Reading a number off the front of a byte
  string gives back what was written there (`readNat_append`).
-/

namespace CilCoverage

/-- A byte string. -/
abbrev Bytes := List UInt8

namespace Bytes

/-! ## Little-endian numbers -/

/-- The lowest `width` bytes of `n`, lowest first. -/
def ofNat : (width n : Nat) → Bytes
  | 0, _ => []
  | width + 1, n => UInt8.ofNat n :: ofNat width (n / 256)

/-- The number with these bytes, lowest first. -/
def toNat : Bytes → Nat
  | [] => 0
  | b :: rest => b.toNat + 256 * toNat rest

/-- The lowest `width` bytes of `i` in two's complement. -/
def ofInt (width : Nat) (i : Int) : Bytes :=
  ofNat width (i % Nat.pow 256 width).toNat

/-- The number below `256 ^ width` read as two's complement. -/
def signed (width n : Nat) : Int :=
  Int.bmod n (Nat.pow 256 width)

/-- The number in the first `width` bytes, and the bytes after it. -/
def readNat (width : Nat) (bytes : Bytes) : Option (Nat × Bytes) :=
  if width ≤ bytes.length then
    some (toNat (bytes.take width), bytes.drop width)
  else
    none

@[simp] theorem length_ofNat (width n : Nat) : (ofNat width n).length = width := by
  induction width generalizing n with
  | zero => rfl
  | succ width ih => simp [ofNat, ih]

private theorem pow_succ (width : Nat) : Nat.pow 256 (width + 1) = 256 * Nat.pow 256 width :=
  Nat.mul_comm _ _

theorem toNat_ofNat (width n : Nat) : toNat (ofNat width n) = n % Nat.pow 256 width := by
  induction width generalizing n with
  | zero => simp [ofNat, toNat, Nat.mod_one]
  | succ width ih =>
    have hb : (UInt8.ofNat n).toNat = n % 256 := UInt8.toNat_ofNat'
    rw [ofNat, toNat, ih, hb, pow_succ, Nat.mod_mul]

theorem toNat_lt (bytes : Bytes) : toNat bytes < Nat.pow 256 bytes.length := by
  induction bytes with
  | nil => simp [toNat]
  | cons b rest ih =>
    have := b.toNat_lt
    rw [toNat, List.length_cons, pow_succ]
    omega

theorem ofNat_toNat (bytes : Bytes) : ofNat bytes.length (toNat bytes) = bytes := by
  induction bytes with
  | nil => rfl
  | cons b rest ih =>
    have hb := b.toNat_lt
    have h1 : (b.toNat + 256 * toNat rest) / 256 = toNat rest := by omega
    have h2 : UInt8.ofNat (b.toNat + 256 * toNat rest) = b := by
      apply UInt8.toNat_inj.mp
      rw [UInt8.toNat_ofNat']
      omega
    simp only [List.length_cons, toNat, ofNat, h1, h2, ih]

theorem readNat_append (width n : Nat) (rest : Bytes) :
    readNat width (ofNat width n ++ rest) = some (n % Nat.pow 256 width, rest) := by
  simp [readNat, toNat_ofNat]

theorem readNat_length {width n : Nat} {bytes rest : Bytes}
    (h : readNat width bytes = some (n, rest)) : bytes.length = width + rest.length := by
  unfold readNat at h
  split at h
  · next hw =>
    simp only [Option.some.injEq, Prod.mk.injEq] at h
    rw [← h.2, List.length_drop]
    omega
  · simp at h

/-! ## Hexadecimal -/

/-- Two hexadecimal digits for each byte. -/
def toHex (bytes : Bytes) : String :=
  String.ofList (bytes.flatMap fun b =>
    [Nat.digitChar (b.toNat / 16), Nat.digitChar (b.toNat % 16)])

end Bytes

end CilCoverage
