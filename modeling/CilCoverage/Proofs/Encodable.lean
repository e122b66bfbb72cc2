/-
  Which instruction lists can be written, and what is read back of them.

  `Encodable` names the three things that `encode` asks for. It refuses every
  other list (`exists_encode`), and of those it writes, the ones whose targets
  lie in the code are read back as they were, and no others
  (`decode_encode_iff`). Long displacements are written without a check; below
  2^31 bytes none of them leaves the signed range, so nothing is lost.
-/
import CilCoverage.Proofs.Lowering

namespace CilCoverage.Code

/-- The instructions record where they are laid out, and their operands can be written. -/
structure Encodable (is : List (Instruction Nat)) : Prop where
  /-- Each offset is the sum of the sizes of the instructions before it. -/
  offsets : ∀ k (hk : k < is.length), is[k].offset = position is k
  /-- Each operand has the shape its opcode asks for. -/
  shapes : ∀ i ∈ is, i.opcode.operandKind.admits i.operand = true
  /-- Each displacement of one byte is in range. -/
  reaches : ∀ i ∈ is, i.opcode.operandKind = .target8 → ∀ t ∈ i.operand.targets,
    -128 ≤ displacement i t ∧ displacement i t ≤ 127

instance (is : List (Instruction Nat)) : Decidable (Encodable is) :=
  decidable_of_iff
    ((∀ k (hk : k < is.length), is[k].offset = position is k) ∧
      (∀ i ∈ is, i.opcode.operandKind.admits i.operand = true) ∧
      ∀ i ∈ is, i.opcode.operandKind = .target8 → ∀ t ∈ i.operand.targets,
        -128 ≤ displacement i t ∧ displacement i t ≤ 127)
    ⟨fun ⟨h₁, h₂, h₃⟩ => ⟨h₁, h₂, h₃⟩, fun ⟨h₁, h₂, h₃⟩ => ⟨h₁, h₂, h₃⟩⟩

variable {is : List (Instruction Nat)} {code : Bytes}

theorem contiguous_zero_iff :
    Contiguous 0 is ↔ ∀ k (hk : k < is.length), is[k].offset = position is k := by
  rw [contiguous_iff]
  constructor
  · intro h k hk
    rw [h k _ (List.getElem?_eq_getElem hk), Nat.zero_add]
  · intro h k i hi
    obtain ⟨hk, rfl⟩ := List.getElem?_eq_some_iff.mp hi
    rw [h k hk, Nat.zero_add]

/-- What can be written is what is encodable. -/
theorem exists_encode : (∃ code, encode is = .ok code) ↔ Encodable is := by
  constructor
  · rintro ⟨code, hcode⟩
    obtain ⟨hc, -, hall⟩ := of_encodeFrom hcode
    exact ⟨contiguous_zero_iff.mp hc, fun i hi => (hall i hi).1, fun i hi => (hall i hi).2⟩
  · rintro ⟨hoffsets, hshapes, hreaches⟩
    exact exists_encodeFrom (contiguous_zero_iff.mpr hoffsets)
      fun i hi => ⟨hshapes i hi, hreaches i hi⟩

/-- Exactly the lists whose targets lie in the code are read back. -/
theorem decode_encode_iff (h : encode is = .ok code) (hsize : streamSize is ≤ 2 ^ 31) :
    decode code = .ok is ↔ ∀ i ∈ is, ∀ t ∈ i.operand.targets, t < streamSize is := by
  obtain ⟨-, hlen, -⟩ := of_encodeFrom h
  constructor
  · intro hd i hi t ht
    obtain ⟨-, -, hreadable⟩ := of_decode hd
    rw [← hlen]
    exact (hreadable i hi).targets t ht
  · intro ht
    rw [← hlen] at hsize ht
    exact decode_encode h hsize ht

/-- Encoding is faithful: it refuses exactly the lists that are not encodable, and code whose
targets lie in it is read back as the list it was written from. -/
theorem encode_faithful (is : List (Instruction Nat)) (hsize : streamSize is < 2 ^ 31) :
    ((∃ code, encode is = .ok code) ↔ Encodable is) ∧
      ∀ code, encode is = .ok code → code.length = streamSize is ∧
        (decode code = .ok is ↔ ∀ i ∈ is, ∀ t ∈ i.operand.targets, t < streamSize is) := by
  refine ⟨exists_encode, ?_⟩
  intro code hcode
  obtain ⟨-, hlen, -⟩ := of_encodeFrom hcode
  exact ⟨hlen, decode_encode_iff hcode (Nat.le_of_lt hsize)⟩

/-- Two branches of one byte that reach as far as they can, around a table, an opcode of two
bytes, the last number of a local in one byte and a number with a fraction. -/
def stretched : List (Instruction Nat) :=
  [⟨0, .brS, .target 129⟩, ⟨2, .switch, .table (List.replicate 29 0 ++ [142])⟩,
    ⟨127, .ceq, .none⟩, ⟨129, .brtrueS, .target 3⟩, ⟨131, .ldlocS, .var 255⟩,
    ⟨133, .ldcR8, .float64 0x7ff8000000000001⟩, ⟨142, .ret, .none⟩]

theorem encode_faithful_stretched :
    streamSize stretched < 2 ^ 31 ∧ Encodable stretched ∧
      ∃ code, encode stretched = .ok code ∧ code.length = 143 ∧ decode code = .ok stretched := by
  have hsize : streamSize stretched < 2 ^ 31 := by decide
  have henc : Encodable stretched := by decide
  obtain ⟨hiff, hread⟩ := encode_faithful stretched hsize
  obtain ⟨code, hcode⟩ := hiff.mpr henc
  obtain ⟨hlen, hdecode⟩ := hread code hcode
  exact ⟨hsize, henc, code, hcode, hlen.trans (by decide), hdecode.mpr (by decide)⟩

end CilCoverage.Code
