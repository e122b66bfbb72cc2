/-
  Writing back what was read.

  A reader that succeeds has taken off the front of its bytes what the writer
  makes of the result: a number (`fetch_eq_ok`), an operand
  (`encodeOperand_of_decodeOperand`), an instruction. So code that can be
  decoded is given back by encoding its instructions, and these stand in it one
  behind the other, from the first byte to the last (`encode_of_decode`).
-/
import CilCoverage.Proofs.Lowering

namespace CilCoverage

/-! ## Numbers -/

namespace Bytes

theorem of_readNat {width n : Nat} {bytes rest : Bytes}
    (h : readNat width bytes = some (n, rest)) : bytes = ofNat width n ++ rest := by
  unfold readNat at h
  split at h
  · next hw =>
    cases h
    have hlen : (bytes.take width).length = width := by
      rw [List.length_take]
      omega
    have htake : ofNat width (toNat (bytes.take width)) = bytes.take width := by
      have := ofNat_toNat (bytes.take width)
      rwa [hlen] at this
    rw [htake, List.take_append_drop]
  · cases h

/-- A number that was read as two's complement is written as the bytes it was read from. -/
theorem ofInt_signed {width n : Nat} (h : n < Nat.pow 256 width) :
    ofInt width (signed width n) = ofNat width n := by
  have hmod : (n : Int) % (Nat.pow 256 width : Nat) = n :=
    Int.emod_eq_of_lt (Int.natCast_nonneg n) (Int.ofNat_lt.mpr h)
  rw [ofInt, signed, Int.bmod_emod, hmod, Int.toNat_natCast]

end Bytes

namespace Code

open Result

theorem fetch_eq_ok {width pos n : Nat} {bytes rest : Bytes}
    (h : fetch width pos bytes = .ok (n, rest)) :
    bytes = Bytes.ofNat width n ++ rest ∧ n < Nat.pow 256 width := by
  refine ⟨?_, fetch_lt h⟩
  unfold fetch at h
  split at h
  · next hr =>
    cases h
    exact Bytes.of_readNat hr
  · cases h

theorem fetchTable_eq_ok {pos count : Nat} {bytes rest : Bytes} {ns : List Nat}
    (h : fetchTable pos count bytes = .ok (ns, rest)) :
    bytes = ns.flatMap (Bytes.ofNat 4) ++ rest ∧ ∀ n ∈ ns, n < Nat.pow 256 4 := by
  induction count generalizing pos bytes ns with
  | zero =>
    cases h
    exact ⟨rfl, by simp⟩
  | succ count ih =>
    obtain ⟨⟨n, rest'⟩, hn, h⟩ := bind_eq_ok.mp h
    obtain ⟨⟨ns', rest''⟩, hns, h⟩ := bind_eq_ok.mp h
    cases h
    obtain ⟨rfl, hlt⟩ := fetch_eq_ok hn
    obtain ⟨rfl, hall⟩ := ih hns
    exact ⟨by rw [List.flatMap_cons, List.append_assoc], List.forall_mem_cons.mpr ⟨hlt, hall⟩⟩

/-! ## Operands -/

/-- A displacement leads from a target back to itself. -/
theorem displacement_of_resolve {i : Instruction Nat} {size next t : Nat} {d : Int}
    (hnext : i.offset + i.size = next) (h : resolve i.offset size next d = .ok t) :
    displacement i t = d := by
  unfold resolve at h
  dsimp only at h
  split at h
  · cases h
    rw [displacement, hnext]
    omega
  · cases h

theorem signed_one_bounds (n : Nat) : -128 ≤ Bytes.signed 1 n ∧ Bytes.signed 1 n ≤ 127 := by
  have hlow := @Int.le_bmod n 256 (by decide)
  have hhigh := @Int.bmod_lt n 256 (by decide)
  have hsigned : Bytes.signed 1 n = Int.bmod n 256 := rfl
  omega

/-- The displacements of a jump table are written as they were read. -/
theorem flatMap_displacement {i : Instruction Nat} {size next : Nat} {ns ts : List Nat}
    (hnext : i.offset + i.size = next) (hlt : ∀ n ∈ ns, n < Nat.pow 256 4)
    (h : List.Forall₂ (fun n t => resolve i.offset size next (Bytes.signed 4 n) = .ok t) ns ts) :
    (ts.flatMap fun t => Bytes.ofInt 4 (displacement i t)) = ns.flatMap (Bytes.ofNat 4) := by
  induction h with
  | nil => rfl
  | @cons n t ns ts ht _ ih =>
    obtain ⟨hn, hns⟩ := List.forall_mem_cons.mp hlt
    rw [List.flatMap_cons, List.flatMap_cons, ih hns, displacement_of_resolve hnext ht,
      Bytes.ofInt_signed hn]

/-- A number that was read for an operand. -/
theorem of_fetched {width pos : Nat} {bytes rest : Bytes} {f : Nat → Operand Nat}
    {operand : Operand Nat}
    (h : (do
      let (n, rest) ← fetch width pos bytes
      .ok (f n, rest)) = Except.ok (operand, rest)) :
    ∃ n, operand = f n ∧ bytes = Bytes.ofNat width n ++ rest ∧ n < Nat.pow 256 width := by
  obtain ⟨⟨n, rest'⟩, hn, h⟩ := bind_eq_ok.mp h
  cases h
  exact ⟨n, rfl, fetch_eq_ok hn⟩

/-- A displacement that was read for a target. -/
theorem of_fetched_target {width pos : Nat} {i : Instruction Nat} {size : Nat}
    {bytes rest : Bytes} {operand : Operand Nat} (hnext : i.offset + i.size = pos + width)
    (h : (do
      let (n, rest) ← fetch width pos bytes
      let t ← resolve i.offset size (pos + width) (Bytes.signed width n)
      .ok (Operand.target t, rest)) = Except.ok (operand, rest)) :
    ∃ n t, operand = .target t ∧ displacement i t = Bytes.signed width n ∧
      bytes = Bytes.ofInt width (displacement i t) ++ rest := by
  obtain ⟨⟨n, rest'⟩, hn, h⟩ := bind_eq_ok.mp h
  obtain ⟨t, ht, h⟩ := bind_eq_ok.mp h
  cases h
  obtain ⟨rfl, hlt⟩ := fetch_eq_ok hn
  have hd := displacement_of_resolve hnext ht
  exact ⟨n, t, rfl, hd, by rw [hd, Bytes.ofInt_signed hlt]⟩

/-- A jump table that was read. -/
theorem of_fetched_table {opcode : OpCode} {offset size : Nat} {bytes rest : Bytes}
    {operand : Operand Nat} (hk : opcode.operandKind = .table)
    (h : decodeOperand .table offset size (offset + opcode.size) bytes = .ok (operand, rest)) :
    ∃ ts, operand = .table ts ∧ bytes = (Bytes.ofNat 4 ts.length ++
      ts.flatMap fun t => Bytes.ofInt 4 (displacement ⟨offset, opcode, operand⟩ t)) ++ rest := by
  obtain ⟨⟨count, rest'⟩, hcount, h⟩ := bind_eq_ok.mp h
  dsimp only at h
  split at h
  · cases h
  · obtain ⟨⟨ns, rest''⟩, hns, h⟩ := bind_eq_ok.mp h
    obtain ⟨ts, hts, h⟩ := bind_eq_ok.mp h
    cases h
    have hts := mapM_eq_ok.mp hts
    obtain ⟨rfl, -⟩ := fetch_eq_ok hcount
    have hlen : ns.length = count := (fetchTable_length hns).2
    obtain ⟨rfl, hlt⟩ := fetchTable_eq_ok hns
    have hcount : ts.length = count := by rw [← hts.length_eq, hlen]
    have hsize : (⟨offset, opcode, .table ts⟩ : Instruction Nat).size =
        opcode.size + (4 + 4 * count) := by
      simp only [Instruction.size, hk, OperandKind.size?, Operand.tableLength, hcount,
        Option.getD_none]
    have hnext : offset + (⟨offset, opcode, .table ts⟩ : Instruction Nat).size =
        offset + opcode.size + 4 + 4 * count := by
      rw [hsize]
      omega
    have hbytes := flatMap_displacement (i := ⟨offset, opcode, .table ts⟩) hnext hlt hts
    exact ⟨ts, rfl, by rw [hbytes, hcount, List.append_assoc]⟩

/-- An operand that was read is written as the bytes it was read from. -/
theorem encodeOperand_of_decodeOperand {opcode : OpCode} {offset size : Nat}
    {bytes rest : Bytes} {operand : Operand Nat}
    (h : decodeOperand opcode.operandKind offset size (offset + opcode.size) bytes =
      .ok (operand, rest)) :
    ∃ xs, encodeOperand ⟨offset, opcode, operand⟩ = .ok xs ∧ bytes = xs ++ rest := by
  have hnext (n : Nat) (hsize : opcode.operandKind.size? = some n) :
      offset + (⟨offset, opcode, operand⟩ : Instruction Nat).size = offset + opcode.size + n := by
    rw [size_eq_of_operandKind hsize, Nat.add_assoc]
  unfold encodeOperand
  cases hk : opcode.operandKind <;> rw [hk] at h hnext
  case none =>
    cases h
    exact ⟨[], rfl, rfl⟩
  case target8 =>
    obtain ⟨n, t, rfl, hd, rfl⟩ :=
      of_fetched_target (i := ⟨offset, opcode, operand⟩) (hnext 1 rfl) h
    have hbounds := signed_one_bounds n
    rw [← hd] at hbounds
    exact ⟨_, if_pos hbounds, rfl⟩
  case target32 =>
    obtain ⟨n, t, rfl, -, rfl⟩ :=
      of_fetched_target (i := ⟨offset, opcode, operand⟩) (hnext 4 rfl) h
    exact ⟨_, rfl, rfl⟩
  case table =>
    obtain ⟨ts, rfl, hbytes⟩ := of_fetched_table hk h
    exact ⟨_, rfl, hbytes⟩
  case int8 =>
    obtain ⟨n, rfl, rfl, hlt⟩ := of_fetched (f := fun n => .int8 (Int8.ofNat n)) h
    have hint := Bytes.ofInt_signed hlt
    exact ⟨_, by dsimp only; rw [Int8.toInt_ofNat']; exact congrArg Except.ok hint, rfl⟩
  case int32 =>
    obtain ⟨n, rfl, rfl, hlt⟩ := of_fetched (f := fun n => .int32 (Int32.ofNat n)) h
    have hint := Bytes.ofInt_signed hlt
    exact ⟨_, by dsimp only; rw [Int32.toInt_ofNat']; exact congrArg Except.ok hint, rfl⟩
  case int64 =>
    obtain ⟨n, rfl, rfl, hlt⟩ := of_fetched (f := fun n => .int64 (Int64.ofNat n)) h
    have hint := Bytes.ofInt_signed hlt
    exact ⟨_, by dsimp only; rw [Int64.toInt_ofNat']; exact congrArg Except.ok hint, rfl⟩
  case float32 =>
    obtain ⟨n, rfl, rfl, hlt⟩ := of_fetched (f := fun n => .float32 (UInt32.ofNat n)) h
    exact ⟨_, rfl, by rw [UInt32.toNat_ofNat_of_lt' hlt]⟩
  case float64 =>
    obtain ⟨n, rfl, rfl, hlt⟩ := of_fetched (f := fun n => .float64 (UInt64.ofNat n)) h
    exact ⟨_, rfl, by rw [UInt64.toNat_ofNat_of_lt' hlt]⟩
  case var8 =>
    obtain ⟨n, rfl, rfl, hlt⟩ := of_fetched (f := fun n => .var (UInt16.ofNat n)) h
    have hlt : n < 256 := hlt
    have hindex : (UInt16.ofNat n).toNat = n :=
      UInt16.toNat_ofNat_of_lt' (Nat.lt_trans hlt (by decide))
    exact ⟨_, by dsimp only; rw [hindex, if_pos hlt], rfl⟩
  case var16 =>
    obtain ⟨n, rfl, rfl, hlt⟩ := of_fetched (f := fun n => .var (UInt16.ofNat n)) h
    exact ⟨_, rfl, by rw [UInt16.toNat_ofNat_of_lt' hlt]⟩
  case token =>
    obtain ⟨n, rfl, rfl, hlt⟩ := of_fetched (f := fun n => .token ⟨UInt32.ofNat n⟩) h
    exact ⟨_, rfl, by rw [UInt32.toNat_ofNat_of_lt' hlt]⟩

/-! ## Instructions -/

/-- The bytes that an opcode was read from. -/
theorem eq_encodeOpCode_of_decodeValue {opcode : OpCode} {offset : Nat} {bytes rest : Bytes}
    (h : decodeValue offset bytes = .ok (opcode.value, rest)) :
    bytes = encodeOpCode opcode ++ rest := by
  obtain ⟨⟨b, rest'⟩, hb, hafter⟩ := bind_eq_ok.mp h
  obtain ⟨hbytes, hlt⟩ := fetch_eq_ok hb
  have hlt : b < 256 := hlt
  dsimp only at hafter
  split at hafter
  · next hprefix =>
    obtain ⟨⟨c, rest''⟩, hc, hpair⟩ := bind_eq_ok.mp hafter
    obtain ⟨rfl, -⟩ := fetch_eq_ok hc
    obtain ⟨hvalue, rfl⟩ : 0xfe00 + c = opcode.value ∧ rest'' = rest :=
      Prod.mk.inj (Except.ok.inj hpair)
    have hlow : UInt8.ofNat opcode.value = UInt8.ofNat c := by
      apply UInt8.toNat_inj.mp
      rw [UInt8.toNat_ofNat', UInt8.toNat_ofNat', ← hvalue]
      omega
    rw [encodeOpCode, if_pos (by omega), hlow, hbytes, hprefix]
    rfl
  · obtain ⟨hvalue, rfl⟩ := Prod.mk.inj (Except.ok.inj hafter)
    rw [encodeOpCode, if_neg (by omega), hbytes, ← hvalue]
    rfl

/-- An instruction that was read is written as the bytes it was read from. -/
theorem encode_of_decodeOne {size offset : Nat} {bytes rest : Bytes} {i : Instruction Nat}
    (h : decodeOne size offset bytes = .ok (i, rest)) :
    ∃ xs, encodeOperand i = .ok xs ∧ bytes = encodeOpCode i.opcode ++ xs ++ rest := by
  obtain ⟨⟨value, rest'⟩, hvalue, h⟩ := bind_eq_ok.mp h
  dsimp only at h
  split at h
  · cases h
  · next opcode hopcode =>
    obtain ⟨⟨operand, rest''⟩, hoperand, h⟩ := bind_eq_ok.mp h
    cases h
    rw [← OpCode.value_of_ofValue? hopcode] at hvalue
    obtain ⟨xs, hxs, rfl⟩ := encodeOperand_of_decodeOperand hoperand
    exact ⟨xs, hxs, by rw [eq_encodeOpCode_of_decodeValue hvalue, List.append_assoc]⟩

/-! ## Streams -/

theorem encodeFrom_of_decodeFrom {size offset : Nat} {bytes : Bytes} {is : List (Instruction Nat)}
    (h : decodeFrom size offset bytes = .ok is) : encodeFrom offset is = .ok bytes := by
  induction is generalizing offset bytes with
  | nil =>
    obtain ⟨-, hlen, -⟩ := of_decodeFrom h
    rw [List.length_eq_zero_iff.mp hlen.symm]
    rfl
  | cons i rest ih =>
    have hne : bytes ≠ [] := by
      rintro rfl
      rw [decodeFrom_nil] at h
      cases h
    rw [decodeFrom_eq hne] at h
    obtain ⟨⟨j, bytes'⟩, hj, h⟩ := bind_eq_ok.mp h
    obtain ⟨rest', hrest, h⟩ := map_eq_ok.mp h
    obtain ⟨rfl, rfl⟩ := List.cons.inj h
    obtain ⟨hoffset, -, -⟩ := of_decodeOne hj
    obtain ⟨xs, hxs, rfl⟩ := encode_of_decodeOne hj
    have hlen : (encodeOpCode j.opcode ++ xs).length = j.size := by
      rw [List.length_append, length_encodeOpCode, length_encodeOperand hxs]
    rw [encodeFrom, if_neg (by simp [hoffset]), hxs]
    simp only [bind, Except.bind]
    rw [hlen, ih hrest]

/-- The instructions stand in code of `size` bytes one behind the other, from the first byte to
the last. -/
structure Fills (size : Nat) (is : List (Instruction Nat)) : Prop where
  starts : ∀ i, is.head? = some i → i.offset = 0
  follows : ∀ k i j, is[k]? = some i → is[k + 1]? = some j → j.offset = i.offset + i.size
  ends : ∀ i, is.getLast? = some i → i.offset + i.size = size

theorem Contiguous.fills {is : List (Instruction Nat)} (hc : Contiguous 0 is) :
    Fills (streamSize is) is := by
  have hoffset : ∀ k i, is[k]? = some i →
      i.offset = position is k ∧ i.offset + i.size = position is (k + 1) := by
    intro k i hi
    have hposition := contiguous_iff.mp hc k i hi
    obtain ⟨hk, rfl⟩ := List.getElem?_eq_some_iff.mp hi
    rw [Nat.zero_add] at hposition
    refine ⟨hposition, ?_⟩
    rw [hposition, position, position, begins_succ (by rwa [List.length_map]), List.getElem_map]
  constructor
  · intro i hi
    rw [List.head?_eq_getElem?] at hi
    rw [(hoffset 0 i hi).1, position_zero]
  · intro k i j hi hj
    rw [(hoffset k i hi).2, (hoffset (k + 1) j hj).1]
  · intro i hi
    rw [List.getLast?_eq_getElem?] at hi
    have hlt := (List.getElem?_eq_some_iff.mp hi).1
    rw [(hoffset _ i hi).2, Nat.sub_add_cancel (by omega), position_length]

/-- Code that can be decoded is given back by encoding its instructions, which fill it. -/
theorem encode_of_decode {code : Bytes} {is : List (Instruction Nat)}
    (h : decode code = .ok is) : encode is = .ok code ∧ Fills code.length is := by
  obtain ⟨hc, hsize, -⟩ := of_decode h
  have hfills := hc.fills
  rw [hsize] at hfills
  exact ⟨encodeFrom_of_decodeFrom h, hfills⟩

/-- A jump table with an entry that leads back, an opcode of two bytes, a signalling NaN, a long
and a short number of a local, and branches either way. -/
def assorted : Bytes :=
  [0x45, 2, 0, 0, 0, 0, 0, 0, 0, 0xf3, 0xff, 0xff, 0xff, 0xfe, 0x01, 0x22, 1, 0, 0x80, 0x7f,
    0x11, 0xff, 0xfe, 0x0c, 0xff, 0xff, 0x2b, 0xfe, 0x38, 0xdf, 0xff, 0xff, 0xff, 0x2a]

theorem encode_of_decode_assorted :
    ∃ is, decode assorted = .ok is ∧ is.map Instruction.offset = [0, 13, 15, 20, 22, 26, 28, 33] ∧
      encode is = .ok assorted ∧ Fills assorted.length is := by
  have hoffsets : (decode assorted).map (·.map Instruction.offset) =
      .ok [0, 13, 15, 20, 22, 26, 28, 33] := by decide +kernel
  obtain ⟨is, his, hmap⟩ := Result.map_eq_ok.mp hoffsets
  exact ⟨is, his, hmap, encode_of_decode his⟩

end Code

end CilCoverage
