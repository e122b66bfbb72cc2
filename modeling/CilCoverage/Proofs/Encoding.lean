/-
  Reading back what was written.

  Decoding the code of instructions that stand one behind the other gives the
  instructions again, with each target replaced by what its displacement is
  read as (`decodeFrom_encodeFrom`). A displacement of four bytes is read as it
  was written while the code is shorter than 2^31 bytes; in longer code a
  target can still only be read as itself, or not at all (`redirect_eq_self`).
-/
import CilCoverage.Code
import CilCoverage.Proofs.Operands
import CilCoverage.Proofs.Positions

namespace CilCoverage

/-! ## Opcodes -/

namespace OpCode

/-- Values of one byte stay below the byte that announces a second one. -/
theorem value_cases (op : OpCode) :
    op.value < 0xfe ∨ (0xfe00 ≤ op.value ∧ op.value < 0xff00) := by
  have h : ∀ op ∈ all, op.value < 0xfe ∨ (0xfe00 ≤ op.value ∧ op.value < 0xff00) := by
    decide +kernel
  exact h op (mem_all op)

theorem size_pos (op : OpCode) : 0 < op.size := by
  unfold size
  split <;> omega

end OpCode

namespace Code

open Result

/-! ## Numbers -/

theorem fetch_ofNat (width pos n : Nat) (rest : Bytes) :
    fetch width pos (Bytes.ofNat width n ++ rest) = .ok (n % Nat.pow 256 width, rest) := by
  rw [fetch, Bytes.readNat_append]

/-- What is read back of a number in two's complement. -/
theorem fetch_ofInt (width pos : Nat) (d : Int) (rest : Bytes) :
    fetch width pos (Bytes.ofInt width d ++ rest) =
      .ok ((d % Nat.pow 256 width).toNat, rest) := by
  have hpos : 0 < Nat.pow 256 width := Nat.pow_pos (by omega)
  have hlt := Int.emod_lt_of_pos d (Int.natCast_pos.mpr hpos)
  have hnonneg := Int.emod_nonneg d (Int.natCast_ne_zero.mpr (Nat.ne_of_gt hpos))
  rw [Bytes.ofInt, fetch_ofNat, Nat.mod_eq_of_lt (by omega)]

theorem signed_emod (width : Nat) (d : Int) :
    Bytes.signed width (d % Nat.pow 256 width).toNat = Int.bmod d (Nat.pow 256 width) := by
  have hpos : 0 < Nat.pow 256 width := Nat.pow_pos (by omega)
  have hnonneg := Int.emod_nonneg d (Int.natCast_ne_zero.mpr (Nat.ne_of_gt hpos))
  rw [Bytes.signed, Int.toNat_of_nonneg hnonneg, Int.emod_bmod]

theorem length_ofInt (width : Nat) (d : Int) : (Bytes.ofInt width d).length = width :=
  Bytes.length_ofNat _ _

theorem length_flatMap_ofInt {α : Type} (width : Nat) (f : α → Int) (xs : List α) :
    (xs.flatMap fun x => Bytes.ofInt width (f x)).length = width * xs.length := by
  induction xs with
  | nil => rfl
  | cons x xs ih =>
    rw [List.flatMap_cons, List.length_append, ih, length_ofInt, List.length_cons, Nat.mul_succ,
      Nat.add_comm]

theorem fetchTable_ofInt (ds : List Int) (pos : Nat) (rest : Bytes) :
    fetchTable pos ds.length (ds.flatMap (Bytes.ofInt 4) ++ rest) =
      .ok (ds.map fun d : Int => (d % Nat.pow 256 4).toNat, rest) := by
  induction ds generalizing pos with
  | nil => rfl
  | cons d ds ih =>
    rw [List.flatMap_cons, List.append_assoc, List.length_cons, fetchTable, fetch_ofInt]
    simp only [bind, Except.bind]
    rw [ih]
    rfl

theorem int8_ofNat_emod (v : Int8) : Int8.ofNat (v.toInt % Nat.pow 256 1).toNat = v := by
  apply Int8.toInt_inj.mp
  rw [Int8.toInt_ofNat']
  exact (signed_emod 1 v.toInt).trans v.toInt_bmod_size

theorem int32_ofNat_emod (v : Int32) : Int32.ofNat (v.toInt % Nat.pow 256 4).toNat = v := by
  apply Int32.toInt_inj.mp
  rw [Int32.toInt_ofNat']
  exact (signed_emod 4 v.toInt).trans v.toInt_bmod_size

theorem int64_ofNat_emod (v : Int64) : Int64.ofNat (v.toInt % Nat.pow 256 8).toNat = v := by
  apply Int64.toInt_inj.mp
  rw [Int64.toInt_ofNat']
  exact (signed_emod 8 v.toInt).trans v.toInt_bmod_size

theorem uint16_ofNat_mod (v : UInt16) : UInt16.ofNat (v.toNat % Nat.pow 256 2) = v := by
  have hpow : Nat.pow 256 2 = UInt16.size := rfl
  rw [hpow, Nat.mod_eq_of_lt v.toNat_lt_size, UInt16.ofNat_toNat]

theorem uint32_ofNat_mod (v : UInt32) : UInt32.ofNat (v.toNat % Nat.pow 256 4) = v := by
  have hpow : Nat.pow 256 4 = UInt32.size := rfl
  rw [hpow, Nat.mod_eq_of_lt v.toNat_lt_size, UInt32.ofNat_toNat]

theorem uint64_ofNat_mod (v : UInt64) : UInt64.ofNat (v.toNat % Nat.pow 256 8) = v := by
  have hpow : Nat.pow 256 8 = UInt64.size := rfl
  rw [hpow, Nat.mod_eq_of_lt v.toNat_lt_size, UInt64.ofNat_toNat]

/-! ## Operands -/

/-- Width of the displacements of an instruction. -/
def displacementWidth (i : Instruction Nat) : Nat :=
  if i.opcode.operandKind = .target8 then 1 else 4

/-- What a target is read as, in code of `size` bytes. -/
def redirect (size : Nat) (i : Instruction Nat) (target : Nat) : Except CodeError Nat :=
  resolve i.offset size (i.offset + i.size)
    (Int.bmod (displacement i target) (Nat.pow 256 (displacementWidth i)))

/-- A branch with a displacement of one byte is close enough to its target. -/
def Reaches (i : Instruction Nat) : Prop :=
  i.opcode.operandKind = .target8 → ∀ t ∈ i.operand.targets,
    -128 ≤ displacement i t ∧ displacement i t ≤ 127

theorem exists_encodeOperand {i : Instruction Nat} :
    (∃ bytes, encodeOperand i = .ok bytes) ↔ i.fits = true ∧ Reaches i := by
  unfold encodeOperand Instruction.fits Reaches
  cases hk : i.opcode.operandKind <;> cases ho : i.operand <;>
    simp [OperandKind.admits, Operand.targets]
  case target8.target t => split <;> simp_all
  case var8.var index => split <;> simp_all

theorem length_encodeOperand {i : Instruction Nat} {bytes : Bytes}
    (h : encodeOperand i = .ok bytes) : i.opcode.size + bytes.length = i.size := by
  unfold encodeOperand at h
  unfold Instruction.size
  cases hk : i.opcode.operandKind <;> cases ho : i.operand <;> simp only [hk, ho] at h
  case target8.target t =>
    split at h <;> cases h
    simp [OperandKind.size?, length_ofInt]
  case var8.var index =>
    split at h <;> cases h
    simp [OperandKind.size?]
  case table.table ts =>
    cases h
    rw [List.length_append, Bytes.length_ofNat, length_flatMap_ofInt]
    rfl
  all_goals
    cases h <;> simp [OperandKind.size?, length_ofInt]

theorem size_eq_of_operandKind {i : Instruction Nat} {n : Nat}
    (h : i.opcode.operandKind.size? = some n) : i.size = i.opcode.size + n := by
  rw [Instruction.size, h, Option.getD_some]

theorem fetch_target (width pos offset size : Nat) (d : Int) (rest : Bytes) :
    (do
      let (n, rest) ← fetch width pos (Bytes.ofInt width d ++ rest)
      let t ← resolve offset size (pos + width) (Bytes.signed width n)
      .ok (Operand.target t, rest)) =
    ((resolve offset size (pos + width) (Int.bmod d (Nat.pow 256 width))).map
      Operand.target).map fun operand => (operand, rest) := by
  rw [fetch_ofInt]
  simp only [bind, Except.bind, signed_emod]
  generalize resolve _ _ _ _ = x
  cases x <;> rfl

theorem mapM_signed_emod {β : Type} (width : Nat) (f : Int → Except CodeError β)
    (ds : List Int) :
    (ds.map fun d : Int => (d % Nat.pow 256 width).toNat).mapM
        (fun n => f (Bytes.signed width n)) =
      ds.mapM fun d => f (Int.bmod d (Nat.pow 256 width)) := by
  rw [List.mapM_map]
  exact mapM_congr fun d _ => congrArg f (signed_emod width d)

theorem fetch_table {i : Instruction Nat} {ts : List Nat} (hwidth : displacementWidth i = 4)
    (hsize : i.size = i.opcode.size + (4 + 4 * ts.length))
    (hcount : ts.length % Nat.pow 256 4 = ts.length) {size : Nat} {rest : Bytes} :
    decodeOperand .table i.offset size (i.offset + i.opcode.size)
        ((Bytes.ofNat 4 ts.length ++ ts.flatMap fun t => Bytes.ofInt 4 (displacement i t)) ++
          rest) =
      ((Operand.table ts).mapTargetsM (redirect size i)).map fun operand => (operand, rest) := by
  have hds : (ts.flatMap fun t => Bytes.ofInt 4 (displacement i t)) =
      (ts.map (displacement i)).flatMap (Bytes.ofInt 4) := by
    rw [List.flatMap_map]
  have hread := fetchTable_ofInt (ts.map (displacement i)) (i.offset + i.opcode.size + 4) rest
  have hlong : ¬((ts.map (displacement i)).flatMap (Bytes.ofInt 4) ++ rest).length <
      4 * ts.length := by
    rw [List.length_append, length_flatMap_ofInt 4 (fun d => d), List.length_map]
    omega
  have hresolve := mapM_signed_emod 4
    (resolve i.offset size (i.offset + i.opcode.size + 4 + 4 * ts.length))
    (ts.map (displacement i))
  rw [List.length_map] at hread
  have hnext : i.offset + i.size = i.offset + i.opcode.size + 4 + 4 * ts.length := by
    rw [hsize]
    omega
  have hredirect : redirect size i = fun t =>
      resolve i.offset size (i.offset + i.opcode.size + 4 + 4 * ts.length)
        (Int.bmod (displacement i t) (Nat.pow 256 4)) := by
    funext t
    rw [redirect, hwidth, hnext]
  rw [decodeOperand, List.append_assoc, fetch_ofNat, hcount, hds, Operand.mapTargetsM, hredirect]
  dsimp only [bind, Except.bind]
  rw [if_neg hlong, hread]
  dsimp only
  rw [hresolve, List.mapM_map]
  simp only [Function.comp_def]
  generalize List.mapM (m := Except CodeError) _ ts = x
  cases x <;> rfl

/-- An operand is read back as it was, its targets apart. -/
theorem decodeOperand_encodeOperand {i : Instruction Nat} {bytes : Bytes}
    (h : encodeOperand i = .ok bytes) (hlen : bytes.length ≤ 2 ^ 32) (size : Nat)
    (rest : Bytes) :
    decodeOperand i.opcode.operandKind i.offset size (i.offset + i.opcode.size)
        (bytes ++ rest) =
      (i.operand.mapTargetsM (redirect size i)).map fun operand => (operand, rest) := by
  unfold encodeOperand at h
  cases hk : i.opcode.operandKind <;> cases ho : i.operand <;> simp only [hk, ho] at h
  case target8.target t =>
    split at h <;> cases h
    have hsize := size_eq_of_operandKind (i := i) (n := 1) (by rw [hk]; rfl)
    have hwidth : displacementWidth i = 1 := by simp [displacementWidth, hk]
    rw [Operand.mapTargetsM, redirect, hwidth, hsize, ← Nat.add_assoc]
    exact fetch_target 1 _ i.offset size _ rest
  case target32.target t =>
    cases h
    have hsize := size_eq_of_operandKind (i := i) (n := 4) (by rw [hk]; rfl)
    have hwidth : displacementWidth i = 4 := by simp [displacementWidth, hk]
    rw [Operand.mapTargetsM, redirect, hwidth, hsize, ← Nat.add_assoc]
    exact fetch_target 4 _ i.offset size _ rest
  case table.table ts =>
    cases h
    have hwidth : displacementWidth i = 4 := by simp [displacementWidth, hk]
    have hsize : i.size = i.opcode.size + (4 + 4 * ts.length) := by
      simp [Instruction.size, hk, ho, OperandKind.size?, Operand.tableLength]
    have hcount : ts.length % Nat.pow 256 4 = ts.length := by
      have hpow : Nat.pow 256 4 = 2 ^ 32 := rfl
      rw [List.length_append, length_flatMap_ofInt] at hlen
      rw [hpow, Nat.mod_eq_of_lt (by omega)]
    exact fetch_table hwidth hsize hcount
  case var8.var index =>
    split at h
    · next hlt =>
      cases h
      have hpow : Nat.pow 256 1 = 256 := rfl
      rw [decodeOperand, fetch_ofNat, hpow, Nat.mod_eq_of_lt hlt]
      show Except.ok (Operand.var (UInt16.ofNat _), rest) = _
      rw [UInt16.ofNat_toNat]
      rfl
    · cases h
  case int8.int8 v =>
    cases h
    rw [decodeOperand, fetch_ofInt]
    show Except.ok (Operand.int8 (Int8.ofNat _), rest) = _
    rw [int8_ofNat_emod]
    rfl
  case int32.int32 v =>
    cases h
    rw [decodeOperand, fetch_ofInt]
    show Except.ok (Operand.int32 (Int32.ofNat _), rest) = _
    rw [int32_ofNat_emod]
    rfl
  case int64.int64 v =>
    cases h
    rw [decodeOperand, fetch_ofInt]
    show Except.ok (Operand.int64 (Int64.ofNat _), rest) = _
    rw [int64_ofNat_emod]
    rfl
  case float32.float32 bits =>
    cases h
    rw [decodeOperand, fetch_ofNat]
    show Except.ok (Operand.float32 (UInt32.ofNat _), rest) = _
    rw [uint32_ofNat_mod]
    rfl
  case float64.float64 bits =>
    cases h
    rw [decodeOperand, fetch_ofNat]
    show Except.ok (Operand.float64 (UInt64.ofNat _), rest) = _
    rw [uint64_ofNat_mod]
    rfl
  case var16.var index =>
    cases h
    rw [decodeOperand, fetch_ofNat]
    show Except.ok (Operand.var (UInt16.ofNat _), rest) = _
    rw [uint16_ofNat_mod]
    rfl
  case token.token t =>
    cases h
    rw [decodeOperand, fetch_ofNat]
    show Except.ok (Operand.token ⟨UInt32.ofNat _⟩, rest) = _
    rw [uint32_ofNat_mod]
    rfl
  case none.none =>
    cases h
    rfl
  all_goals cases h

/-! ## Instructions -/

theorem length_encodeOpCode (opcode : OpCode) : (encodeOpCode opcode).length = opcode.size := by
  unfold encodeOpCode OpCode.size
  split <;> rfl

theorem fetch_byte (pos : Nat) (b : UInt8) (rest : Bytes) :
    fetch 1 pos (b :: rest) = .ok (b.toNat, rest) := by
  simp [fetch, Bytes.readNat, Bytes.toNat]

theorem decodeValue_encodeOpCode (offset : Nat) (opcode : OpCode) (rest : Bytes) :
    decodeValue offset (encodeOpCode opcode ++ rest) = .ok (opcode.value, rest) := by
  have hvalue := opcode.value_cases
  have hbyte : (UInt8.ofNat opcode.value).toNat = opcode.value % 256 := UInt8.toNat_ofNat'
  unfold decodeValue encodeOpCode
  split
  · have hsum : 0xfe00 + opcode.value % 256 = opcode.value := by omega
    simp only [List.cons_append, List.nil_append, fetch_byte, bind, Except.bind]
    simp [hbyte, hsum]
  · have hmod : opcode.value % 256 = opcode.value := by omega
    have hne : opcode.value ≠ 0xfe := by omega
    simp only [List.cons_append, List.nil_append, fetch_byte, bind, Except.bind]
    simp [hbyte, hmod, hne]

/-- An instruction is read back as it was, its targets apart. -/
theorem decodeOne_encode {i : Instruction Nat} {bytes : Bytes}
    (h : encodeOperand i = .ok bytes) (hlen : bytes.length ≤ 2 ^ 32) (size : Nat)
    (rest : Bytes) :
    decodeOne size i.offset (encodeOpCode i.opcode ++ bytes ++ rest) =
      (i.mapTargetsM (redirect size i)).map fun j => (j, rest) := by
  rw [decodeOne, List.append_assoc, decodeValue_encodeOpCode]
  simp only [bind, Except.bind]
  rw [OpCode.ofValue?_value]
  dsimp only
  rw [decodeOperand_encodeOperand h hlen, Instruction.mapTargetsM]
  cases i.operand.mapTargetsM (redirect size i) <;> rfl

/-! ## Streams -/

/-- The instructions stand one behind the other, the first one at `pos`. -/
def Contiguous {α : Type} : Nat → List (Instruction α) → Prop
  | _, [] => True
  | pos, i :: rest => i.offset = pos ∧ Contiguous (pos + i.size) rest

/-- The size of a stream in bytes. -/
def streamSize {α : Type} (is : List (Instruction α)) : Nat := (is.map Instruction.size).sum

theorem exists_encodeFrom {pos : Nat} {is : List (Instruction Nat)} (hc : Contiguous pos is)
    (h : ∀ i ∈ is, i.fits = true ∧ Reaches i) : ∃ bytes, encodeFrom pos is = .ok bytes := by
  induction is generalizing pos with
  | nil => exact ⟨[], rfl⟩
  | cons i rest ih =>
    obtain ⟨hi, hrest⟩ := List.forall_mem_cons.mp h
    obtain ⟨operand, hoperand⟩ := exists_encodeOperand.mpr hi
    obtain ⟨rfl, hc⟩ := hc
    have hlen : (encodeOpCode i.opcode ++ operand).length = i.size := by
      rw [List.length_append, length_encodeOpCode, length_encodeOperand hoperand]
    obtain ⟨tail, htail⟩ := ih hc hrest
    refine ⟨encodeOpCode i.opcode ++ operand ++ tail, ?_⟩
    rw [encodeFrom, if_neg (by simp), hoperand]
    simp only [bind, Except.bind]
    rw [hlen, htail]

/-- What holds of instructions that can be written. -/
theorem of_encodeFrom {pos : Nat} {is : List (Instruction Nat)} {bytes : Bytes}
    (h : encodeFrom pos is = .ok bytes) :
    Contiguous pos is ∧ bytes.length = streamSize is ∧ ∀ i ∈ is, i.fits = true ∧ Reaches i := by
  induction is generalizing pos bytes with
  | nil =>
    cases h
    exact ⟨trivial, rfl, by simp⟩
  | cons i rest ih =>
    rw [encodeFrom] at h
    split at h
    · cases h
    · next hpos =>
      obtain ⟨operand, hoperand, h⟩ := bind_eq_ok.mp h
      obtain ⟨tail, htail, h⟩ := bind_eq_ok.mp h
      cases h
      have hlen : (encodeOpCode i.opcode ++ operand).length = i.size := by
        rw [List.length_append, length_encodeOpCode, length_encodeOperand hoperand]
      obtain ⟨hc, hrest, hfits⟩ := ih htail
      rw [hlen] at hc
      refine ⟨⟨(Decidable.not_not.mp hpos).symm, hc⟩, ?_, ?_⟩
      · rw [List.length_append, hlen, hrest]
        rfl
      · exact List.forall_mem_cons.mpr ⟨exists_encodeOperand.mp ⟨operand, hoperand⟩, hfits⟩

theorem decodeFrom_nil (size offset : Nat) : decodeFrom size offset [] = .ok [] := by
  rw [decodeFrom]

theorem decodeFrom_eq {size offset : Nat} {bytes : Bytes} (h : bytes ≠ []) :
    decodeFrom size offset bytes =
      (decodeOne size offset bytes) >>= fun r =>
        (decodeFrom size (offset + r.1.size) r.2).map (r.1 :: ·) := by
  cases bytes with
  | nil => exact absurd rfl h
  | cons b bs =>
    rw [decodeFrom]
    split <;> simp_all [bind, Except.bind]

/-- A stream is read back as it was, its targets apart. -/
theorem decodeFrom_encodeFrom {pos : Nat} {is : List (Instruction Nat)} {bytes : Bytes}
    (h : encodeFrom pos is = .ok bytes) (hlen : bytes.length ≤ 2 ^ 32) (size : Nat) :
    decodeFrom size pos bytes = is.mapM fun i => i.mapTargetsM (redirect size i) := by
  induction is generalizing pos bytes with
  | nil =>
    cases h
    exact decodeFrom_nil size pos
  | cons i rest ih =>
    obtain ⟨⟨hpos, -⟩, -, -⟩ := of_encodeFrom h
    rw [encodeFrom, if_neg (by simp [hpos])] at h
    obtain ⟨operand, hoperand, h⟩ := bind_eq_ok.mp h
    obtain ⟨tail, htail, h⟩ := bind_eq_ok.mp h
    cases h
    have hsize := length_encodeOperand hoperand
    have hopcode := length_encodeOpCode i.opcode
    simp only [List.length_append] at hlen htail
    rw [hopcode, hsize] at htail
    have hne : encodeOpCode i.opcode ++ operand ++ tail ≠ [] := by
      have := i.opcode.size_pos
      intro hnil
      have := congrArg List.length hnil
      simp only [List.length_append, List.length_nil] at this
      omega
    rw [decodeFrom_eq hne, ← hpos, decodeOne_encode hoperand (by omega), hpos, List.mapM_cons]
    cases hi : i.mapTargetsM (redirect size i) with
    | error e => rfl
    | ok j =>
      obtain ⟨-, hop, hshape, -⟩ := Instruction.mapTargetsM_eq_ok.mp hi
      have hj : j.size = i.size := Instruction.size_eq_of_shape hop hshape
      simp only [Except.map, bind, Except.bind]
      rw [hj, ih htail (by omega)]
      cases rest.mapM fun i => i.mapTargetsM (redirect size i) <;> rfl

theorem Contiguous.bounds {α : Type} {pos : Nat} {is : List (Instruction α)} {i : Instruction α}
    (h : Contiguous pos is) (hi : i ∈ is) :
    pos ≤ i.offset ∧ i.offset + i.size ≤ pos + streamSize is := by
  induction is generalizing pos with
  | nil => cases hi
  | cons j rest ih =>
    obtain ⟨rfl, hrest⟩ := h
    have hsum : streamSize (j :: rest) = j.size + streamSize rest := rfl
    rcases List.mem_cons.mp hi with rfl | hi
    · omega
    · have := ih hrest hi
      omega

/-! ## Displacements -/

section Redirect

variable {size : Nat} {i : Instruction Nat} {t : Nat}

theorem bmod_displacement_of_reaches (hreach : Reaches i) (ht : t ∈ i.operand.targets)
    (hkind : i.opcode.operandKind = .target8) :
    Int.bmod (displacement i t) (Nat.pow 256 (displacementWidth i)) = displacement i t := by
  obtain ⟨hlow, hhigh⟩ := hreach hkind t ht
  have hpow : Nat.pow 256 1 = 256 := rfl
  rw [displacementWidth, if_pos hkind, hpow]
  exact Int.bmod_eq_of_le (by omega) (by omega)

theorem resolve_displacement (offset : Nat) (h : t < size) :
    resolve offset size (i.offset + i.size) (displacement i t) = .ok t := by
  have hsum : ((i.offset + i.size : Nat) : Int) + displacement i t = t := by
    rw [displacement]
    omega
  simp only [resolve, hsum]
  rw [if_pos (by omega), Int.toNat_natCast]

/-- In code of at most 2^31 bytes a target is read as it was written. -/
theorem redirect_eq_ok (hsize : size ≤ 2 ^ 31) (hreach : Reaches i)
    (ht : t ∈ i.operand.targets) (hlt : t < size) (hend : i.offset + i.size ≤ size) :
    redirect size i t = .ok t := by
  have hbmod : Int.bmod (displacement i t) (Nat.pow 256 (displacementWidth i)) =
      displacement i t := by
    by_cases hkind : i.opcode.operandKind = .target8
    · exact bmod_displacement_of_reaches hreach ht hkind
    · have hpow : Nat.pow 256 4 = 2 ^ 32 := rfl
      rw [displacementWidth, if_neg hkind, hpow]
      have hd : displacement i t = (t : Int) - (i.offset + i.size : Nat) := rfl
      exact Int.bmod_eq_of_le (by omega) (by omega)
  rw [redirect, hbmod, resolve_displacement i.offset hlt]

/-- In code of at most 2^32 bytes a target is read as it was written, or not at all. -/
theorem redirect_eq_self {u : Nat} (hsize : size ≤ 2 ^ 32) (hreach : Reaches i)
    (ht : t ∈ i.operand.targets) (hlt : t < size) (h : redirect size i t = .ok u) : u = t := by
  by_cases hkind : i.opcode.operandKind = .target8
  · rw [redirect, bmod_displacement_of_reaches hreach ht hkind,
      resolve_displacement i.offset hlt] at h
    exact (Except.ok.inj h).symm
  · have hpow : Nat.pow 256 4 = 2 ^ 32 := rfl
    rw [redirect, displacementWidth, if_neg hkind, hpow, resolve] at h
    have hmod := @Int.bmod_emod (displacement i t) (2 ^ 32)
    have hd : displacement i t = (t : Int) - (i.offset + i.size : Nat) := rfl
    split at h
    · have hu := Except.ok.inj h
      omega
    · cases h

end Redirect

/-- What was written is read back, in code of at most 2^31 bytes. -/
theorem decode_encode {is : List (Instruction Nat)} {code : Bytes} (h : encode is = .ok code)
    (hlen : code.length ≤ 2 ^ 31)
    (ht : ∀ i ∈ is, ∀ t ∈ i.operand.targets, t < code.length) : decode code = .ok is := by
  obtain ⟨hc, hsize, hfits⟩ := of_encodeFrom h
  rw [decode, decodeFrom_encodeFrom h (by omega), mapM_eq_ok, List.forall₂_same]
  intro i hi
  have hend := (hc.bounds hi).2
  exact Instruction.mapTargetsM_eq_self fun t hmem =>
    redirect_eq_ok hlen (hfits i hi).2 hmem (ht i hi t hmem) (by omega)

/-- Whatever is read back is what was written, in code of at most 2^32 bytes. -/
theorem eq_of_decode_encode {is js : List (Instruction Nat)} {code : Bytes}
    (h : encode is = .ok code) (hlen : code.length ≤ 2 ^ 32)
    (ht : ∀ i ∈ is, ∀ t ∈ i.operand.targets, t < code.length) (hd : decode code = .ok js) :
    js = is := by
  obtain ⟨-, -, hfits⟩ := of_encodeFrom h
  rw [decode, decodeFrom_encodeFrom h hlen, mapM_eq_ok] at hd
  exact eq_of_forall₂ hd fun i hi j hij => Instruction.eq_of_mapTargetsM hij fun t hmem u hu =>
    redirect_eq_self hlen (hfits i hi).2 hmem (ht i hi t hmem) hu

/-! ## What holds of code that was read -/

theorem fetch_lt {width pos n : Nat} {bytes rest : Bytes}
    (h : fetch width pos bytes = .ok (n, rest)) : n < Nat.pow 256 width := by
  unfold fetch Bytes.readNat at h
  split at h
  · next r hr =>
    split at hr
    · next hw =>
      cases h
      cases hr
      have := Bytes.toNat_lt (bytes.take width)
      rwa [List.length_take, Nat.min_eq_left hw] at this
    · cases hr
  · cases h

theorem of_resolve {offset size next t : Nat} {d : Int} (h : resolve offset size next d = .ok t) :
    t < size := by
  unfold resolve at h
  dsimp only at h
  split at h
  · next ht =>
    cases h
    omega
  · cases h

/-- The operand that was read has the shape the opcode asks for, and targets in the code. -/
theorem of_decodeOperand {kind : OperandKind} {offset size pos : Nat} {bytes rest : Bytes}
    {operand : Operand Nat} (h : decodeOperand kind offset size pos bytes = .ok (operand, rest)) :
    kind.admits operand = true ∧ (∀ t ∈ operand.targets, t < size) ∧
      bytes.length = kind.size?.getD (4 + 4 * operand.tableLength) + rest.length := by
  unfold decodeOperand at h
  cases kind
  case none =>
    cases h
    exact ⟨rfl, by simp [Operand.targets], by simp [OperandKind.size?]⟩
  case target8 | target32 =>
    obtain ⟨⟨n, rest'⟩, hn, h⟩ := bind_eq_ok.mp h
    obtain ⟨t, ht, h⟩ := bind_eq_ok.mp h
    cases h
    exact ⟨rfl, List.forall_mem_singleton.mpr (of_resolve ht), fetch_length hn⟩
  case table =>
    obtain ⟨⟨count, rest'⟩, hcount, h⟩ := bind_eq_ok.mp h
    dsimp only at h
    split at h
    · cases h
    · obtain ⟨⟨ns, rest''⟩, hns, h⟩ := bind_eq_ok.mp h
      obtain ⟨ts, hts, h⟩ := bind_eq_ok.mp h
      simp only [Except.ok.injEq, Prod.mk.injEq] at h
      obtain ⟨rfl, rfl⟩ := h
      have hts := mapM_eq_ok.mp hts
      dsimp only at hts
      have h1 : bytes.length = 4 + rest'.length := fetch_length hcount
      obtain ⟨h2, h3⟩ : rest'.length = 4 * count + rest''.length ∧ ns.length = count :=
        fetchTable_length hns
      have h4 : ns.length = ts.length := hts.length_eq
      refine ⟨rfl, ?_, ?_⟩
      · intro t ht
        obtain ⟨k, hk, rfl⟩ : ∃ k, ∃ hk : k < ts.length, ts[k] = t := List.mem_iff_getElem.mp ht
        exact of_resolve (hts.get (by omega) hk)
      · show bytes.length = 4 + 4 * ts.length + rest''.length
        omega
  case var8 =>
    obtain ⟨⟨n, rest'⟩, hn, h⟩ := bind_eq_ok.mp h
    have hlt : n < 256 := fetch_lt hn
    cases h
    refine ⟨?_, by simp [Operand.targets], fetch_length hn⟩
    simp only [OperandKind.admits, decide_eq_true_eq, UInt16.toNat_ofNat']
    omega
  all_goals
    obtain ⟨⟨n, rest'⟩, hn, h⟩ := bind_eq_ok.mp h
    cases h
    exact ⟨rfl, by simp [Operand.targets], fetch_length hn⟩

theorem of_decodeValue {offset value : Nat} {bytes rest : Bytes}
    (h : decodeValue offset bytes = .ok (value, rest)) :
    bytes.length = (if 0xff < value then 2 else 1) + rest.length := by
  obtain ⟨⟨b, rest'⟩, hb, h⟩ := bind_eq_ok.mp h
  have h1 : bytes.length = 1 + rest'.length := fetch_length hb
  have h2 : b < 256 := fetch_lt hb
  dsimp only at h
  split at h
  · obtain ⟨⟨c, rest''⟩, hc, h⟩ := bind_eq_ok.mp h
    have h3 : rest'.length = 1 + rest''.length := fetch_length hc
    simp only [Except.ok.injEq, Prod.mk.injEq] at h
    obtain ⟨rfl, rfl⟩ := h
    rw [if_pos (by omega)]
    omega
  · cases h
    rw [if_neg (by omega)]
    exact h1

/-- The instruction fits and its targets are positions in the code. -/
structure Readable (size : Nat) (i : Instruction Nat) : Prop where
  fits : i.fits = true
  targets : ∀ t ∈ i.operand.targets, t < size

theorem of_decodeOne {size offset : Nat} {bytes rest : Bytes} {i : Instruction Nat}
    (h : decodeOne size offset bytes = .ok (i, rest)) :
    i.offset = offset ∧ Readable size i ∧ bytes.length = i.size + rest.length := by
  obtain ⟨⟨value, rest'⟩, hvalue, h⟩ := bind_eq_ok.mp h
  dsimp only at h
  split at h
  · cases h
  · next opcode hop =>
    obtain ⟨⟨operand, rest''⟩, hoperand, h⟩ := bind_eq_ok.mp h
    simp only [Except.ok.injEq, Prod.mk.injEq] at h
    obtain ⟨rfl, rfl⟩ := h
    obtain ⟨hadmits, htargets, hlen⟩ := of_decodeOperand hoperand
    have hvalue := of_decodeValue hvalue
    rw [← OpCode.value_of_ofValue? hop] at hvalue
    refine ⟨rfl, ⟨hadmits, htargets⟩, ?_⟩
    rw [hvalue, hlen, Instruction.size, OpCode.size, Nat.add_assoc]

theorem of_decodeFrom {size offset : Nat} {bytes : Bytes} {is : List (Instruction Nat)}
    (h : decodeFrom size offset bytes = .ok is) :
    Contiguous offset is ∧ streamSize is = bytes.length ∧ ∀ i ∈ is, Readable size i := by
  induction is generalizing offset bytes with
  | nil =>
    refine ⟨trivial, ?_, by simp⟩
    by_cases hne : bytes = []
    · rw [hne]
      rfl
    · rw [decodeFrom_eq hne] at h
      obtain ⟨r, -, h⟩ := bind_eq_ok.mp h
      obtain ⟨rest, -, h⟩ := map_eq_ok.mp h
      cases h
  | cons i rest ih =>
    by_cases hne : bytes = []
    · rw [hne, decodeFrom_nil] at h
      cases h
    · rw [decodeFrom_eq hne] at h
      obtain ⟨⟨j, bytes'⟩, hj, h⟩ := bind_eq_ok.mp h
      obtain ⟨rest', hrest, h⟩ := map_eq_ok.mp h
      cases h
      obtain ⟨hoffset, hreadable, hlen⟩ := of_decodeOne hj
      obtain ⟨hc, hsize, hall⟩ := ih hrest
      refine ⟨⟨hoffset, hc⟩, ?_, List.forall_mem_cons.mpr ⟨hreadable, hall⟩⟩
      rw [hlen, ← hsize]
      rfl

theorem of_decode {code : Bytes} {is : List (Instruction Nat)} (h : decode code = .ok is) :
    Contiguous 0 is ∧ streamSize is = code.length ∧ ∀ i ∈ is, Readable code.length i :=
  of_decodeFrom h

end Code

end CilCoverage
