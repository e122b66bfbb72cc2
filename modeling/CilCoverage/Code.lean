/-
  Code: the encoded form of an instruction list.

  `decode` turns the displacement of each branch into the offset it leads to;
  `encode` turns it back. Decoding reads one instruction after the other, each
  at least one byte long (`decodeOne_length`), until the bytes are used up.
-/
import CilCoverage.Bytes
import CilCoverage.Instruction
import CilCoverage.CodeError
import CilCoverage.Result

namespace CilCoverage.Code

open Result

/-! ## Decoding -/

/-- A number of `width` bytes, found at position `pos`. -/
def fetch (width pos : Nat) (bytes : Bytes) : Except CodeError (Nat × Bytes) :=
  match Bytes.readNat width bytes with
  | some r => .ok r
  | none => .error (.truncated pos)

/-- `count` numbers of four bytes, the first one at position `pos`. -/
def fetchTable (pos : Nat) : (count : Nat) → Bytes → Except CodeError (List Nat × Bytes)
  | 0, bytes => .ok ([], bytes)
  | count + 1, bytes => do
    let (n, rest) ← fetch 4 pos bytes
    let (ns, rest) ← fetchTable (pos + 4) count rest
    .ok (n :: ns, rest)

/-- The offset reached from `next` by a displacement, inside code of `size` bytes. -/
def resolve (offset size next : Nat) (displacement : Int) : Except CodeError Nat :=
  let t := (next : Int) + displacement
  if 0 ≤ t ∧ t < size then .ok t.toNat else .error (.targetOutOfRange offset)

/-- The operand of the instruction at `offset`, found at position `pos`. -/
def decodeOperand (kind : OperandKind) (offset size pos : Nat) (bytes : Bytes) :
    Except CodeError (Operand Nat × Bytes) :=
  match kind with
  | .none => .ok (.none, bytes)
  | .target8 => do
    let (n, rest) ← fetch 1 pos bytes
    let t ← resolve offset size (pos + 1) (Bytes.signed 1 n)
    .ok (.target t, rest)
  | .target32 => do
    let (n, rest) ← fetch 4 pos bytes
    let t ← resolve offset size (pos + 4) (Bytes.signed 4 n)
    .ok (.target t, rest)
  | .table => do
    let (count, rest) ← fetch 4 pos bytes
    if rest.length < 4 * count then .error (.truncated (pos + 4))
    else
      let (ns, rest) ← fetchTable (pos + 4) count rest
      let ts ← ns.mapM fun n => resolve offset size (pos + 4 + 4 * count) (Bytes.signed 4 n)
      .ok (.table ts, rest)
  | .int8 => do
    let (n, rest) ← fetch 1 pos bytes
    .ok (.int8 (Int8.ofNat n), rest)
  | .int32 => do
    let (n, rest) ← fetch 4 pos bytes
    .ok (.int32 (Int32.ofNat n), rest)
  | .int64 => do
    let (n, rest) ← fetch 8 pos bytes
    .ok (.int64 (Int64.ofNat n), rest)
  | .float32 => do
    let (n, rest) ← fetch 4 pos bytes
    .ok (.float32 (UInt32.ofNat n), rest)
  | .float64 => do
    let (n, rest) ← fetch 8 pos bytes
    .ok (.float64 (UInt64.ofNat n), rest)
  | .var8 => do
    let (n, rest) ← fetch 1 pos bytes
    .ok (.var (UInt16.ofNat n), rest)
  | .var16 => do
    let (n, rest) ← fetch 2 pos bytes
    .ok (.var (UInt16.ofNat n), rest)
  | .token => do
    let (n, rest) ← fetch 4 pos bytes
    .ok (.token ⟨UInt32.ofNat n⟩, rest)

/-- The value of the opcode at `offset`; the byte `0xfe` announces a second one. -/
def decodeValue (offset : Nat) (bytes : Bytes) : Except CodeError (Nat × Bytes) := do
  let (b, rest) ← fetch 1 offset bytes
  if b = 0xfe then
    let (c, rest) ← fetch 1 (offset + 1) rest
    .ok (0xfe00 + c, rest)
  else
    .ok (b, rest)

/-- The instruction at `offset` in code of `size` bytes, and the bytes after it. -/
def decodeOne (size offset : Nat) (bytes : Bytes) :
    Except CodeError (Instruction Nat × Bytes) := do
  let (value, rest) ← decodeValue offset bytes
  match OpCode.ofValue? value with
  | none => .error (.unknownOpcode offset value)
  | some opcode =>
    let (operand, rest) ←
      decodeOperand opcode.operandKind offset size (offset + opcode.size) rest
    .ok (⟨offset, opcode, operand⟩, rest)

theorem fetch_length {width pos : Nat} {bytes : Bytes} {r : Nat × Bytes}
    (h : fetch width pos bytes = .ok r) : bytes.length = width + r.2.length := by
  unfold fetch at h
  split at h
  · next hr =>
    cases h
    exact Bytes.readNat_length hr
  · cases h

theorem fetchTable_length {pos count : Nat} {bytes : Bytes} {r : List Nat × Bytes}
    (h : fetchTable pos count bytes = .ok r) :
    bytes.length = 4 * count + r.2.length ∧ r.1.length = count := by
  induction count generalizing pos bytes r with
  | zero =>
    cases h
    simp
  | succ count ih =>
    obtain ⟨a, ha, h⟩ := bind_eq_ok.mp h
    obtain ⟨b, hb, h⟩ := bind_eq_ok.mp h
    have h1 := fetch_length ha
    have h2 := ih hb
    rw [← Except.ok.inj h]
    simp only [List.length_cons]
    omega

theorem decodeOperand_length {kind : OperandKind} {offset size pos : Nat} {bytes : Bytes}
    {r : Operand Nat × Bytes} (h : decodeOperand kind offset size pos bytes = .ok r) :
    r.2.length ≤ bytes.length := by
  unfold decodeOperand at h
  cases kind
  case none =>
    cases h
    exact Nat.le_refl _
  case table =>
    obtain ⟨a, ha, h⟩ := bind_eq_ok.mp h
    dsimp only at h
    split at h
    · cases h
    · obtain ⟨b, hb, h⟩ := bind_eq_ok.mp h
      obtain ⟨c, _, h⟩ := bind_eq_ok.mp h
      have h1 := fetch_length ha
      have h2 := (fetchTable_length hb).1
      rw [← Except.ok.inj h]
      show b.2.length ≤ _
      omega
  case target8 | target32 =>
    obtain ⟨a, ha, h⟩ := bind_eq_ok.mp h
    obtain ⟨t, _, h⟩ := bind_eq_ok.mp h
    have h1 := fetch_length ha
    rw [← Except.ok.inj h]
    show a.2.length ≤ _
    omega
  all_goals
    obtain ⟨a, ha, h⟩ := bind_eq_ok.mp h
    have h1 := fetch_length ha
    rw [← Except.ok.inj h]
    show a.2.length ≤ _
    omega

theorem decodeValue_length {offset : Nat} {bytes : Bytes} {r : Nat × Bytes}
    (h : decodeValue offset bytes = .ok r) : r.2.length < bytes.length := by
  obtain ⟨a, ha, h⟩ := bind_eq_ok.mp h
  have h1 := fetch_length ha
  dsimp only at h
  split at h
  · obtain ⟨b, hb, h⟩ := bind_eq_ok.mp h
    have h2 := fetch_length hb
    rw [← Except.ok.inj h]
    show b.2.length < _
    omega
  · rw [← Except.ok.inj h]
    show a.2.length < _
    omega

theorem decodeOne_length {size offset : Nat} {bytes : Bytes} {r : Instruction Nat × Bytes}
    (h : decodeOne size offset bytes = .ok r) : r.2.length < bytes.length := by
  obtain ⟨a, ha, h⟩ := bind_eq_ok.mp h
  have h1 := decodeValue_length ha
  dsimp only at h
  split at h
  · cases h
  · obtain ⟨b, hb, h⟩ := bind_eq_ok.mp h
    have h2 := decodeOperand_length hb
    rw [← Except.ok.inj h]
    show b.2.length < _
    omega

/-- The instructions from `offset` on, in code of `size` bytes. -/
def decodeFrom (size offset : Nat) (bytes : Bytes) : Except CodeError (List (Instruction Nat)) :=
  match bytes with
  | [] => .ok []
  | b :: bs =>
    match _h : decodeOne size offset (b :: bs) with
    | .error e => .error e
    | .ok (i, rest) =>
      (decodeFrom size (offset + i.size) rest).map (i :: ·)
termination_by bytes.length
decreasing_by exact decodeOne_length _h

/-- The instructions of a code stream, with offsets as targets. -/
def decode (code : Bytes) : Except CodeError (List (Instruction Nat)) :=
  decodeFrom code.length 0 code

/-! ## Encoding -/

/-- The bytes of an opcode. -/
def encodeOpCode (opcode : OpCode) : Bytes :=
  if 0xff < opcode.value then [0xfe, UInt8.ofNat opcode.value]
  else [UInt8.ofNat opcode.value]

/-- The distance from the end of an instruction to a target. -/
def displacement (i : Instruction Nat) (target : Nat) : Int :=
  (target : Int) - (i.offset + i.size : Nat)

/-- The bytes of an operand, which has to have the shape its opcode asks for. -/
def encodeOperand (i : Instruction Nat) : Except CodeError Bytes :=
  match i.opcode.operandKind, i.operand with
  | .none, .none => .ok []
  | .target8, .target t =>
    let d := displacement i t
    if -128 ≤ d ∧ d ≤ 127 then .ok (Bytes.ofInt 1 d)
    else .error (.shortBranchOverflow i.offset t)
  | .target32, .target t => .ok (Bytes.ofInt 4 (displacement i t))
  | .table, .table ts =>
    .ok (Bytes.ofNat 4 ts.length ++ ts.flatMap fun t => Bytes.ofInt 4 (displacement i t))
  | .int8, .int8 v => .ok (Bytes.ofInt 1 v.toInt)
  | .int32, .int32 v => .ok (Bytes.ofInt 4 v.toInt)
  | .int64, .int64 v => .ok (Bytes.ofInt 8 v.toInt)
  | .float32, .float32 bits => .ok (Bytes.ofNat 4 bits.toNat)
  | .float64, .float64 bits => .ok (Bytes.ofNat 8 bits.toNat)
  | .var8, .var index =>
    if index.toNat < 256 then .ok (Bytes.ofNat 1 index.toNat)
    else .error (.operandMismatch i.offset i.opcode)
  | .var16, .var index => .ok (Bytes.ofNat 2 index.toNat)
  | .token, .token t => .ok (Bytes.ofNat 4 t.raw.toNat)
  | _, _ => .error (.operandMismatch i.offset i.opcode)

/-- The bytes of instructions from position `pos` on. Each has to record the position it is
written at. -/
def encodeFrom (pos : Nat) : List (Instruction Nat) → Except CodeError Bytes
  | [] => .ok []
  | i :: rest =>
    if pos ≠ i.offset then .error (.misplaced i.offset)
    else do
      let operand ← encodeOperand i
      let bytes := encodeOpCode i.opcode ++ operand
      let tail ← encodeFrom (pos + bytes.length) rest
      .ok (bytes ++ tail)

/-- The code stream of instructions whose offsets describe their layout. -/
def encode (instructions : List (Instruction Nat)) : Except CodeError Bytes :=
  encodeFrom 0 instructions

end CilCoverage.Code
