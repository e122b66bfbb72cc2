/-
  Method bodies: header fields, code and exception clauses, and their stored
  form.

  The tiny form holds up to 63 bytes of code and nothing else. The fat form has
  a header of twelve bytes and, after the code, at a multiple of four, data
  sections with the clauses. `ofBytes` reads either form; `toBytes` writes the
  tiny one where it can, and all clauses in one section of the wide format.
-/
import CilCoverage.Clause
import CilCoverage.Code

namespace CilCoverage

/-- Body of a method. -/
structure MethodBody where
  maxStack : UInt16
  initLocals : Bool
  /-- Signature of the locals. -/
  localSig : Token
  code : Bytes
  clauses : List (Clause UInt32)
  deriving DecidableEq

namespace MethodBody

/-! ## Reading -/

/-- The number of `width` bytes at position `pos` of the data. -/
def numberAt (width pos : Nat) (data : Bytes) : Except CodeError Nat :=
  (Code.fetch width pos (data.drop pos)).map (·.1)

/-- The `length` bytes at position `pos` of the data. -/
def slice (pos length : Nat) (data : Bytes) : Except CodeError Bytes :=
  if pos + length ≤ data.length then .ok ((data.drop pos).take length)
  else .error (.truncated pos)

/-- The next multiple of four. -/
def align4 (pos : Nat) : Nat := (pos + 3) / 4 * 4

/-- A stored range, which must not reach past the last 32-bit position. -/
def rangeEnd (start length : Nat) (overflow : SectionError) : Except CodeError UInt32 :=
  if start + length < UInt32.size then .ok (UInt32.ofNat (start + length))
  else .error (.dataSection overflow)

/-- A clause from its stored fields. -/
def clauseOf (flags tryStart tryLength handlerStart handlerLength extra : Nat) :
    Except CodeError (Clause UInt32) := do
  let kind ← match flags with
    | 0 => .ok (.catchType ⟨UInt32.ofNat extra⟩)
    | 1 => .ok (.filter (UInt32.ofNat extra))
    | 2 => .ok .finallyBlock
    | 4 => .ok .fault
    | _ => .error (.dataSection (.unknownFlags flags))
  let tryEnd ← rangeEnd tryStart tryLength .tryOverflow
  let handlerEnd ← rangeEnd handlerStart handlerLength .handlerOverflow
  .ok ⟨kind, UInt32.ofNat tryStart, tryEnd, UInt32.ofNat handlerStart, handlerEnd⟩

/-- Layouts of a clause in a section. -/
inductive SectionFormat where
  | small
  | fat
  deriving DecidableEq

/-- Bytes of one clause. -/
def SectionFormat.clauseSize : SectionFormat → Nat
  | small => 12
  | fat => 24

/-- Bytes of the size field of a section. -/
def SectionFormat.sizeWidth : SectionFormat → Nat
  | small => 1
  | fat => 3

/-- The clause at position `pos`. -/
def clauseAt (format : SectionFormat) (data : Bytes) (pos : Nat) :
    Except CodeError (Clause UInt32) :=
  match format with
  | .small => do
    let flags ← numberAt 2 pos data
    let tryStart ← numberAt 2 (pos + 2) data
    let tryLength ← numberAt 1 (pos + 4) data
    let handlerStart ← numberAt 2 (pos + 5) data
    let handlerLength ← numberAt 1 (pos + 7) data
    let extra ← numberAt 4 (pos + 8) data
    clauseOf flags tryStart tryLength handlerStart handlerLength extra
  | .fat => do
    let flags ← numberAt 4 pos data
    let tryStart ← numberAt 4 (pos + 4) data
    let tryLength ← numberAt 4 (pos + 8) data
    let handlerStart ← numberAt 4 (pos + 12) data
    let handlerLength ← numberAt 4 (pos + 16) data
    let extra ← numberAt 4 (pos + 20) data
    clauseOf flags tryStart tryLength handlerStart handlerLength extra

/-- `count` clauses, the first one at position `pos`. -/
def clausesAt (format : SectionFormat) (data : Bytes) :
    (count pos : Nat) → Except CodeError (List (Clause UInt32))
  | 0, _ => .ok []
  | count + 1, pos => do
    let c ← clauseAt format data pos
    let cs ← clausesAt format data count (pos + format.clauseSize)
    .ok (c :: cs)

/-- The clauses of the data section at `pos`, and whether its kind announces another section.
Only exception sections are supported. -/
def sectionAt (data : Bytes) (pos : Nat) : Except CodeError (List (Clause UInt32) × Bool) := do
  let kind ← numberAt 1 pos data
  if kind % 4 ≠ 1 then
    .error (.dataSection (.unsupportedKind kind))
  else
    let format := if kind / 0x40 % 2 = 1 then SectionFormat.fat else SectionFormat.small
    let size ← numberAt format.sizeWidth (pos + 1) data
    let clauses ← clausesAt format data ((size - 4) / format.clauseSize) (pos + 4)
    .ok (clauses, kind / 0x80 % 2 == 1)

theorem lt_of_numberAt {width pos n : Nat} {data : Bytes} (hw : 0 < width)
    (h : numberAt width pos data = .ok n) : pos < data.length := by
  obtain ⟨r, hr, _⟩ := Result.map_eq_ok.mp h
  have := Code.fetch_length hr
  rw [List.length_drop] at this
  omega

theorem lt_of_sectionAt {data : Bytes} {pos : Nat} {r : List (Clause UInt32) × Bool}
    (h : sectionAt data pos = .ok r) : pos < data.length := by
  obtain ⟨kind, hk, _⟩ := Result.bind_eq_ok.mp h
  exact lt_of_numberAt (by omega) hk

/-- The clauses of the section at `pos` and of those it announces. The section after one is
looked for behind its four header bytes. -/
def sectionsFrom (data : Bytes) (pos : Nat) : Except CodeError (List (Clause UInt32)) :=
  match h : sectionAt data pos with
  | .error e => .error e
  | .ok (clauses, false) => .ok clauses
  | .ok (clauses, true) =>
    have : pos < data.length := lt_of_sectionAt h
    (sectionsFrom data (pos + 4)).map (clauses ++ ·)
termination_by data.length - pos

/-- The fat form. -/
def ofFatBytes (data : Bytes) : Except CodeError MethodBody := do
  let word ← numberAt 2 0 data
  let flags := word % 0x1000
  let headerSize := word / 0x1000 * 4
  if headerSize ≠ 12 then
    .error (.header (.fatSize headerSize))
  else
    let maxStack ← numberAt 2 2 data
    let codeSize ← numberAt 4 4 data
    let localSig ← numberAt 4 8 data
    let code ← slice 12 codeSize data
    let clauses ←
      if flags / 0x08 % 2 = 1 then sectionsFrom data (align4 (12 + codeSize)) else .ok []
    .ok {
      maxStack := UInt16.ofNat maxStack
      initLocals := flags / 0x10 % 2 == 1
      localSig := ⟨UInt32.ofNat localSig⟩
      code := code
      clauses := clauses }

/-- Reads a stored body. What follows it is ignored. -/
def ofBytes (data : Bytes) : Except CodeError MethodBody := do
  let first ← numberAt 1 0 data
  match first % 4 with
  | 2 =>
    let code ← slice 1 (first / 4) data
    .ok { maxStack := 8, initLocals := false, localSig := ⟨0⟩, code := code, clauses := [] }
  | 3 => ofFatBytes data
  | format => .error (.header (.format format))

/-! ## Writing -/

/-- The tiny form holds everything there is to say about the body. -/
def isTiny (b : MethodBody) : Bool :=
  decide (b.code.length < 64) && decide (b.maxStack ≤ 8) && b.localSig.isNil &&
    b.clauses.isEmpty && !b.initLocals

/-- The flags of a clause, and the word that comes last. -/
def clauseTag : ClauseKind UInt32 → Nat × UInt32
  | .catchType type => (0, type.raw)
  | .filter start => (1, start)
  | .finallyBlock => (2, 0)
  | .fault => (4, 0)

/-- A clause in the wide format. -/
def clauseBytes (c : Clause UInt32) : Bytes :=
  let (flags, extra) := clauseTag c.kind
  [UInt32.ofNat flags, c.tryStart, c.tryEnd - c.tryStart, c.handlerStart,
    c.handlerEnd - c.handlerStart, extra].flatMap fun word => Bytes.ofNat 4 word.toNat

/-- The header of the fat form. -/
def fatHeader (b : MethodBody) : Bytes :=
  let flags := 0x3003 + (if b.clauses.isEmpty then 0 else 0x08) + (if b.initLocals then 0x10 else 0)
  Bytes.ofNat 2 flags ++ Bytes.ofNat 2 b.maxStack.toNat ++ Bytes.ofNat 4 b.code.length ++
    Bytes.ofNat 4 b.localSig.raw.toNat

/-- The section that holds all clauses. -/
def sectionBytes (clauses : List (Clause UInt32)) : Bytes :=
  0x41 :: Bytes.ofNat 3 (4 + 24 * clauses.length) ++ clauses.flatMap clauseBytes

/-- The stored form of a body; a section has room for 699050 clauses. -/
def toBytes (b : MethodBody) : Except CodeError Bytes :=
  if b.isTiny then
    .ok (UInt8.ofNat (4 * b.code.length + 2) :: b.code)
  else
    let start := b.fatHeader ++ b.code
    if b.clauses.isEmpty then
      .ok start
    else if 0xffffff < 4 + 24 * b.clauses.length then
      .error (.dataSection .tooManyClauses)
    else
      let padding := List.replicate (align4 start.length - start.length) 0
      .ok (start ++ padding ++ sectionBytes b.clauses)

end MethodBody

end CilCoverage
