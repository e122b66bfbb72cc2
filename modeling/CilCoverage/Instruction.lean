/-
  Instructions, over any type of branch targets.

  A target is a code offset in a decoded stream and an instruction index in a
  body that is being changed; `mapTargets` goes from one to the other. The
  size of an instruction depends on its opcode and on the number of its
  targets, never on where they lie (`size_mapTargets`).
-/
import CilCoverage.OpCode
import CilCoverage.Token
import CilCoverage.Decimal

namespace CilCoverage

/-- Inline operand of an instruction. -/
inductive Operand (α : Type) where
  | none
  | int8 (v : Int8)
  | int32 (v : Int32)
  | int64 (v : Int64)
  /-- Single precision number, by its bits. -/
  | float32 (bits : UInt32)
  /-- Double precision number, by its bits. -/
  | float64 (bits : UInt64)
  /-- Number of a local or an argument. -/
  | var (index : UInt16)
  | token (t : Token)
  | target (t : α)
  /-- Jump table. -/
  | table (ts : List α)
  deriving DecidableEq

namespace Operand

variable {α β : Type}

/-- Replaces every target. -/
def mapTargets (f : α → β) : Operand α → Operand β
  | none => none
  | int8 v => int8 v
  | int32 v => int32 v
  | int64 v => int64 v
  | float32 bits => float32 bits
  | float64 bits => float64 bits
  | var index => var index
  | token t => token t
  | target t => target (f t)
  | table ts => table (ts.map f)

/-- The targets in order. -/
def targets : Operand α → List α
  | target t => [t]
  | table ts => ts
  | _ => []

/-- Number of entries of a jump table. -/
def tableLength : Operand α → Nat
  | table ts => ts.length
  | _ => 0

/-- Replaces every target, unless one of them has no replacement. -/
def mapTargetsM {ε : Type} (f : α → Except ε β) : Operand α → Except ε (Operand β)
  | none => .ok none
  | int8 v => .ok (int8 v)
  | int32 v => .ok (int32 v)
  | int64 v => .ok (int64 v)
  | float32 bits => .ok (float32 bits)
  | float64 bits => .ok (float64 bits)
  | var index => .ok (var index)
  | token t => .ok (token t)
  | target t => (f t).map target
  | table ts => (ts.mapM f).map table

theorem targets_mapTargets (f : α → β) (o : Operand α) :
    (o.mapTargets f).targets = o.targets.map f := by
  cases o <;> rfl

@[simp] theorem tableLength_mapTargets (f : α → β) (o : Operand α) :
    (o.mapTargets f).tableLength = o.tableLength := by
  cases o <;> simp [mapTargets, tableLength]

end Operand

/-- An instruction at a code offset. -/
structure Instruction (α : Type) where
  /-- Position of the first opcode byte in the code it was decoded from. -/
  offset : Nat
  opcode : OpCode
  operand : Operand α
  deriving DecidableEq

namespace Instruction

variable {α β : Type}

/-- Encoded size in bytes: the opcode, then its operand. -/
def size (i : Instruction α) : Nat :=
  i.opcode.size + i.opcode.operandKind.size?.getD (4 + 4 * i.operand.tableLength)

/-- Replaces every target. -/
def mapTargets (f : α → β) (i : Instruction α) : Instruction β :=
  ⟨i.offset, i.opcode, i.operand.mapTargets f⟩

/-- Replaces every target, unless one of them has no replacement. -/
def mapTargetsM {ε : Type} (f : α → Except ε β) (i : Instruction α) :
    Except ε (Instruction β) :=
  (i.operand.mapTargetsM f).map fun operand => ⟨i.offset, i.opcode, operand⟩

/-- Calls the method directly. -/
def isCallTo (method : Token) (i : Instruction α) : Bool :=
  match i.opcode, i.operand with
  | .call, .token t => t == method
  | _, _ => false

theorem size_pos (i : Instruction α) : 0 < i.size := by
  unfold size OpCode.size
  split <;> omega

@[simp] theorem size_mapTargets (f : α → β) (i : Instruction α) :
    (i.mapTargets f).size = i.size := by
  simp only [size, mapTargets, Operand.tableLength_mapTargets]

/-- The text of an operand, with the blank that separates it from the mnemonic. -/
def operandText : Operand Nat → String
  | .none => ""
  | .int8 v => " " ++ Numeral.signedDecimal v.toInt
  | .int32 v => " " ++ Numeral.signedDecimal v.toInt
  | .int64 v => " " ++ Numeral.signedDecimal v.toInt
  | .float32 bits => " " ++ Decimal.single.text bits.toNat
  | .float64 bits => " " ++ Decimal.double.text bits.toNat
  | .var index => " V_" ++ Numeral.decimal index.toNat
  | .token t => " 0x" ++ t.text
  | .target t => " " ++ Numeral.codeLabel t
  | .table ts => " (" ++ ", ".intercalate (ts.map Numeral.codeLabel) ++ ")"

/-- The instruction as a line of disassembly. -/
def text (i : Instruction Nat) : String :=
  Numeral.codeLabel i.offset ++ ": " ++ i.opcode.name ++ operandText i.operand

end Instruction

end CilCoverage
