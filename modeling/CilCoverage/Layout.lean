/-
  Laying out a body: from indices back to code offsets.

  A short branch that cannot reach its target is given its long form. That moves
  what lies behind it, so the layout is checked again until nothing changes;
  each round leaves fewer short branches, which is why it ends
  (`shortBranches_promote`).
-/
import CilCoverage.Code
import CilCoverage.LabelledBody

namespace CilCoverage

namespace Layout

/-- The offset of each instruction, and the end of the last one. -/
def offsets {α : Type} (instructions : List (Instruction α)) : List Nat :=
  prefixSums 0 (instructions.map Instruction.size)

/-- The displacement fits one byte. -/
def isShort (d : Int) : Bool := decide (-128 ≤ d ∧ d ≤ 127)

/-- The branch has a displacement of one byte. -/
def isShortBranch {α : Type} (i : Instruction α) : Bool := i.opcode.operandKind == .target8

/-- Number of branches with a displacement of one byte. -/
def shortBranches {α : Type} (instructions : List (Instruction α)) : Nat :=
  instructions.countP isShortBranch

/-- The long form of the branch at `offset`, if its target is out of reach. -/
def promotion? (starts : Array Nat) (offset : Nat) (i : Instruction Nat) :
    Except CodeError (Option OpCode) :=
  match isShortBranch i, i.operand with
  | true, .target t =>
    match starts[t]? with
    | none => .error (.targetOutOfRange offset)
    | some target =>
      if isShort ((target : Int) - (offset + i.size : Nat)) then .ok none
      else match i.opcode.longForm? with
        | none => .error (.shortBranchOverflow offset target)
        | some long => .ok (some long)
  | _, _ => .ok none

/-- One round: the branches that cannot reach their target are made long. The instructions
start at `offset`. Also tells how many branches were made long. -/
def promote (starts : Array Nat) : (offset : Nat) → List (Instruction Nat) →
    Except CodeError (List (Instruction Nat) × Nat)
  | _, [] => .ok ([], 0)
  | offset, i :: rest => do
    let long ← promotion? starts offset i
    let (rest, count) ← promote starts (offset + i.size) rest
    match long with
    | none => .ok (i :: rest, count)
    | some opcode => .ok ({ i with opcode := opcode } :: rest, count + 1)

theorem operandKind_longForm? {op long : OpCode} (h : op.longForm? = some long) :
    long.operandKind = .target32 := by
  unfold OpCode.longForm? at h
  split at h <;> first
    | (cases h; rfl)
    | cases h

theorem promotion?_eq_some {starts : Array Nat} {offset : Nat} {i : Instruction Nat}
    {long : OpCode} (h : promotion? starts offset i = .ok (some long)) :
    isShortBranch i = true ∧ i.opcode.longForm? = some long := by
  unfold promotion? at h
  split at h
  · next hs _ =>
    split at h
    · cases h
    · split at h
      · cases h
      · split at h
        · cases h
        · next hl =>
          cases h
          exact ⟨hs, hl⟩
  · cases h

theorem shortBranches_promote {starts : Array Nat} {offset : Nat}
    {instructions : List (Instruction Nat)} {r : List (Instruction Nat) × Nat}
    (h : promote starts offset instructions = .ok r) :
    shortBranches r.1 + r.2 = shortBranches instructions := by
  induction instructions generalizing offset r with
  | nil =>
    cases h
    rfl
  | cons i rest ih =>
    obtain ⟨long, hl, h⟩ := Result.bind_eq_ok.mp h
    obtain ⟨s, hs, h⟩ := Result.bind_eq_ok.mp h
    have hrest := ih hs
    cases long with
    | none =>
      cases h
      simp only [shortBranches, List.countP_cons] at hrest ⊢
      omega
    | some opcode =>
      cases h
      obtain ⟨hshort, hlong⟩ := promotion?_eq_some hl
      have hkind : isShortBranch ({ i with opcode := opcode } : Instruction Nat) = false := by
        simp [isShortBranch, operandKind_longForm? hlong]
      simp only [shortBranches, List.countP_cons, hshort, hkind] at hrest ⊢
      simp
      omega

/-- Rounds of promotion until every short branch reaches its target. Also tells how many
branches were made long. -/
def settle (instructions : List (Instruction Nat)) :
    Except CodeError (List (Instruction Nat) × Nat) :=
  match h : promote (offsets instructions).toArray 0 instructions with
  | .error e => .error e
  | .ok (same, 0) => .ok (same, 0)
  | .ok (longer, count + 1) =>
    have : shortBranches longer < shortBranches instructions := by
      have := shortBranches_promote h
      dsimp only at this
      omega
    (settle longer).map fun r => (r.1, r.2 + (count + 1))
termination_by shortBranches instructions

/-- The instruction with offsets as targets, at an offset of its own. -/
def locate (starts : Array Nat) (offset : Nat) (i : Instruction Nat) :
    Except CodeError (Instruction Nat) :=
  ({ i with offset := offset } : Instruction Nat).mapTargetsM fun t =>
    match starts[t]? with
    | some target => .ok target
    | none => .error (.targetOutOfRange offset)

/-- The clause with offsets as positions. -/
def locateClause (starts : Array Nat) (c : Clause Nat) : Except CodeError (Clause Nat) :=
  match starts[c.tryStart]? with
  | none => .error (.dataSection .clauseStart)
  | some start => c.mapM fun index =>
    match starts[index]? with
    | some offset => .ok offset
    | none => .error (.dataSection (.clauseEnd start))

end Layout

/-- Code that a body was laid out to. -/
structure Relinked where
  code : Bytes
  /-- Clauses with code offsets as positions. -/
  clauses : List (Clause Nat)
  /-- Number of short branches that were given their long form. -/
  promoted : Nat
  deriving DecidableEq

namespace LabelledBody

open Layout

/-- Lays out a body and encodes it. -/
def relink (body : LabelledBody) : Except CodeError Relinked := do
  let (instructions, promoted) ← settle body.instructions
  let starts := offsets instructions
  let absolute ← (starts.zip instructions).mapM fun (offset, i) =>
    Layout.locate starts.toArray offset i
  let code ← Code.encode absolute
  let clauses ← body.clauses.mapM (locateClause starts.toArray)
  .ok ⟨code, clauses, promoted⟩

end LabelledBody

end CilCoverage
