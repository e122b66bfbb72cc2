/-
  Bodies whose branches and clauses refer to instructions by index, so that
  instructions can be added without breaking references.

  `lower` goes from code offsets to indices. The end of the code counts as a
  position for clauses only. `prefixSums` tells where each of a list of blocks
  begins when they are laid end to end.
-/
import CilCoverage.Clause
import CilCoverage.Instruction

namespace CilCoverage

/-- A body with instruction indices as targets and as clause positions. The number of
instructions stands for the end of the body. -/
structure LabelledBody where
  instructions : List (Instruction Nat)
  clauses : List (Clause Nat)
  deriving DecidableEq

/-- A reference to an offset where no instruction starts. -/
structure NotABoundary where
  /-- Offset of the instruction, or start of the clause, that refers to it. -/
  source : Nat
  offset : Nat
  deriving DecidableEq, Repr

/-- Start of each block, and the end of the last one, when blocks of these lengths are laid
end to end from `start`. -/
def prefixSums (start : Nat) : List Nat → List Nat
  | [] => [start]
  | n :: ns => start :: prefixSums (start + n) ns

theorem length_prefixSums (start : Nat) (ns : List Nat) :
    (prefixSums start ns).length = ns.length + 1 := by
  induction ns generalizing start with
  | nil => rfl
  | cons n ns ih => simp [prefixSums, ih]

theorem getElem?_prefixSums (start : Nat) (ns : List Nat) (k : Nat) (h : k ≤ ns.length) :
    (prefixSums start ns)[k]? = some ((ns.take k).foldl (· + ·) start) := by
  induction ns generalizing start k with
  | nil =>
    have : k = 0 := by simpa using h
    subst this
    simp [prefixSums]
  | cons n ns ih =>
    cases k with
    | zero => simp [prefixSums]
    | succ k =>
      rw [prefixSums, List.getElem?_cons_succ, ih (start + n) k (by simpa using h)]
      rfl

namespace LabelledBody

/-- Index of the instruction at an offset. -/
def indexOf? {α : Type} (instructions : List (Instruction α)) (offset : Nat) : Option Nat :=
  instructions.findIdx? fun i => i.offset == offset

/-- Index of the instruction that an instruction or clause at `source` refers to. -/
def boundary (instructions : List (Instruction Nat)) (source offset : Nat) :
    Except NotABoundary Nat :=
  match indexOf? instructions offset with
  | some index => .ok index
  | none => .error ⟨source, offset⟩

/-- Index for a clause position, where the end of the code counts as well. -/
def clauseBoundary (instructions : List (Instruction Nat)) (codeSize source offset : Nat) :
    Except NotABoundary Nat :=
  if offset = codeSize then .ok instructions.length
  else boundary instructions source offset

/-- Turns offsets into indices. The first offset that is no boundary is reported, of the
instructions in order and then of the clauses. -/
def lower (instructions : List (Instruction Nat)) (clauses : List (Clause Nat))
    (codeSize : Nat) : Except NotABoundary LabelledBody := do
  let lowered ← instructions.mapM fun i => i.mapTargetsM (boundary instructions i.offset)
  let loweredClauses ← clauses.mapM fun c =>
    c.mapM (clauseBoundary instructions codeSize c.tryStart)
  .ok ⟨lowered, loweredClauses⟩

end LabelledBody

end CilCoverage
