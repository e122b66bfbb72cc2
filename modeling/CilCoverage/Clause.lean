/-
  Exception clauses: a protected region and its handler, as half-open ranges.

  Positions are code offsets in a stored body and instruction indices in a body
  that is being changed.
-/
import CilCoverage.Token

namespace CilCoverage

/-- What makes a handler run. -/
inductive ClauseKind (α : Type) where
  /-- An exception of a type. -/
  | catchType (type : Token)
  /-- An exception that the filter block at `start` accepts. -/
  | filter (start : α)
  /-- Leaving the region in any way. -/
  | finallyBlock
  /-- Leaving the region by an exception. -/
  | fault
  deriving DecidableEq, Repr

/-- A protected region and its handler. -/
structure Clause (α : Type) where
  kind : ClauseKind α
  tryStart : α
  tryEnd : α
  handlerStart : α
  handlerEnd : α
  deriving DecidableEq, Repr

namespace Clause

variable {α β ε : Type}

/-- Replaces every position. -/
def map (f : α → β) (c : Clause α) : Clause β where
  kind := match c.kind with
    | .catchType type => .catchType type
    | .filter start => .filter (f start)
    | .finallyBlock => .finallyBlock
    | .fault => .fault
  tryStart := f c.tryStart
  tryEnd := f c.tryEnd
  handlerStart := f c.handlerStart
  handlerEnd := f c.handlerEnd

/-- Replaces every position, unless one of them has no replacement: the filter start comes
first, then the region, then the handler. -/
def mapM (f : α → Except ε β) (c : Clause α) : Except ε (Clause β) := do
  let kind ← match c.kind with
    | .catchType type => .ok (.catchType type)
    | .filter start => (f start).map .filter
    | .finallyBlock => .ok .finallyBlock
    | .fault => .ok .fault
  let tryStart ← f c.tryStart
  let tryEnd ← f c.tryEnd
  let handlerStart ← f c.handlerStart
  let handlerEnd ← f c.handlerEnd
  .ok ⟨kind, tryStart, tryEnd, handlerStart, handlerEnd⟩

end Clause

end CilCoverage
