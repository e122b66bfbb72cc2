/-
  Spans: which instructions belong to which statement, and where a statement
  decides.

  A visible sequence point opens a span that lasts to the next point, visible
  or not. Within a span, a conditional branch or jump table with more than one
  distinct successor is a decision.
-/
import CilCoverage.LabelledBody
import CilCoverage.Result
import CilCoverage.Symbols

namespace CilCoverage

/-- The instructions from `start` up to but excluding `stop`, with their statement. -/
structure Span where
  point : SequencePoint
  start : Nat
  stop : Nat
  deriving DecidableEq, Repr

/-- An instruction that can go on in several ways. -/
structure Decision where
  index : Nat
  /-- The distinct instructions that can run next; the one that follows comes first. -/
  successors : List Nat
  deriving DecidableEq, Repr

/-- Why a body cannot be divided. -/
inductive SegmentError where
  /-- A sequence point is not at an instruction. -/
  | misaligned (offset : Nat)
  /-- A visible sequence point ends on a line before the one it starts on. -/
  | invertedLines (offset : Nat)
  /-- A decision is the last instruction, so that it can run past the end. -/
  | fallthroughPastEnd (offset : Nat)
  deriving DecidableEq, Repr

namespace Span

/-- The index of the instruction a point is at. -/
def locate {α : Type} (instructions : List (Instruction α)) (p : SequencePoint) :
    Except SegmentError (Nat × SequencePoint) :=
  if !p.isHidden && p.isInverted then .error (.invertedLines p.offset)
  else match LabelledBody.indexOf? instructions p.offset with
    | some index => .ok (index, p)
    | none => .error (.misaligned p.offset)

/-- The points that can be located, up to the first one that cannot. -/
def locateAll {α : Type} (instructions : List (Instruction α)) :
    List SequencePoint → List (Nat × SequencePoint) × Option SegmentError
  | [] => ([], none)
  | p :: ps =>
    match locate instructions p with
    | .error e => ([], some e)
    | .ok l =>
      let r := locateAll instructions ps
      (l :: r.1, r.2)

/-- Of several points in a row at one instruction, the first. -/
def firsts : List (Nat × SequencePoint) → List (Nat × SequencePoint)
  | [] => []
  | l :: ls => l :: go l.1 ls
where
  go (last : Nat) : List (Nat × SequencePoint) → List (Nat × SequencePoint)
    | [] => []
    | l :: ls => if l.1 = last then go last ls else l :: go l.1 ls

/-- Of several points in a row at one instruction, all but the first. -/
def repeats : List (Nat × SequencePoint) → List (Nat × SequencePoint)
  | [] => []
  | l :: ls => go l.1 ls
where
  go (last : Nat) : List (Nat × SequencePoint) → List (Nat × SequencePoint)
    | [] => []
    | l :: ls => if l.1 = last then l :: go last ls else go l.1 ls

/-- The spans that points at distinct instructions open, in a body of `count` instructions. -/
def ofPoints (allowed : SequencePoint → Bool) (count : Nat) :
    List (Nat × SequencePoint) → List Span
  | [] => []
  | (start, p) :: rest =>
    let stop := match rest with
      | [] => count
      | (next, _) :: _ => next
    let more := ofPoints allowed count rest
    if p.isHidden || !allowed p then more else ⟨p, start, stop⟩ :: more

/-- The points by ascending offset; points at one offset keep their order. -/
def sortPoints (points : List SequencePoint) : List SequencePoint :=
  points.mergeSort fun a b => decide (a.offset ≤ b.offset)

/-- The log line about a point at an instruction that has one already. -/
def repeatLine (l : Nat × SequencePoint) : LogLine :=
  ⟨.debug, "ignoring duplicate sequence point at " ++ Numeral.codeLabel l.2.offset⟩

/-- Divides a body into spans. Hidden points and points that are not allowed close the span
before them and open none. -/
def segment {α : Type} (instructions : List (Instruction α)) (points : List SequencePoint)
    (allowed : SequencePoint → Bool) : Log × Except SegmentError (List Span) :=
  let located := locateAll instructions (sortPoints points)
  ((repeats located.1).map repeatLine,
    match located.2 with
    | some e => .error e
    | none => .ok (ofPoints allowed instructions.length (firsts located.1)))

end Span

namespace Decision

/-- The instruction that follows, then the targets, once each. -/
def successorsOf (index : Nat) (i : Instruction Nat) : List Nat :=
  ((index + 1) :: i.operand.targets).eraseDups

/-- The decision at an instruction, if there is one, in a body of `count` instructions. -/
def at? (count index : Nat) (i : Instruction Nat) : Except SegmentError (Option Decision) :=
  if !i.opcode.isDecision then .ok none
  else if count ≤ index + 1 then .error (.fallthroughPastEnd i.offset)
  else
    let successors := successorsOf index i
    if 1 < successors.length then .ok (some ⟨index, successors⟩) else .ok none

/-- The decisions of instructions that start at `index`. -/
def listFrom (count : Nat) : (index : Nat) → List (Instruction Nat) →
    Except SegmentError (List Decision)
  | _, [] => .ok []
  | index, i :: rest => do
    let d ← at? count index i
    let ds ← listFrom count (index + 1) rest
    .ok (d.toList ++ ds)

/-- The decisions within a span. -/
def inSpan (instructions : List (Instruction Nat)) (span : Span) :
    Except SegmentError (List Decision) :=
  listFrom instructions.length span.start
    ((instructions.drop span.start).take (span.stop - span.start))

end Decision

end CilCoverage
