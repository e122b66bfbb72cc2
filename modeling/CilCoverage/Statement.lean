/-
  Statements of a method body, and the hit ids of their points.

  A statement takes one id for itself and one for each successor of its
  decisions, in this order; statements take their ids one after the other from
  a block. The numbered statements say where probes go (`plan`) and what the
  coverage map records (`sequence`), so that the two agree.
-/
import CilCoverage.CoverageMap
import CilCoverage.Probes
import CilCoverage.Span

namespace CilCoverage

/-- A span with the decisions in it. -/
structure Statement where
  span : Span
  decisions : List Decision
  deriving DecidableEq, Repr

namespace Statement

/-- The statements of spans; decisions are left out unless `branches` is set. -/
def ofSpans (branches : Bool) (instructions : List (Instruction Nat)) (spans : List Span) :
    Except SegmentError (List Statement) :=
  spans.mapM fun span =>
    if branches then (Decision.inSpan instructions span).map (⟨span, ·⟩) else .ok ⟨span, []⟩

/-- Number of ids of a statement. -/
def idCount (s : Statement) : Nat := 1 + (s.decisions.flatMap (·.successors)).length

/-- Number of ids of several statements. -/
def idCountAll : List Statement → Nat
  | [] => 0
  | s :: rest => s.idCount + idCountAll rest

end Statement

/-- A statement whose points have their ids. -/
structure NumberedStatement where
  span : Span
  id : HitId
  /-- Successors of each decision, with their ids. -/
  decisions : List (Nat × List (Nat × HitId))
  deriving DecidableEq, Repr

namespace NumberedStatement

/-- Gives consecutive ids to the successors of decisions. -/
def numberDecisions (first : HitId) : List Decision → List (Nat × List (Nat × HitId))
  | [] => []
  | d :: ds =>
    let count := d.successors.length
    (d.index, d.successors.zip (HitIds.block first count)) ::
      numberDecisions (first + UInt32.ofNat count) ds

/-- Gives consecutive ids to statements. -/
def number (first : HitId) : List Statement → List NumberedStatement
  | [] => []
  | s :: ss =>
    ⟨s.span, first, numberDecisions (first + 1) s.decisions⟩ ::
      number (first + UInt32.ofNat s.idCount) ss

/-- Where the probes of statements go. -/
def plan (statements : List NumberedStatement) : ProbePlan where
  sequences := statements.map fun s => (s.span.start, s.id)
  decisions := statements.flatMap (·.decisions)

/-- Code offset of an instruction. -/
def offsetAt (code : Array (Instruction Nat)) (index : Nat) : UInt32 :=
  UInt32.ofNat (code[index]?.elim 0 (·.offset))

/-- Text of an instruction. -/
def textAt (code : Array (Instruction Nat)) (index : Nat) : String :=
  code[index]?.elim "" (·.text)

/-- The condition that a decision is recorded as; its first successor is the instruction that
follows. -/
def condition (code : Array (Instruction Nat)) (d : Nat × List (Nat × HitId)) : Condition :=
  let text := textAt code d.1
  { offset := offsetAt code d.1
    instruction := text
    branches := d.2.mapIdx fun position s =>
      { hitId := s.2
        offset := offsetAt code s.1
        fallthrough := position == 0
        instruction := text } }

/-- The sequence that a statement is recorded as. -/
def sequence (code : Array (Instruction Nat)) (method : MethodInfo)
    (s : NumberedStatement) : Sequence where
  hitId := s.id
  offset := offsetAt code s.span.start
  startLine := s.span.point.startLine
  startColumn := s.span.point.startColumn
  endLine := s.span.point.endLine
  endColumn := s.span.point.endColumn
  method := method
  instruction := textAt code s.span.start
  conditions := s.decisions.map (condition code)

end NumberedStatement

end CilCoverage
