/-
  Inserting probes.

  A probe pushes a hit id and calls the probe method. A sequence probe stands
  before an instruction, and whatever led to the instruction then leads to the
  probe. A decision is followed by one stub per successor: a probe and a jump
  to the successor. The decision's targets go to the stubs; the first stub is
  reached by falling through.

  Every instruction gives rise to a block of its own (`emit`), so a position in
  the new body is the start of a block and an offset into it.
-/
import CilCoverage.HitIds
import CilCoverage.LabelledBody

namespace CilCoverage

/-- Where to put probes. Of several entries for one instruction the last counts. -/
structure ProbePlan where
  /-- Probe before the instruction. -/
  sequences : List (Nat × HitId)
  /-- Probes on the ways out of an instruction, by successor. The first one is the
  instruction that follows. -/
  decisions : List (Nat × List (Nat × HitId))
  deriving DecidableEq, Repr

namespace ProbePlan

/-- Nothing to insert. -/
def empty : ProbePlan := ⟨[], []⟩

/-- The probe before an instruction. -/
def sequence? (plan : ProbePlan) (index : Nat) : Option HitId :=
  plan.sequences.reverse.lookup index

/-- The probes on the ways out of an instruction. -/
def successors (plan : ProbePlan) (index : Nat) : List (Nat × HitId) :=
  (plan.decisions.reverse.lookup index).getD []

end ProbePlan

namespace LabelledBody

/-- A target in a body under construction. -/
inductive Label where
  /-- The block of an instruction. -/
  | entry (index : Nat)
  /-- A stub in the block of a decision. -/
  | stub (index position : Nat)
  deriving DecidableEq, Repr

/-- Instructions that report an id to the probe method. -/
def probeCall {α : Type} (offset : Nat) (id : HitId) (probe : Token) : List (Instruction α) :=
  [⟨offset, .ldcI4, .int32 id.toInt32⟩, ⟨offset, .call, .token probe⟩]

/-- A probe, and a jump to an instruction. -/
def stub (probe : Token) (offset : Nat) (id : HitId) (target : Nat) : List (Instruction Label) :=
  probeCall offset id probe ++ [⟨offset, .brS, .target (.entry target)⟩]

/-- Number of instructions of a stub. -/
def stubLength : Nat := 3

/-- The stubs of the decision at `index`. -/
def stubs (probe : Token) (offset index : Nat) : List (Nat × HitId) → List (Instruction Label)
  | [] => []
  | (_, id) :: rest =>
    stub probe offset id (index + 1) ++ rest.flatMap fun s => stub probe offset s.2 s.1

/-- Where a target of the decision at `index` goes: to the first stub for it. -/
def retarget (index : Nat) (successors : List (Nat × HitId)) (target : Nat) : Label :=
  match successors.findIdx? fun s => s.1 == target with
  | some position => .stub index position
  | none => .entry target

/-- The probe before an instruction, if there is one. -/
def sequenceProbe (plan : ProbePlan) (probe : Token) (index offset : Nat) :
    List (Instruction Label) :=
  match plan.sequence? index with
  | some id => probeCall offset id probe
  | none => []

/-- The block of an instruction: its probe, itself and its stubs. -/
def emit (plan : ProbePlan) (probe : Token) (index : Nat) (i : Instruction Nat) :
    List (Instruction Label) :=
  let successors := plan.successors index
  sequenceProbe plan probe index i.offset ++
    i.mapTargets (retarget index successors) :: stubs probe i.offset index successors

/-- The blocks of all instructions. -/
def blocks (plan : ProbePlan) (probe : Token) (body : LabelledBody) :
    List (List (Instruction Label)) :=
  body.instructions.mapIdx (emit plan probe)

/-- The start of each block in the new body, and its end. -/
def entries (plan : ProbePlan) (probe : Token) (body : LabelledBody) : List Nat :=
  prefixSums 0 ((blocks plan probe body).map List.length)

/-- The new index of a block. -/
def entry (plan : ProbePlan) (probe : Token) (body : LabelledBody) (index : Nat) : Nat :=
  (entries plan probe body).getD index 0

/-- The new index of a label. A stub comes after the probe and the decision of its block, and
after the stubs before it. -/
def place (plan : ProbePlan) (entryOf : Nat → Nat) : Label → Nat
  | .entry index => entryOf index
  | .stub index position =>
    entryOf index + (if (plan.sequence? index).isSome then 2 else 0) + 1 + stubLength * position

/-- The body with the probes of a plan. Clauses begin and end where they did, before the
probe of an instruction. -/
def insertProbes (body : LabelledBody) (plan : ProbePlan) (probe : Token) : LabelledBody :=
  let starts := (entries plan probe body).toArray
  let entryOf := fun index => starts.getD index 0
  { instructions :=
      (blocks plan probe body).flatten.map fun i => i.mapTargets (place plan entryOf)
    clauses := body.clauses.map fun c => c.map entryOf }

end LabelledBody

end CilCoverage
