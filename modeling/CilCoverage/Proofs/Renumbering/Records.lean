/-
  What is recorded of a method, with other ids.

  Statements that are numbered from another id on have all their ids moved by
  the same amount (`number_add`), and so has everything that is made of them:
  the plan of the probes, the sequences and the source files. `mapIds` replaces
  the ids of each of these and leaves the rest alone.
-/
import Mathlib.Data.UInt
import CilCoverage.Proofs.Outcomes
import CilCoverage.Proofs.Renumbering.Bodies

namespace CilCoverage

variable {f : HitId → HitId}

/-! ## Replacing ids -/

def Branch.mapIds (f : HitId → HitId) (b : Branch) : Branch := { b with hitId := f b.hitId }

def Condition.mapIds (f : HitId → HitId) (c : Condition) : Condition :=
  { c with branches := c.branches.map (Branch.mapIds f) }

def Sequence.mapIds (f : HitId → HitId) (s : Sequence) : Sequence :=
  { s with hitId := f s.hitId, conditions := s.conditions.map (Condition.mapIds f) }

def DocumentSequence.mapIds (f : HitId → HitId) (s : DocumentSequence) : DocumentSequence :=
  { s with sequence := s.sequence.mapIds f }

def SourceFile.mapIds (f : HitId → HitId) (file : SourceFile) : SourceFile :=
  { file with sequences := file.sequences.map (Sequence.mapIds f) }

def InstrumentedAssembly.mapIds (f : HitId → HitId) (a : InstrumentedAssembly) :
    InstrumentedAssembly :=
  { a with sourceFiles := a.sourceFiles.map (SourceFile.mapIds f) }

def AssemblyOutcome.mapIds (f : HitId → HitId) : AssemblyOutcome → AssemblyOutcome
  | instrumented assembly => instrumented (assembly.mapIds f)
  | alreadyInstrumented => alreadyInstrumented

/-! ## Numbered statements -/

namespace NumberedStatement

/-- The statement with an id in place of each one. -/
def mapIds (f : HitId → HitId) (n : NumberedStatement) : NumberedStatement :=
  ⟨n.span, f n.id, n.decisions.map fun d => (d.1, d.2.map fun s => (s.1, f s.2))⟩

theorem plan_mapIds (f : HitId → HitId) (ns : List NumberedStatement) :
    plan (ns.map (mapIds f)) = (plan ns).mapIds f := by
  simp only [plan, ProbePlan.mapIds, List.map_map, List.flatMap_map, List.map_flatMap]
  rfl

theorem sequence_mapIds (f : HitId → HitId) (code : Array (Instruction Nat)) (method : MethodInfo)
    (n : NumberedStatement) :
    (n.mapIds f).sequence code method = (n.sequence code method).mapIds f := by
  have hcondition : ∀ d : Nat × List (Nat × HitId),
      condition code (d.1, d.2.map fun s => (s.1, f s.2)) = (condition code d).mapIds f := by
    intro d
    simp only [condition, Condition.mapIds, Condition.mk.injEq, true_and]
    exact List.ext_getElem (by simp) fun k _ _ => by simp [Branch.mapIds]
  simp only [sequence, mapIds, Sequence.mapIds, List.map_map, Function.comp_def, hcondition]

theorem block_add_right (first delta : HitId) (count : Nat) :
    HitIds.block (first + delta) count = (HitIds.block first count).map (· + delta) := by
  rw [HitIds.block, HitIds.block, List.map_map]
  exact List.map_congr_left fun k _ => add_right_comm first delta _

theorem numberDecisions_add (first delta : HitId) (ds : List Decision) :
    numberDecisions (first + delta) ds =
      (numberDecisions first ds).map fun d => (d.1, d.2.map fun s => (s.1, s.2 + delta)) := by
  induction ds generalizing first with
  | nil => rfl
  | cons d ds ih =>
    rw [numberDecisions, numberDecisions, add_right_comm, ih, block_add_right, List.zip_map_right]
    rfl

/-- Numbering from another id on moves all ids. -/
theorem number_add (first delta : HitId) (ss : List Statement) :
    number (first + delta) ss = (number first ss).map (mapIds (· + delta)) := by
  induction ss generalizing first with
  | nil => rfl
  | cons s ss ih =>
    rw [number, number, add_right_comm first delta 1,
      add_right_comm first delta (UInt32.ofNat s.idCount), ih, numberDecisions_add]
    rfl

end NumberedStatement

namespace Instrumenter

theorem documentSequences_mapIds (f : HitId → HitId) (root : Option String)
    (code : List (Instruction Nat)) (method : MethodDef) (ns : List NumberedStatement) :
    documentSequences root code method (ns.map (NumberedStatement.mapIds f)) =
      (documentSequences root code method ns).map (DocumentSequence.mapIds f) := by
  simp only [documentSequences, List.map_map]
  refine List.map_congr_left fun n _ => ?_
  simp only [Function.comp_apply, NumberedStatement.sequence_mapIds]
  rfl

end Instrumenter

/-! ## Files -/

namespace OrderedMap

variable {κ α β : Type} [Ord κ]

/-- Changing the entries of a map that has other values. -/
theorem upsertList_map (h : α → β) (k : κ) {g : Option α → α} {g' : Option β → β}
    (hg : ∀ before, g' (before.map h) = h (g before)) (l : List (κ × α)) :
    upsertList k g' (l.map fun e => (e.1, h e.2)) = (upsertList k g l).map fun e => (e.1, h e.2) := by
  induction l with
  | nil => simp [upsertList, ← hg]
  | cons e l ih =>
    rw [List.map_cons, upsertList, upsertList]
    split
    · simp [← hg]
    · simp [← hg]
    · rw [ih]
      rfl

end OrderedMap

/-- The entries of files, with an id in place of each one. -/
def mapFileIds (f : HitId → HitId) (entries : List (String × List Sequence)) :
    List (String × List Sequence) :=
  entries.map fun e => (e.1, e.2.map (Sequence.mapIds f))

namespace Instrumenter.Progress

theorem entries_addSequences {files files' : OrderedMap String (List Sequence)}
    (h : files'.entries = mapFileIds f files.entries) (sequences : List DocumentSequence) :
    (addSequences files' (sequences.map (DocumentSequence.mapIds f))).entries =
      mapFileIds f (addSequences files sequences).entries := by
  induction sequences generalizing files files' with
  | nil => exact h
  | cons s sequences ih =>
    refine ih ?_
    show OrderedMap.upsertList _ _ files'.entries = mapFileIds f (OrderedMap.upsertList _ _ _)
    rw [h]
    refine OrderedMap.upsertList_map (List.map (Sequence.mapIds f)) s.document (fun before => ?_) _
    cases before <;> simp [DocumentSequence.mapIds]

theorem sourceFiles_mapIds {p p' : Progress} (h : p'.files.entries = mapFileIds f p.files.entries) :
    p'.sourceFiles = p.sourceFiles.map (SourceFile.mapIds f) := by
  rw [sourceFiles, h, mapFileIds, sourceFiles, List.map_map, List.map_map]
  rfl

end Instrumenter.Progress

end CilCoverage
