/-
  The sequences of a batch.

  A job collects the sequences of its methods by file, and ends up with those of
  its source files. Grouping them loses none and doubles none
  (`perm_addSequences`), and the sequences of the coverage map are those that
  the jobs ended up with (`sequences_of_outcomes`, `sequences_coverageMap`).
-/
import CilCoverage.Proofs.Batch.Interleaving
import CilCoverage.Proofs.MapValidity
import Mathlib.Data.List.Perm.Basic

namespace CilCoverage

/-! ## Sequences by file -/

/-- Sequences that are kept by file. -/
def fileSequences (files : OrderedMap String (List Sequence)) : List Sequence :=
  files.entries.flatMap Prod.snd

theorem perm_upsertList (document : String) (s : Sequence) (l : List (String × List Sequence)) :
    ((OrderedMap.upsertList document (fun before => before.getD [] ++ [s]) l).flatMap
      Prod.snd).Perm (l.flatMap Prod.snd ++ [s]) := by
  induction l with
  | nil => simp [OrderedMap.upsertList]
  | cons e rest ih =>
    obtain ⟨k, a⟩ := e
    unfold OrderedMap.upsertList
    split
    · simp only [List.flatMap_cons, Option.getD_none, List.nil_append]
      exact List.perm_append_comm
    · simp only [List.flatMap_cons, Option.getD_some, List.append_assoc]
      exact List.perm_append_comm.append_left _
    · simp only [List.flatMap_cons, List.append_assoc]
      exact ih.append_left _

/-- Sequences that are added to their files are kept with those that were there. -/
theorem perm_addSequences (files : OrderedMap String (List Sequence))
    (sequences : List DocumentSequence) :
    (fileSequences (Instrumenter.Progress.addSequences files sequences)).Perm
      (fileSequences files ++ sequences.map (·.sequence)) := by
  induction sequences generalizing files with
  | nil =>
    rw [List.map_nil, List.append_nil]
    exact .refl _
  | cons s rest ih =>
    have hone := perm_upsertList s.document s.sequence files.entries
    have hall := (ih (files.upsert s.document fun before => before.getD [] ++ [s.sequence])).trans
      (hone.append_right _)
    rwa [List.append_assoc] at hall

namespace Instrumenter

/-- The sequences that a target ended up with. -/
def outcomeSequences : Except InstrumentError AssemblyOutcome → List Sequence
  | .ok (.instrumented assembly) => assembly.sourceFiles.flatMap (·.sequences)
  | _ => []

theorem flatMap_sourceFiles (p : Progress) :
    p.sourceFiles.flatMap (·.sequences) = fileSequences p.files := by
  rw [Progress.sourceFiles, List.flatMap_map]
  rfl

/-- The sequences of the coverage map are those of the targets. -/
theorem sequences_coverageMap (config : Config) (outcomes : List NamedOutcome) :
    (coverageMap config outcomes).sequences = outcomes.flatMap fun o => outcomeSequences o.2 := by
  rw [CoverageMap.sequences, CoverageMap.files, coverageMap, List.flatMap_assoc]
  dsimp only
  induction outcomes with
  | nil => rfl
  | cons o rest ih =>
    rw [List.flatMap_cons, ← ih]
    obtain ⟨name, outcome⟩ := o
    rcases outcome with e | assembly | _ <;> rfl

/-! ## Jobs -/

/-- The sequences that a job has collected. -/
def Job.sequences (j : Job) : List Sequence :=
  match j.stage with
  | .waiting | .resolving _ => []
  | .working _ _ p _ => fileSequences p.files
  | .finished outcome _ => outcomeSequences outcome

/-- Jobs that are done hold the sequences that they ended up with. -/
theorem sequences_of_outcomes {jobs : List Job} {outcomes : List NamedOutcome}
    (h : jobs.mapM Job.outcome? = some outcomes) :
    jobs.flatMap Job.sequences = outcomes.flatMap fun o => outcomeSequences o.2 := by
  induction jobs generalizing outcomes with
  | nil =>
    cases h
    rfl
  | cons j rest ih =>
    rw [List.mapM_cons] at h
    obtain ⟨o, ho, h⟩ := Option.bind_eq_some_iff.mp h
    obtain ⟨os, hos, h⟩ := Option.bind_eq_some_iff.mp h
    cases h
    have hj : j.sequences = outcomeSequences o.2 := by
      unfold Job.outcome? at ho
      split at ho
      · next hstage =>
        cases ho
        rw [Job.sequences, hstage]
      · cases ho
    rw [List.flatMap_cons, List.flatMap_cons, hj, ih hos]

/-- What the jobs hold is what one of them holds and what the others hold, and these do not see
what becomes of the one. -/
theorem exists_others {α : Type} (f : Job → List α) {jobs : List Job} {k : Nat} {j : Job}
    (hj : jobs[k]? = some j) :
    ∃ others, (jobs.flatMap f).Perm (f j ++ others) ∧
      ∀ j', ((jobs.set k j').flatMap f).Perm (f j' ++ others) := by
  induction jobs generalizing k with
  | nil => cases hj
  | cons job jobs ih =>
    cases k with
    | zero =>
      obtain rfl : job = j := Option.some.inj hj
      exact ⟨jobs.flatMap f, .refl _, fun j' => .refl _⟩
    | succ k =>
      obtain ⟨others, hbefore, hafter⟩ := ih hj
      have hswap (held : List α) :
          (f job ++ (held ++ others)).Perm (held ++ (f job ++ others)) := by
        rw [← List.append_assoc, ← List.append_assoc]
        exact List.perm_append_comm.append_right _
      refine ⟨f job ++ others, ?_, fun j' => ?_⟩
      · rw [List.flatMap_cons]
        exact (hbefore.append_left _).trans (hswap _)
      · rw [List.set_cons_succ, List.flatMap_cons]
        exact ((hafter j').append_left _).trans (hswap _)

end Instrumenter

end CilCoverage
