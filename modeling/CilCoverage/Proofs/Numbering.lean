/-
  Hit ids of statements, and the plan that reports them.

  The ids of statements are the ids of the reserved block, in order
  (`number_spec`). The plan of numbered statements fits the body they are
  statements of (`plan_fits`), names no instruction twice (`plan_distinct`) and
  uses the same ids (`plan_ids_perm`).
-/
import CilCoverage.Proofs.Blocks
import CilCoverage.Proofs.Probes.Sites
import CilCoverage.Proofs.Segmentation

namespace CilCoverage

/-! ## Numbered statements -/

namespace NumberedStatement

open HitIds

/-- The decision has its successors numbered. -/
structure Numbers (d : Decision) (e : Nat × List (Nat × HitId)) : Prop where
  index : e.1 = d.index
  successors : e.2.map Prod.fst = d.successors

/-- The statement has its points numbered. -/
structure NumbersAll (s : Statement) (n : NumberedStatement) : Prop where
  span : n.span = s.span
  decisions : List.Forall₂ Numbers s.decisions n.decisions

/-- The ids of a statement, its own first. -/
def ids (n : NumberedStatement) : List HitId :=
  n.id :: n.decisions.flatMap fun e => e.2.map Prod.snd

theorem numberDecisions_spec (first : HitId) (ds : List Decision) :
    List.Forall₂ Numbers ds (numberDecisions first ds) ∧
      (numberDecisions first ds).flatMap (fun e => e.2.map Prod.snd) =
        block first (ds.flatMap Decision.successors).length := by
  induction ds generalizing first with
  | nil => exact ⟨.nil, rfl⟩
  | cons d ds ih =>
    obtain ⟨hnumbers, hids⟩ := ih (first + UInt32.ofNat d.successors.length)
    have hlen := length_block first d.successors.length
    refine ⟨.cons ⟨rfl, ?_⟩ hnumbers, ?_⟩
    · exact List.map_fst_zip (Nat.le_of_eq hlen.symm)
    · rw [numberDecisions, List.flatMap_cons, hids, List.flatMap_cons, List.length_append,
        block_add]
      congr 1
      exact List.map_snd_zip (Nat.le_of_eq hlen)

/-- The ids of the statements are those of the block. -/
theorem number_spec (first : HitId) (ss : List Statement) :
    List.Forall₂ NumbersAll ss (number first ss) ∧
      (number first ss).flatMap ids = block first (Statement.idCountAll ss) := by
  induction ss generalizing first with
  | nil => exact ⟨.nil, rfl⟩
  | cons s ss ih =>
    obtain ⟨hnumbers, hids⟩ := ih (first + UInt32.ofNat s.idCount)
    obtain ⟨hdecisions, hdids⟩ := numberDecisions_spec (first + 1) s.decisions
    refine ⟨.cons ⟨rfl, hdecisions⟩ hnumbers, ?_⟩
    have hone : block first 1 = [first] := by simp [block]
    have hs : ids ⟨s.span, first, numberDecisions (first + 1) s.decisions⟩ =
        block first s.idCount := by
      rw [ids, hdids, Statement.idCount, block_add, hone]
      rfl
    rw [number, List.flatMap_cons, hids, hs, Statement.idCountAll, block_add]

/-! ## The plan -/

theorem plan_ids_perm (ns : List NumberedStatement) : (plan ns).ids.Perm (ns.flatMap ids) := by
  have hsequences : (plan ns).sequences.map Prod.snd = ns.map NumberedStatement.id := by
    simp [plan]
  rw [ProbePlan.ids, hsequences, plan, List.flatMap_assoc]
  exact List.map_append_flatMap_perm ns NumberedStatement.id _

section Plan

variable {body : LabelledBody} {ss : List Statement} {ns : List NumberedStatement}
  (hnumbers : List.Forall₂ NumbersAll ss ns) (hsound : ∀ s ∈ ss, s.Sound body.instructions)
include hnumbers hsound

theorem plan_fits : (plan ns).Fits body := by
  constructor
  · intro q hq
    obtain ⟨n, hn, rfl⟩ := List.mem_map.mp hq
    obtain ⟨s, hs, hsn⟩ := Result.exists_mem_left hnumbers hn
    obtain ⟨hlt, hle⟩ := (hsound s hs).within
    rw [hsn.span]
    omega
  · intro e he
    obtain ⟨n, hn, he⟩ := List.mem_flatMap.mp he
    obtain ⟨s, hs, hsn⟩ := Result.exists_mem_left hnumbers hn
    obtain ⟨d, hd, hde⟩ := Result.exists_mem_left hsn.decisions he
    obtain ⟨⟨hnext, ⟨i, hi, hdecision, hsuccessors⟩, -⟩, -⟩ := (hsound s hs).decisions d hd
    rw [hde.index, hde.successors]
    exact ⟨i, hi, hdecision, hnext, hsuccessors⟩

omit hsound in
theorem map_start_eq : ns.map (fun n => n.span.start) = ss.map fun s => s.span.start := by
  induction hnumbers with
  | nil => rfl
  | cons h _ ih => rw [List.map_cons, List.map_cons, h.span, ih]

omit hsound in
theorem map_index_eq : ns.flatMap (fun n => n.decisions.map Prod.fst) =
    ss.flatMap fun s => s.decisions.map Decision.index := by
  induction hnumbers with
  | nil => rfl
  | @cons s n ss ns h _ ih =>
    have hs : n.decisions.map Prod.fst = s.decisions.map Decision.index := by
      have hdecisions := h.decisions
      generalize s.decisions = ds at hdecisions
      generalize n.decisions = es at hdecisions
      induction hdecisions with
      | nil => rfl
      | cons hd _ ih => rw [List.map_cons, List.map_cons, hd.index, ih]
    rw [List.flatMap_cons, List.flatMap_cons, hs, ih]

/-- Statements that do not overlap share no first instruction and no decision. -/
theorem plan_distinct (hapart : ss.Pairwise fun a b => a.span.stop ≤ b.span.start) :
    (plan ns).Distinct := by
  constructor
  · have hstarts : (plan ns).sequences.map Prod.fst = ns.map fun n => n.span.start := by
      simp [plan]
    rw [hstarts, map_start_eq hnumbers, List.Nodup, List.pairwise_map]
    refine hapart.imp_of_mem fun {a b} ha _ hab => ?_
    have := (hsound a ha).within.1
    omega
  · have hindices : (plan ns).decisions.map Prod.fst =
        ns.flatMap fun n => n.decisions.map Prod.fst := by
      rw [plan, List.map_flatMap]
    rw [hindices, map_index_eq hnumbers, List.Nodup, List.pairwise_flatMap]
    constructor
    · intro s hs
      rw [List.pairwise_map]
      exact (hsound s hs).ascending.imp fun hlt => Nat.ne_of_lt hlt
    · refine hapart.imp_of_mem fun {a b} ha hb hab x hx y hy => ?_
      obtain ⟨d, hd, rfl⟩ := List.mem_map.mp hx
      obtain ⟨e, he, rfl⟩ := List.mem_map.mp hy
      have h1 := ((hsound a ha).decisions d hd).2.2
      have h2 := ((hsound b hb).decisions e he).2.1
      omega

end Plan

end NumberedStatement

end CilCoverage
