/-
  Running a body with probes.

  One instruction of the original body is a few instructions of the new one:
  the probe before it, the instruction, and the stub on the way out that it
  takes (`run_visit`). Steps put together, the new body performs the original
  instructions in the same states and reports what the plan says about each,
  no more and no less (`insertProbes_simulates`).
-/
import CilCoverage.Proofs.Lowering
import CilCoverage.Proofs.Machine
import CilCoverage.Proofs.Probes.Placement

namespace CilCoverage

/-- What a run shows. -/
inductive Event (σ : Type) where
  /-- The original instruction at an index is performed in a state. -/
  | performed (index : Nat) (state : σ)
  | reported (id : HitId)
  deriving DecidableEq, Repr

namespace LabelledBody

variable {σ : Type} {m : Machine σ} {plan : ProbePlan} {probe : Token} {body : LabelledBody}

/-- What running an instruction of the original body has to show: the id of the statement that
it starts, the instruction, and the id of the successor it goes on with. -/
def announce (plan : ProbePlan) (v : Machine.Visit σ) : List (Event σ) :=
  (plan.sequence? v.index).toList.map .reported ++ .performed v.index v.state ::
    (v.next.bind fun t => (plan.successors v.index).lookup t).toList.map .reported

/-- The original index of the instruction at a new index; probes and jumps of stubs have none. -/
def origin? (plan : ProbePlan) (probe : Token) (body : LabelledBody) (q : Nat) : Option Nat :=
  (List.range body.instructions.length).find? fun index => home plan probe body index == q

/-- What running an instruction of the new body shows. -/
def observe (m : Machine σ) (plan : ProbePlan) (probe : Token) (body : LabelledBody)
    (v : Machine.Visit σ) : Option (Event σ) :=
  match (body.insertProbes plan probe).instructions[v.index]? with
  | none => none
  | some i =>
    if i.isCallTo probe then some (.reported (m.argument v.state))
    else (origin? plan probe body v.index).map fun index => .performed index v.state

/-! ## Origins -/

theorem origin?_home {index : Nat} (h : index < body.instructions.length) :
    origin? plan probe body (home plan probe body index) = some index := by
  unfold origin?
  cases hf : (List.range body.instructions.length).find? fun j =>
      home plan probe body j == home plan probe body index with
  | none =>
    have := List.find?_eq_none.mp hf index (List.mem_range.mpr h)
    simp at this
  | some j =>
    have hj := List.mem_range.mp (List.mem_of_find?_eq_some hf)
    have heq := List.find?_some hf
    rw [home_inj plan probe hj h (by simpa using heq)]

/-- What else stands in a block was inserted. -/
theorem origin?_eq_none {index q : Nat} (h : index < body.instructions.length)
    (hle : entry plan probe body index ≤ q) (hlt : q < entry plan probe body (index + 1))
    (hne : q ≠ home plan probe body index) : origin? plan probe body q = none := by
  unfold origin?
  rw [List.find?_eq_none]
  intro j hj heq
  have hj := List.mem_range.mp hj
  have heq : home plan probe body j = q := by simpa using heq
  have hentry : entry plan probe body j ≤ home plan probe body j := Nat.le_add_right _ _
  rcases Nat.lt_trichotomy j index with hji | rfl | hji
  · have h1 := home_lt_entry_succ plan probe hj
    have h2 : entry plan probe body (j + 1) ≤ entry plan probe body index :=
      entry_mono plan probe hji (Nat.le_of_lt h)
    omega
  · exact hne heq.symm
  · have h1 : entry plan probe body (index + 1) ≤ entry plan probe body j :=
      entry_mono plan probe hji (Nat.le_of_lt hj)
    omega

/-! ## Running the parts of a block -/

/-- A probe reports its id and changes nothing. -/
theorem run_probe (hm : m.Supports probe) {q o : Nat} {id : HitId}
    (h0 : (body.insertProbes plan probe).instructions[q]? =
      some ⟨o, .ldcI4, .int32 id.toInt32⟩)
    (h1 : (body.insertProbes plan probe).instructions[q + 1]? = some ⟨o, .call, .token probe⟩)
    (hq : origin? plan probe body q = none) (state : σ) :
    ∃ vs, m.run (body.insertProbes plan probe).instructions 2 ⟨some q, state⟩ =
        (vs, ⟨some (q + 2), state⟩) ∧
      vs.filterMap (observe m plan probe body) = [.reported id] := by
  obtain ⟨pushed, hpush, harg, hcall⟩ := hm.report id state
  refine ⟨_, Machine.run_trans (Machine.run_one (Machine.step_of_getElem? h0 hpush))
    (Machine.run_one (Machine.step_of_getElem? h1 hcall)), ?_⟩
  simp [observe, h0, h1, hq, Instruction.isCallTo, harg]

section Block

variable {index : Nat} {i : Instruction Nat} (hi : body.instructions[index]? = some i)
include hi

theorem run_lead (plan : ProbePlan) (hm : m.Supports probe) (state : σ) :
    ∃ vs, m.run (body.insertProbes plan probe).instructions (lead plan index)
          ⟨some (entry plan probe body index), state⟩ =
        (vs, ⟨some (home plan probe body index), state⟩) ∧
      vs.filterMap (observe m plan probe body) =
        (plan.sequence? index).toList.map .reported := by
  obtain ⟨hlt, _⟩ := List.getElem?_eq_some_iff.mp hi
  cases hs : plan.sequence? index with
  | none => exact ⟨[], by simp [home, lead, hs, Machine.run], rfl⟩
  | some id =>
    have hlead : lead plan index = 2 := by simp [lead, hs]
    obtain ⟨h0, h1⟩ := insertProbes_at_entry plan probe hi hs
    have hhome := home_lt_entry_succ plan probe hlt
    have horigin := origin?_eq_none hlt (Nat.le_refl (entry plan probe body index))
      (by rw [home] at hhome; omega) (by rw [home]; omega)
    obtain ⟨vs, hrun, hvs⟩ := run_probe hm h0 h1 horigin state
    exact ⟨vs, by rw [home, hlead, hrun], hvs⟩

theorem run_home (hcalls : NoCallTo probe body) {state after : σ} {exit : Exit}
    (hp : m.perform i.opcode i.operand.shape state = (after, exit)) :
    ∃ v, m.run (body.insertProbes plan probe).instructions 1
          ⟨some (home plan probe body index), state⟩ =
        ([v], ⟨Machine.follow (home plan probe body index)
          (i.mapTargets (newTarget plan probe body index)) exit, after⟩) ∧
      observe m plan probe body v = some (.performed index state) := by
  obtain ⟨hlt, hget⟩ := List.getElem?_eq_some_iff.mp hi
  have hat := insertProbes_at_home plan probe hi
  have hshape : (i.mapTargets (newTarget plan probe body index)).operand.shape =
      i.operand.shape := Operand.shape_mapTargets _ _
  have hcall : (i.mapTargets (newTarget plan probe body index)).isCallTo probe = false := by
    rw [← hcalls i (hget ▸ List.getElem_mem hlt)]
    exact Instruction.isCallTo_mapTargets _ i probe
  refine ⟨_, Machine.run_one (Machine.step_of_getElem? hat (hshape ▸ hp)), ?_⟩
  simp only [observe, hat, hcall, Bool.false_eq_true, if_false, origin?_home hlt, Option.map_some]

/-- A stub reports its id and goes on with its successor. -/
theorem run_stub (hm : m.Supports probe) (hfits : plan.Fits body) {p t : Nat} {id : HitId}
    (hs : (plan.successors index)[p]? = some (t, id)) (state : σ) :
    ∃ vs, m.run (body.insertProbes plan probe).instructions 3
          ⟨some (stubEntry plan probe body index p), state⟩ =
        (vs, ⟨some (entry plan probe body t), state⟩) ∧
      vs.filterMap (observe m plan probe body) = [.reported id] := by
  obtain ⟨hlt, _⟩ := List.getElem?_eq_some_iff.mp hi
  obtain ⟨hp, _⟩ := List.getElem?_eq_some_iff.mp hs
  obtain ⟨h0, h1, h2⟩ := insertProbes_at_stub plan probe hi hs
  rw [hfits.covers.stubTarget_eq hi hs] at h2
  have hsucc := entry_succ_eq_home plan probe hi
  have hentry : entry plan probe body index ≤ home plan probe body index := Nat.le_add_right _ _
  have horigin : ∀ r < 3, origin? plan probe body (stubEntry plan probe body index p + r) = none :=
    fun r hr => origin?_eq_none hlt (by rw [stubEntry]; omega) (by rw [hsucc, stubEntry]; omega)
      (by rw [stubEntry]; omega)
  obtain ⟨vs, hrun, hvs⟩ := run_probe hm h0 h1 (horigin 0 (by omega)) state
  have hjump := Machine.step_of_getElem? h2 (hm.jump .brS state (Or.inr rfl))
  refine ⟨_, Machine.run_trans hrun (Machine.run_one hjump), ?_⟩
  rw [List.filterMap_append, hvs]
  simp [observe, h2, horigin 2 (by omega), Instruction.isCallTo]

/-- Falling through a decision leads to its first stub. -/
theorem run_fallthrough (hm : m.Supports probe) (hfits : plan.Fits body)
    (hmap : (plan.successors index).map Prod.fst = Decision.successorsOf index i) (state : σ) :
    ∃ vs, m.run (body.insertProbes plan probe).instructions 3
          ⟨some (home plan probe body index + 1), state⟩ =
        (vs, ⟨some (entry plan probe body (index + 1)), state⟩) ∧
      vs.filterMap (observe m plan probe body) =
        ((plan.successors index).lookup (index + 1)).toList.map .reported := by
  obtain ⟨others, hothers⟩ := Decision.successorsOf_eq_cons index i
  cases hs : plan.successors index with
  | nil => simp [hs, hothers] at hmap
  | cons s _ =>
    obtain ⟨t, id⟩ := s
    obtain rfl : t = index + 1 := by
      rw [hs, hothers] at hmap
      exact (List.cons.inj hmap).1
    have hget : (plan.successors index)[0]? = some (index + 1, id) := by
      rw [hs]
      rfl
    obtain ⟨vs, hrun, hvs⟩ := run_stub hi hm hfits hget state
    exact ⟨vs, hrun, by simp [hvs]⟩

/-- A target of a decision leads to the stub for it. -/
theorem run_newTarget (hm : m.Supports probe) (hfits : plan.Fits body) {t : Nat}
    (ht : t ∈ (plan.successors index).map Prod.fst) (state : σ) :
    ∃ vs, m.run (body.insertProbes plan probe).instructions 3
          ⟨some (newTarget plan probe body index t), state⟩ =
        (vs, ⟨some (entry plan probe body t), state⟩) ∧
      vs.filterMap (observe m plan probe body) =
        ((plan.successors index).lookup t).toList.map .reported := by
  obtain ⟨p, id, hget, hlookup, hnew⟩ := newTarget_of_mem probe body ht
  obtain ⟨vs, hrun, hvs⟩ := run_stub hi hm hfits hget state
  rw [hnew, hlookup]
  exact ⟨vs, hrun, hvs⟩

/-- Every way out of an instruction that is no decision leads straight to an entry. -/
theorem follow_of_successors_eq_nil (hnil : plan.successors index = []) (exit : Exit) :
    Machine.follow (home plan probe body index)
        (i.mapTargets (newTarget plan probe body index)) exit =
      (Machine.follow index i exit).map (entry plan probe body) := by
  have hlen : (plan.successors index).length = 0 := by rw [hnil]; rfl
  cases exit with
  | stop => rfl
  | next =>
    have hnext : home plan probe body index + 1 = entry plan probe body (index + 1) := by
      rw [entry_succ_eq_home plan probe hi, hlen]
    rw [Machine.follow, hnext]
    rfl
  | target position =>
    simp only [Machine.follow, Instruction.mapTargets, Operand.targets_mapTargets,
      List.getElem?_map]
    congr 1
    funext t
    exact newTarget_of_successors_eq_nil hnil t

/-- The way out of an instruction reports the successor, and leads to its new entry. -/
theorem run_leave (hm : m.Supports probe) (hfits : plan.Fits body) (exit : Exit) (state : σ) :
    ∃ k vs, m.run (body.insertProbes plan probe).instructions k
          ⟨Machine.follow (home plan probe body index)
            (i.mapTargets (newTarget plan probe body index)) exit, state⟩ =
        (vs, ⟨(Machine.follow index i exit).map (entry plan probe body), state⟩) ∧
      vs.filterMap (observe m plan probe body) =
        ((Machine.follow index i exit).bind fun t =>
          (plan.successors index).lookup t).toList.map .reported := by
  rcases hfits.successors_cases hi with hnil | ⟨_, hmap⟩
  · refine ⟨0, [], ?_, by simp [hnil]⟩
    rw [follow_of_successors_eq_nil hi hnil]
    rfl
  · cases exit with
    | stop => exact ⟨0, [], rfl, rfl⟩
    | next =>
      obtain ⟨vs, hrun, hvs⟩ := run_fallthrough hi hm hfits hmap state
      exact ⟨3, vs, hrun, hvs⟩
    | target position =>
      simp only [Machine.follow, Instruction.mapTargets, Operand.targets_mapTargets,
        List.getElem?_map]
      cases ht : i.operand.targets[position]? with
      | none => exact ⟨0, [], rfl, rfl⟩
      | some t =>
        have hmem : t ∈ (plan.successors index).map Prod.fst := by
          rw [hmap, Decision.mem_successorsOf]
          exact Or.inr (List.mem_of_getElem? ht)
        obtain ⟨vs, hrun, hvs⟩ := run_newTarget hi hm hfits hmem state
        exact ⟨3, vs, hrun, hvs⟩

end Block

/-! ## Runs -/

/-- The configuration of the new body that goes with one of the original body. -/
def newConfig (plan : ProbePlan) (probe : Token) (body : LabelledBody) (c : Machine.Config σ) :
    Machine.Config σ :=
  ⟨c.index.map (entry plan probe body), c.state⟩

/-- Control is at an instruction, at the end of the body, or has left it. -/
def WithinBody (body : LabelledBody) (c : Machine.Config σ) : Prop :=
  ∀ index, c.index = some index → index ≤ body.instructions.length

theorem withinBody_of_step (htargets : body.TargetsInRange) {c d : Machine.Config σ}
    {v : Machine.Visit σ} (h : m.step body.instructions c = some (v, d)) : WithinBody body d := by
  unfold Machine.step at h
  split at h
  · cases h
  · split at h
    · cases h
    · next index _ i hi =>
      obtain ⟨hlt, hget⟩ := List.getElem?_eq_some_iff.mp hi
      cases h
      intro t ht
      simp only [Machine.follow] at ht
      split at ht
      · cases ht
      · cases ht
        exact hlt
      · exact Nat.le_of_lt (htargets i (hget ▸ List.getElem_mem hlt) t (List.mem_of_getElem? ht))

/-- Where the original body stops, so does the new one. -/
theorem step_newConfig_eq_none {c : Machine.Config σ} (h : m.step body.instructions c = none)
    (hc : WithinBody body c) :
    m.step (body.insertProbes plan probe).instructions (newConfig plan probe body c) = none := by
  obtain ⟨index?, state⟩ := c
  cases index? with
  | none => rfl
  | some index =>
    have hle := hc index rfl
    rcases Nat.lt_or_eq_of_le hle with hlt | rfl
    · simp [Machine.step, List.getElem?_eq_getElem hlt] at h
    · have hend : (body.insertProbes plan probe).instructions[
          entry plan probe body body.instructions.length]? = none := by
        rw [List.getElem?_eq_none_iff]
        exact Nat.le_of_eq (length_insertProbes body plan probe)
      simp [Machine.step, newConfig, hend]

/-- One instruction of the original body is a few of the new body. -/
theorem run_visit (hm : m.Supports probe) (hfits : plan.Fits body)
    (hcalls : NoCallTo probe body) {c d : Machine.Config σ} {v : Machine.Visit σ}
    (h : m.step body.instructions c = some (v, d)) :
    ∃ k vs, 0 < k ∧ m.run (body.insertProbes plan probe).instructions k
          (newConfig plan probe body c) = (vs, newConfig plan probe body d) ∧
      vs.filterMap (observe m plan probe body) = announce plan v := by
  obtain ⟨index?, state⟩ := c
  unfold Machine.step at h
  split at h
  · cases h
  · next index hat =>
    split at h
    · cases h
    · next i hi =>
      cases h
      cases hat
      generalize hp : m.perform i.opcode i.operand.shape state = r
      obtain ⟨after, exit⟩ := r
      obtain ⟨vs₁, hlead, hvs₁⟩ := run_lead hi plan hm state
      obtain ⟨u, hhome, hu⟩ := run_home hi hcalls hp
      obtain ⟨k, vs₂, hleave, hvs₂⟩ := run_leave hi hm hfits exit after
      refine ⟨_, _, ?_, Machine.run_trans (Machine.run_trans hlead hhome) hleave, ?_⟩
      · omega
      · simp [List.filterMap_append, hvs₁, hu, hvs₂, announce]

/-- A run of the original body is a run of the new one, which shows what the plan says about the
instructions run and ends where the original run ends. -/
theorem run_of_run (hm : m.Supports probe) (hfits : plan.Fits body)
    (htargets : body.TargetsInRange) (hcalls : NoCallTo probe body) (n : Nat)
    (c : Machine.Config σ) (hc : WithinBody body c) :
    ∃ k vs, m.run (body.insertProbes plan probe).instructions k (newConfig plan probe body c) =
          (vs, newConfig plan probe body (m.run body.instructions n c).2) ∧
      vs.filterMap (observe m plan probe body) =
        (m.run body.instructions n c).1.flatMap (announce plan) ∧
      (n ≤ k ∨ m.step (body.insertProbes plan probe).instructions
        (newConfig plan probe body (m.run body.instructions n c).2) = none) := by
  induction n generalizing c with
  | zero => exact ⟨0, [], rfl, rfl, Or.inl (Nat.le_refl 0)⟩
  | succ n ih =>
    cases hs : m.step body.instructions c with
    | none =>
      refine ⟨0, [], ?_, ?_, Or.inr ?_⟩
      · rw [Machine.run_of_step_eq_none hs]
        rfl
      · rw [Machine.run_of_step_eq_none hs]
        rfl
      · rw [Machine.run_of_step_eq_none hs]
        exact step_newConfig_eq_none hs hc
    | some r =>
      obtain ⟨v, d⟩ := r
      obtain ⟨k₁, vs₁, hpos, hrun₁, hvs₁⟩ := run_visit hm hfits hcalls hs
      obtain ⟨k₂, vs₂, hrun₂, hvs₂, hk⟩ := ih d (withinBody_of_step htargets hs)
      simp only [Machine.run, hs]
      refine ⟨k₁ + k₂, vs₁ ++ vs₂, Machine.run_trans hrun₁ hrun₂, ?_, ?_⟩
      · rw [List.filterMap_append, hvs₁, hvs₂, List.flatMap_cons]
      · exact hk.imp_left fun h => by omega

/-! ## The new body against the original one -/

/-- What the first `k` instructions of the new body show, from where `c` is in it. -/
def shown (m : Machine σ) (plan : ProbePlan) (probe : Token) (body : LabelledBody)
    (c : Machine.Config σ) (k : Nat) : List (Event σ) :=
  (m.run (body.insertProbes plan probe).instructions k (newConfig plan probe body c)).1.filterMap
    (observe m plan probe body)

/-- What the first `n` instructions of the original body have to show, from `c` on. -/
def due (m : Machine σ) (plan : ProbePlan) (body : LabelledBody) (c : Machine.Config σ)
    (n : Nat) : List (Event σ) :=
  (m.run body.instructions n c).1.flatMap (announce plan)

/-- The instructions performed, with the states before them. -/
def performedIn (events : List (Event σ)) : List (Nat × σ) :=
  events.filterMap fun
    | .performed index state => some (index, state)
    | .reported _ => none

/-- The ids reported. -/
def logOf (events : List (Event σ)) : List HitId :=
  events.filterMap fun
    | .performed _ _ => none
    | .reported id => some id

theorem performedIn_map_reported (ids : List HitId) :
    performedIn (ids.map Event.reported : List (Event σ)) = [] := by
  induction ids with
  | nil => rfl
  | cons id ids ih => exact ih

theorem logOf_map_reported (ids : List HitId) :
    logOf (ids.map Event.reported : List (Event σ)) = ids := by
  induction ids with
  | nil => rfl
  | cons id ids ih => exact congrArg (id :: ·) ih

/-- Announcing neither adds an instruction nor leaves one out. -/
theorem performedIn_flatMap_announce (plan : ProbePlan) (vs : List (Machine.Visit σ)) :
    performedIn (vs.flatMap (announce plan)) = vs.map fun v => (v.index, v.state) := by
  induction vs with
  | nil => rfl
  | cons v vs ih =>
    have hv : performedIn (announce plan v) = [(v.index, v.state)] := by
      rw [announce, performedIn, List.filterMap_append, List.filterMap_cons]
      exact congrArg₂ (· ++ (_, _) :: ·) (performedIn_map_reported _) (performedIn_map_reported _)
    rw [List.flatMap_cons, performedIn, List.filterMap_append, List.map_cons]
    exact congrArg₂ (· ++ ·) hv ih

theorem logOf_flatMap_announce (plan : ProbePlan) (vs : List (Machine.Visit σ)) :
    logOf (vs.flatMap (announce plan)) = vs.flatMap fun v => (plan.sequence? v.index).toList ++
      (v.next.bind fun t => (plan.successors v.index).lookup t).toList := by
  induction vs with
  | nil => rfl
  | cons v vs ih =>
    have hv : logOf (announce plan v) = (plan.sequence? v.index).toList ++
        (v.next.bind fun t => (plan.successors v.index).lookup t).toList := by
      rw [announce, logOf, List.filterMap_append, List.filterMap_cons]
      exact congrArg₂ (· ++ ·) (logOf_map_reported _) (logOf_map_reported _)
    rw [List.flatMap_cons, logOf, List.filterMap_append, List.flatMap_cons]
    exact congrArg₂ (· ++ ·) hv ih

/-- Running the new body is running the original body from `c`, with the reports that the plan
asks for. -/
structure Simulates (m : Machine σ) (plan : ProbePlan) (probe : Token) (body : LabelledBody)
    (c : Machine.Config σ) : Prop where
  /-- A run of the original body of any length has a run of the new body that performs the same
  instructions in the same states, reports the ids of the statements and of the successors that
  they come to, each at its place, and ends where the original run ends. -/
  complete : ∀ n, ∃ k, shown m plan probe body c k = due m plan body c n ∧
    performedIn (shown m plan probe body c k) =
      (m.run body.instructions n c).1.map (fun v => (v.index, v.state)) ∧
    logOf (shown m plan probe body c k) =
      (m.run body.instructions n c).1.flatMap (fun v => (plan.sequence? v.index).toList ++
        (v.next.bind fun t => (plan.successors v.index).lookup t).toList) ∧
    (m.run (body.insertProbes plan probe).instructions k (newConfig plan probe body c)).2 =
      newConfig plan probe body (m.run body.instructions n c).2
  /-- A run of the new body of any length shows nothing else. -/
  sound : ∀ k, shown m plan probe body c k <+: due m plan body c k

theorem shown_prefix_due (hm : m.Supports probe) (hfits : plan.Fits body)
    (htargets : body.TargetsInRange) (hcalls : NoCallTo probe body) (c : Machine.Config σ)
    (hc : WithinBody body c) (k : Nat) :
    shown m plan probe body c k <+: due m plan body c k := by
  obtain ⟨l, vs, hrun, hvs, hl⟩ := run_of_run hm hfits htargets hcalls k c hc
  have hshown : shown m plan probe body c l = due m plan body c k := by
    rw [due, ← hvs, shown, hrun]
  rw [← hshown]
  rcases Nat.le_total k l with hle | hle
  · exact (Machine.run_prefix hle _).filterMap _
  · rcases hl with hle' | hstop
    · obtain rfl : k = l := Nat.le_antisymm hle' hle
      exact List.prefix_rfl
    · -- The new run has stopped after `l` steps, so that it is no longer than that.
      obtain ⟨r, rfl⟩ := Nat.exists_eq_add_of_le hle
      have hlonger := Machine.run_trans hrun (Machine.run_of_step_eq_none hstop r)
      have hsame : shown m plan probe body c (l + r) = shown m plan probe body c l := by
        rw [shown, shown, hlonger, hrun, List.append_nil]
      exact hsame ▸ List.prefix_rfl

/-- Probes preserve execution, and report what happens. The method and its handlers begin at the
new entries of the instructions that they began at. -/
theorem insertProbes_simulates (hm : m.Supports probe) (hfits : plan.Fits body)
    (htargets : body.TargetsInRange) (hcalls : NoCallTo probe body) {start : Nat}
    (hstart : start < body.instructions.length) (state : σ) :
    Simulates m plan probe body ⟨some start, state⟩ ∧ entry plan probe body 0 = 0 ∧
      (body.insertProbes plan probe).clauses =
        body.clauses.map (Clause.map (entry plan probe body)) := by
  have hc : WithinBody body (⟨some start, state⟩ : Machine.Config σ) := by
    rintro index ⟨⟩
    exact Nat.le_of_lt hstart
  refine ⟨⟨?_, shown_prefix_due hm hfits htargets hcalls _ hc⟩, entry_zero,
    clauses_insertProbes body plan probe⟩
  intro n
  obtain ⟨k, vs, hrun, hvs, _⟩ := run_of_run hm hfits htargets hcalls n _ hc
  have hshown : shown m plan probe body ⟨some start, state⟩ k =
      due m plan body ⟨some start, state⟩ n := by
    rw [due, ← hvs, shown, hrun]
  refine ⟨k, hshown, ?_, ?_, ?_⟩
  · rw [hshown, due, performedIn_flatMap_announce]
  · rw [hshown, due, logOf_flatMap_announce]
  · rw [hrun]

/-! ## A jump table in a loop -/

/-- A machine with a stack of numbers; of instructions that only compute it knows nothing. -/
def stackMachine : Machine (List Int32) where
  perform
    | .ldcI4, .int32 v, stack => (v :: stack, .next)
    | .call, _, _ :: stack => (stack, .next)
    | .br, _, stack | .brS, _, stack => (stack, .target 0)
    | .switch, .table ts, v :: stack =>
      (stack, if v.toNatClampNeg < ts.length then .target v.toNatClampNeg else .next)
    | .ret, _, stack => (stack, .stop)
    | _, _, stack => (stack, .next)
  argument stack := (stack.headD 0).toUInt32

/-- A jump table that can lead to itself, twice to one instruction, and to the instruction that
follows. -/
def tableBody : LabelledBody :=
  ⟨[⟨0, .ldcI4, .int32 1⟩, ⟨5, .switch, .table [3, 1, 3, 2]⟩, ⟨26, .nop, .none⟩,
    ⟨27, .brS, .target 4⟩, ⟨29, .ret, .none⟩], []⟩

/-- The table is the start of a statement as well as a decision. -/
def tablePlan : ProbePlan := ⟨[(0, 1), (1, 2), (4, 6)], [(1, [(2, 3), (3, 4), (1, 5)])]⟩

theorem stackMachine_supports (probe : Token) : stackMachine.Supports probe where
  jump := by
    rintro opcode state (rfl | rfl) <;> rfl
  report id state := ⟨id.toInt32 :: state, rfl, by simp [stackMachine], rfl⟩

theorem tablePlan_fits : tablePlan.Fits tableBody where
  sequences := by decide
  decisions := by
    intro d hd
    obtain rfl := List.mem_singleton.mp hd
    exact ⟨_, rfl, by decide, by decide, by decide⟩

theorem insertProbes_simulates_table :
    (stackMachine.Supports ⟨0x0a000001⟩ ∧ tablePlan.Fits tableBody ∧ tableBody.TargetsInRange ∧
      NoCallTo ⟨0x0a000001⟩ tableBody ∧ 1 < tableBody.instructions.length) ∧
    Simulates stackMachine tablePlan ⟨0x0a000001⟩ tableBody ⟨some 1, [1, 0]⟩ ∧
      entry tablePlan ⟨0x0a000001⟩ tableBody 0 = 0 ∧
      (tableBody.insertProbes tablePlan ⟨0x0a000001⟩).clauses =
        tableBody.clauses.map (Clause.map (entry tablePlan ⟨0x0a000001⟩ tableBody)) :=
  ⟨⟨stackMachine_supports _, tablePlan_fits, by decide, by decide, by decide⟩,
    insertProbes_simulates (stackMachine_supports _) tablePlan_fits (by decide) (by decide)
      (by decide) [1, 0]⟩

/-- From the table back to itself, then over the jump to the end. -/
example : shown stackMachine tablePlan ⟨0x0a000001⟩ tableBody ⟨some 1, [1, 0]⟩ 20 =
    [.reported 2, .performed 1 [1, 0], .reported 5, .reported 2, .performed 1 [0], .reported 4,
      .performed 3 [], .reported 6, .performed 4 []] := by
  decide +kernel

end LabelledBody

end CilCoverage
