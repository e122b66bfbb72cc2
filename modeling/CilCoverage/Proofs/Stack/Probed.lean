/-
  Walks through a body with probes.

  A walk through the new body stays where a walk through the old one is: in the
  block of an instruction that is reached with the same depth, or in a stub
  before one (`Shadows`). Only between loading an id and the call that takes it
  there is one slot more. So if a bound is enough for the old body, one more
  slot is enough for the new one (`bounds_insertProbes`).

  Where branches become long and instructions move, walks stay as they are
  (`Alike`, `occurs_of_alike`).
-/
import CilCoverage.Proofs.Probes.Sites
import CilCoverage.Proofs.Relinking
import CilCoverage.Proofs.Stack.Walks

namespace CilCoverage

namespace StackDepth

/-! ## Instructions with the same flow -/

/-- The instructions do the same to the stack, and control goes on alike. -/
structure Alike (callEffect : Token → Option StackEffect) (i j : Instruction Nat) : Prop where
  effect : effect? callEffect j = effect? callEffect i
  clearsStack : j.opcode.clearsStack = i.opcode.clearsStack
  fallsThrough : j.opcode.fallsThrough = i.opcode.fallsThrough
  targets : j.operand.targets = i.operand.targets

theorem effect?_mapTargets (callEffect : Token → Option StackEffect) (f : Nat → Nat)
    (i : Instruction Nat) : effect? callEffect (i.mapTargets f) = effect? callEffect i := by
  obtain ⟨offset, opcode, operand⟩ := i
  cases operand <;> rfl

variable {callEffect : Token → Option StackEffect}

theorem alike_of_longForm? {i j : Instruction Nat} (hoperand : j.operand = i.operand)
    (h : i.opcode.longForm? = some j.opcode) : Alike callEffect i j := by
  obtain ⟨offset, opcode, operand⟩ := i
  obtain ⟨offset', opcode', operand'⟩ := j
  obtain rfl : operand' = operand := hoperand
  cases opcode <;> cases h <;> exact ⟨rfl, rfl, rfl, rfl⟩

theorem alike_of_opcode_eq {i j : Instruction Nat} (hoperand : j.operand = i.operand)
    (h : j.opcode = i.opcode) : Alike callEffect i j := by
  refine ⟨?_, by rw [h], by rw [h], by rw [hoperand]⟩
  rw [effect?, effect?, h, hoperand]

section Alike

variable {body back : LabelledBody} (hclauses : back.clauses = body.clauses)
  (halike : List.Forall₂ (Alike callEffect) body.instructions back.instructions)

include halike in
theorem exists_alike {index : Nat} {j : Instruction Nat}
    (hj : back.instructions[index]? = some j) :
    ∃ i, body.instructions[index]? = some i ∧ Alike callEffect i j := by
  obtain ⟨hlt, rfl⟩ := List.getElem?_eq_some_iff.mp hj
  have hlt' : index < body.instructions.length := by rwa [halike.length_eq]
  exact ⟨_, List.getElem?_eq_getElem hlt', halike.get hlt' hlt⟩

include halike in
theorem passes_of_alike {index depth : Nat} {j : Instruction Nat} {e : StackEffect}
    (h : Passes back callEffect index depth j e) :
    ∃ i, Passes body callEffect index depth i e ∧ Alike callEffect i j := by
  obtain ⟨i, hi, hij⟩ := exists_alike halike h.instruction
  exact ⟨i, ⟨hi, hij.effect ▸ h.effect, h.enough⟩, hij⟩

include hclauses halike

theorem reached_of_alike {index depth : Nat} (h : Reached back callEffect index depth) :
    Reached body callEffect index depth := by
  induction h with
  | start hs =>
    refine .start ?_
    cases hs with
    | entry => exact .entry
    | handler hc hk => exact .handler (hclauses ▸ hc) hk
    | filter hc hk => exact .filter (hclauses ▸ hc) hk
    | cleanup hc hk => exact .cleanup (hclauses ▸ hc) hk
  | @step index depth next j e _ hp hn ih =>
    obtain ⟨i, hpi, hij⟩ := passes_of_alike halike hp
    have hnext : Leads body index i next := by
      rwa [Leads, halike.length_eq, ← hij.fallsThrough, ← hij.targets]
    have honward : e.onward j depth = e.onward i depth := by
      rw [StackEffect.onward, StackEffect.onward, hij.clearsStack]
    exact honward ▸ .step ih hpi hnext

theorem occurs_of_alike {n : Nat} (h : Occurs back callEffect n) : Occurs body callEffect n := by
  cases h with
  | before hr hi => exact .before (reached_of_alike hclauses halike hr) (halike.length_eq ▸ hi)
  | after hr hp =>
    obtain ⟨i, hpi, -⟩ := passes_of_alike halike hp
    exact .after (reached_of_alike hclauses halike hr) hpi

end Alike

end StackDepth

/-! ## Probes -/

namespace LabelledBody

open StackDepth

variable {body : LabelledBody} {plan : ProbePlan} {probe : Token}
  {callEffect : Token → Option StackEffect}

/-- Walks of a closed body stay in the body, or come to its end by a clause. -/
theorem Closed.reached_le (h : body.Closed) {index depth : Nat}
    (hr : Reached body callEffect index depth) : index ≤ body.instructions.length := by
  cases hr with
  | start hs =>
    cases hs with
    | entry => exact Nat.zero_le _
    | handler hc hk => exact h.clauses _ hc _ (by simp [Clause.positions])
    | filter hc hk => exact h.clauses _ hc _ (by simp [Clause.positions, hk])
    | cleanup hc hk => exact h.clauses _ hc _ (by simp [Clause.positions])
  | step _ hp hn =>
    rcases hn with ht | ⟨-, hlt, rfl⟩
    · exact Nat.le_of_lt (h.targets _ (List.mem_of_getElem? hp.instruction) _ ht)
    · exact Nat.le_of_lt hlt

/-- Where a walk through the new body is, while one through the old body is at an instruction:
in its block up to the instruction itself, or in a stub that leads to it. -/
inductive Shadows (body : LabelledBody) (plan : ProbePlan) (probe : Token)
    (callEffect : Token → Option StackEffect) : Nat → Nat → Prop
  | front {t depth : Nat} (hr : Reached body callEffect t depth) :
      Shadows body plan probe callEffect (entry plan probe body t) depth
  | call {t depth : Nat} {id : HitId} (hr : Reached body callEffect t depth)
      (hs : plan.sequence? t = some id) :
      Shadows body plan probe callEffect (entry plan probe body t + 1) (depth + 1)
  | original {t depth : Nat} (hr : Reached body callEffect t depth) :
      Shadows body plan probe callEffect (home plan probe body t) depth
  | stub {index p t depth : Nat} {id : HitId} (hr : Reached body callEffect t depth)
      (hs : (plan.successors index)[p]? = some (t, id)) :
      Shadows body plan probe callEffect (stubEntry plan probe body index p) depth
  | stubCall {index p t depth : Nat} {id : HitId} (hr : Reached body callEffect t depth)
      (hs : (plan.successors index)[p]? = some (t, id)) :
      Shadows body plan probe callEffect (stubEntry plan probe body index p + 1) (depth + 1)
  | stubJump {index p t depth : Nat} {id : HitId} (hr : Reached body callEffect t depth)
      (hs : (plan.successors index)[p]? = some (t, id)) :
      Shadows body plan probe callEffect (stubEntry plan probe body index p + 2) depth

/-- What the next instruction of a walk through the new body is. -/
inductive Turn (body : LabelledBody) (plan : ProbePlan) (probe : Token)
    (callEffect : Token → Option StackEffect) (q depth : Nat) (j : Instruction Nat)
    (e : StackEffect) : Prop
  /-- An id is loaded. -/
  | load {t offset : Nat} {x : Int32} (hr : Reached body callEffect t depth)
      (ht : t < body.instructions.length) (hj : j = ⟨offset, .ldcI4, .int32 x⟩)
      (he : e = ⟨0, 1⟩) (hnext : Shadows body plan probe callEffect (q + 1) (depth + 1))
  /-- The probe takes the id. -/
  | call {t before offset : Nat} (hr : Reached body callEffect t before)
      (ht : t < body.instructions.length) (hdepth : depth = before + 1)
      (hj : j = ⟨offset, .call, .token probe⟩) (he : e = ⟨1, 0⟩)
      (hnext : Shadows body plan probe callEffect (q + 1) before)
  /-- An instruction of the old body. -/
  | original {t : Nat} {i : Instruction Nat} (hr : Reached body callEffect t depth)
      (hp : Passes body callEffect t depth i e) (hq : q = home plan probe body t)
      (hj : j = i.mapTargets (newTarget plan probe body t))
  /-- The jump at the end of a stub. -/
  | jump {t offset : Nat} (hr : Reached body callEffect t depth)
      (ht : t < body.instructions.length)
      (hj : j = ⟨offset, .brS, .target (entry plan probe body t)⟩) (he : e = ⟨0, 0⟩)

section Probed

variable (h : body.Closed) (hcovers : plan.Covers body)
  (hprobe : callEffect probe = some ProbeReference.effect)

/-- The end of the body stays the end. -/
theorem lt_of_entry_lt {t : Nat} (ht : t ≤ body.instructions.length)
    (hlt : entry plan probe body t < (body.insertProbes plan probe).instructions.length) :
    t < body.instructions.length := by
  rcases Nat.lt_or_eq_of_le ht with ht | rfl
  · exact ht
  · rw [length_insertProbes] at hlt
    exact absurd hlt (Nat.lt_irrefl _)

/-- The instruction itself does in the old body what it does in its block. -/
theorem passes_of_home {t depth : Nat} {i j : Instruction Nat} {e : StackEffect}
    (hi : body.instructions[t]? = some i)
    (hp : Passes (body.insertProbes plan probe) callEffect (home plan probe body t) depth j e) :
    Passes body callEffect t depth i e ∧ j = i.mapTargets (newTarget plan probe body t) := by
  have hj := insertProbes_at_home plan probe hi
  rw [hp.instruction] at hj
  obtain rfl := Option.some.inj hj
  refine ⟨⟨hi, ?_, hp.enough⟩, rfl⟩
  rw [← effect?_mapTargets]
  exact hp.effect

include h in
theorem turn_original {t depth : Nat} {j : Instruction Nat} {e : StackEffect}
    (hr : Reached body callEffect t depth)
    (hp : Passes (body.insertProbes plan probe) callEffect (home plan probe body t) depth j e) :
    Turn body plan probe callEffect (home plan probe body t) depth j e := by
  have hlt : home plan probe body t < (body.insertProbes plan probe).instructions.length :=
    (List.getElem?_eq_some_iff.mp hp.instruction).1
  have ht := lt_of_entry_lt (h.reached_le hr) (Nat.lt_of_le_of_lt (Nat.le_add_right _ _) hlt)
  obtain ⟨hpi, hj⟩ := passes_of_home (List.getElem?_eq_getElem ht) hp
  exact .original hr hpi rfl hj

include hcovers in
/-- The ways out of an original instruction lead where those in the old body lead, or to the
stubs before these places. -/
theorem shadows_of_original {t depth next : Nat} {i : Instruction Nat} {e : StackEffect}
    (hr : Reached body callEffect t depth) (hp : Passes body callEffect t depth i e)
    (hn : Leads (body.insertProbes plan probe) (home plan probe body t)
      (i.mapTargets (newTarget plan probe body t)) next) :
    Shadows body plan probe callEffect next (e.onward i depth) := by
  have hi := hp.instruction
  rcases hn with hmem | ⟨hfalls, hlt, rfl⟩
  · -- a branch: to the block of its target, or to a stub if it is a decision
    rw [Instruction.mapTargets, Operand.targets_mapTargets] at hmem
    obtain ⟨u, hu, rfl⟩ := List.mem_map.mp hmem
    have hreached : Reached body callEffect u (e.onward i depth) := .step hr hp (Or.inl hu)
    rcases hcovers.successors_cases hi with hnil | ⟨-, -, hsuccessor⟩
    · rw [newTarget_of_successors_eq_nil hnil]
      exact .front hreached
    · obtain ⟨p, id, hs, -, heq⟩ :=
        newTarget_of_mem probe body ((hsuccessor u).mpr (Or.inr hu))
      rw [heq]
      exact .stub hreached hs
  · -- on to what follows: the next block, or the stub of the way that falls through
    rcases hcovers.successors_cases hi with hnil | ⟨hnext, ⟨id, hs⟩, -⟩
    · have hentry : home plan probe body t + 1 = entry plan probe body (t + 1) := by
        rw [entry_succ_eq_home plan probe hi, hnil]
        rfl
      rw [hentry] at hlt ⊢
      have ht := lt_of_entry_lt (List.getElem?_eq_some_iff.mp hi).1 hlt
      exact .front (.step hr hp (Or.inr ⟨hfalls, ht, rfl⟩))
    · exact .stub (.step hr hp (Or.inr ⟨hfalls, hnext, rfl⟩)) hs

include h hcovers hprobe

/-- A walk that shadows one through the old body meets what was inserted, or the instruction
that the other walk is at. -/
theorem Shadows.turn {q depth : Nat} {j : Instruction Nat} {e : StackEffect}
    (hq : Shadows body plan probe callEffect q depth)
    (hp : Passes (body.insertProbes plan probe) callEffect q depth j e) :
    Turn body plan probe callEffect q depth j e := by
  have hlt := (List.getElem?_eq_some_iff.mp hp.instruction).1
  cases hq with
  | @front t _ hr =>
    have ht := lt_of_entry_lt (h.reached_le hr) hlt
    cases hs : plan.sequence? t with
    | none =>
      -- without a probe, the block begins with the instruction itself
      rw [← home_eq_entry hs] at hp ⊢
      exact turn_original h hr hp
    | some id =>
      obtain ⟨rfl, rfl⟩ := hp.unique
        (insertProbes_at_entry plan probe (List.getElem?_eq_getElem ht) hs).1 rfl
      exact .load hr ht rfl rfl (.call hr hs)
  | @call t d id hr hs =>
    have ht : t < body.instructions.length :=
      hcovers.sequences _ (ProbePlan.mem_of_sequence? hs)
    obtain ⟨rfl, rfl⟩ := hp.unique
      (insertProbes_at_entry plan probe (List.getElem?_eq_getElem ht) hs).2 hprobe
    have hhome : entry plan probe body t + 1 + 1 = home plan probe body t :=
      (home_eq_entry_add hs).symm
    exact .call hr ht rfl rfl rfl (hhome ▸ .original hr)
  | original hr => exact turn_original h hr hp
  | stub hr hs =>
    obtain ⟨i, hi⟩ := hcovers.getElem?_of_successors hs
    obtain ⟨rfl, rfl⟩ := hp.unique (insertProbes_at_stub plan probe hi hs).1 rfl
    exact .load hr (successor_lt h hcovers hi hs) rfl rfl (.stubCall hr hs)
  | stubCall hr hs =>
    obtain ⟨i, hi⟩ := hcovers.getElem?_of_successors hs
    obtain ⟨rfl, rfl⟩ := hp.unique (insertProbes_at_stub plan probe hi hs).2.1 hprobe
    exact .call hr (successor_lt h hcovers hi hs) rfl rfl rfl (.stubJump hr hs)
  | stubJump hr hs =>
    obtain ⟨i, hi⟩ := hcovers.getElem?_of_successors hs
    obtain ⟨rfl, rfl⟩ := hp.unique (insertProbes_at_stub plan probe hi hs).2.2 rfl
    exact .jump hr (successor_lt h hcovers hi hs) (by rw [hcovers.stubTarget_eq hi hs]) rfl

protected theorem Shadows.step {q depth next : Nat} {j : Instruction Nat} {e : StackEffect}
    (hq : Shadows body plan probe callEffect q depth)
    (hp : Passes (body.insertProbes plan probe) callEffect q depth j e)
    (hn : Leads (body.insertProbes plan probe) q j next) :
    Shadows body plan probe callEffect next (e.onward j depth) := by
  cases hq.turn h hcovers hprobe hp with
  | load _ _ hj he hnext =>
    subst hj he
    rcases hn with hmem | ⟨-, -, rfl⟩
    · cases hmem
    · exact hnext
  | call _ _ hdepth hj he hnext =>
    subst hj he hdepth
    rcases hn with hmem | ⟨-, -, rfl⟩
    · cases hmem
    · exact hnext
  | @original t i hr hpi hq hj =>
    subst hj hq
    exact shadows_of_original (i := i) hcovers hr hpi hn
  | jump hr _ hj he =>
    subst hj he
    rcases hn with hmem | ⟨hfalls, -, -⟩
    · obtain rfl := List.mem_singleton.mp hmem
      exact .front hr
    · cases hfalls

omit h hcovers hprobe in
theorem starts_insertProbes {q depth : Nat} (hs : Starts (body.insertProbes plan probe) q depth) :
    ∃ t, q = entry plan probe body t ∧ Starts body t depth := by
  have hclause : ∀ {c : Clause Nat}, c ∈ (body.insertProbes plan probe).clauses →
      ∃ d ∈ body.clauses, d.map (entry plan probe body) = c := by
    intro c hc
    rw [clauses_insertProbes] at hc
    exact List.mem_map.mp hc
  cases hs with
  | entry => exact ⟨0, entry_zero.symm, .entry⟩
  | handler hc hk =>
    obtain ⟨d, hd, rfl⟩ := hclause hc
    refine ⟨d.handlerStart, rfl, .handler hd ?_⟩
    cases hkind : d.kind <;> simp [Clause.map, hkind] at hk ⊢
  | filter hc hk =>
    obtain ⟨d, hd, rfl⟩ := hclause hc
    cases hkind : d.kind with
    | filter start =>
      rw [Clause.map, hkind] at hk
      cases hk
      exact ⟨start, rfl, .filter hd hkind⟩
    | _ => simp [Clause.map, hkind] at hk
  | cleanup hc hk =>
    obtain ⟨d, hd, rfl⟩ := hclause hc
    refine ⟨d.handlerStart, rfl, .cleanup hd ?_⟩
    cases hkind : d.kind <;> simp [Clause.map, hkind] at hk ⊢

/-- Every walk through the new body shadows one through the old body. -/
theorem shadows_of_reached {q depth : Nat}
    (hr : Reached (body.insertProbes plan probe) callEffect q depth) :
    Shadows body plan probe callEffect q depth := by
  induction hr with
  | start hs =>
    obtain ⟨t, rfl, ht⟩ := starts_insertProbes hs
    exact .front (.start ht)
  | step _ hp hn ih => exact ih.step h hcovers hprobe hp hn

omit hprobe in
theorem Shadows.depth_le {bound q depth : Nat} (hb : Bounds body callEffect bound)
    (hq : Shadows body plan probe callEffect q depth)
    (hlt : q < (body.insertProbes plan probe).instructions.length) : depth ≤ bound + 1 := by
  have hbefore : ∀ {t d}, Reached body callEffect t d → t < body.instructions.length →
      d ≤ bound := fun hr ht => hb _ (.before hr ht)
  cases hq with
  | front hr => exact Nat.le_succ_of_le (hbefore hr (lt_of_entry_lt (h.reached_le hr) hlt))
  | original hr =>
    have ht := lt_of_entry_lt (h.reached_le hr) (Nat.lt_of_le_of_lt (Nat.le_add_right _ _) hlt)
    exact Nat.le_succ_of_le (hbefore hr ht)
  | call hr hs =>
    have ht := hcovers.sequences _ (ProbePlan.mem_of_sequence? hs)
    exact Nat.succ_le_succ (hbefore hr ht)
  | stubCall hr hs =>
    obtain ⟨i, hi⟩ := hcovers.getElem?_of_successors hs
    exact Nat.succ_le_succ (hbefore hr (successor_lt h hcovers hi hs))
  | stub hr hs | stubJump hr hs =>
    obtain ⟨i, hi⟩ := hcovers.getElem?_of_successors hs
    exact Nat.le_succ_of_le (hbefore hr (successor_lt h hcovers hi hs))

/-- One slot more than before is enough for the probes. -/
theorem bounds_insertProbes {bound : Nat} (hb : Bounds body callEffect bound) :
    Bounds (body.insertProbes plan probe) callEffect (bound + 1) := by
  intro n hn
  cases hn with
  | before hr hlt => exact (shadows_of_reached h hcovers hprobe hr).depth_le h hcovers hb hlt
  | after hr hp =>
    cases (shadows_of_reached h hcovers hprobe hr).turn h hcovers hprobe hp with
    | load hr' ht _ he _ =>
      subst he
      exact Nat.succ_le_succ (hb _ (.before hr' ht))
    | call hr' ht hdepth _ he _ =>
      subst he hdepth
      exact Nat.le_succ_of_le (hb _ (.before hr' ht))
    | original hr' hpi _ _ => exact Nat.le_succ_of_le (hb _ (.after hr' hpi))
    | jump hr' ht _ he =>
      subst he
      exact Nat.le_succ_of_le (hb _ (.before hr' ht))

end Probed

end LabelledBody

end CilCoverage
