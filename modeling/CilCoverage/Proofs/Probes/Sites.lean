/-
  Where the probe is called in a body with probes.

  A plan that names no index twice lists its calls of the probe (`sites`): one
  before each of its instructions, and one in each stub of its decisions. There
  are no others (`probeAt_iff`), so an id that the plan uses once is reported
  from one place (`probeAt_inj`).
-/
import CilCoverage.Proofs.Lowering
import CilCoverage.Proofs.Probes.Placement
import Mathlib.Data.List.Nodup

namespace CilCoverage

/-- An id is loaded at `k`, and the probe is called with it right after. -/
def ProbeAt (probe : Token) (is : List (Instruction Nat)) (k : Nat) (id : HitId) : Prop :=
  (∃ i x, is[k]? = some i ∧ i.opcode = .ldcI4 ∧ i.operand = .int32 x ∧ x.toUInt32 = id) ∧
    ∃ i, is[k + 1]? = some i ∧ i.isCallTo probe = true

/-! ## Plans -/

namespace ProbePlan

/-- No instruction has two probes, and no decision is listed twice. -/
structure Distinct (plan : ProbePlan) : Prop where
  sequences : (plan.sequences.map Prod.fst).Nodup
  decisions : (plan.decisions.map Prod.fst).Nodup

/-- The ids that a plan reports. -/
def ids (plan : ProbePlan) : List HitId :=
  plan.sequences.map Prod.snd ++ plan.decisions.flatMap fun d => d.2.map Prod.snd

theorem lookup_reverse_of_nodup {β : Type} {l : List (Nat × β)} (h : (l.map Prod.fst).Nodup)
    {k : Nat} {v : β} (hmem : (k, v) ∈ l) : l.reverse.lookup k = some v := by
  obtain ⟨l₁, l₂, hl⟩ := List.append_of_mem (List.mem_reverse.mpr hmem)
  rw [List.lookup_eq_some_iff]
  refine ⟨l₁, l₂, hl, ?_⟩
  intro p hp
  have hnodup : ((l.reverse).map Prod.fst).Nodup := by
    rw [List.map_reverse, List.nodup_reverse]
    exact h
  rw [hl, List.map_append, List.map_cons, List.nodup_append] at hnodup
  have hne := hnodup.2.2 p.1 (List.mem_map_of_mem hp) k List.mem_cons_self
  simpa [ne_comm] using hne

variable {plan : ProbePlan}

theorem Distinct.sequence?_eq (h : plan.Distinct) {s : Nat × HitId} (hs : s ∈ plan.sequences) :
    plan.sequence? s.1 = some s.2 :=
  lookup_reverse_of_nodup h.sequences hs

theorem Distinct.successors_eq (h : plan.Distinct) {d : Nat × List (Nat × HitId)}
    (hd : d ∈ plan.decisions) : plan.successors d.1 = d.2 := by
  rw [successors, lookup_reverse_of_nodup h.decisions hd, Option.getD_some]

end ProbePlan

namespace LabelledBody

variable {plan : ProbePlan} {probe : Token} {body : LabelledBody}

/-! ## The instructions of a body with probes -/

/-- What stands at an index of a body with probes. -/
inductive Placed (plan : ProbePlan) (probe : Token) (body : LabelledBody) :
    Nat → Instruction Nat → Prop
  | load {index : Nat} {i : Instruction Nat} {id : HitId}
      (hi : body.instructions[index]? = some i) (hs : plan.sequence? index = some id) :
      Placed plan probe body (entry plan probe body index)
        ⟨i.offset, .ldcI4, .int32 id.toInt32⟩
  | call {index : Nat} {i : Instruction Nat} {id : HitId}
      (hi : body.instructions[index]? = some i) (hs : plan.sequence? index = some id) :
      Placed plan probe body (entry plan probe body index + 1) ⟨i.offset, .call, .token probe⟩
  | original {index : Nat} {i : Instruction Nat} (hi : body.instructions[index]? = some i) :
      Placed plan probe body (home plan probe body index)
        (i.mapTargets (newTarget plan probe body index))
  | stubLoad {index p t : Nat} {i : Instruction Nat} {id : HitId}
      (hi : body.instructions[index]? = some i)
      (hs : (plan.successors index)[p]? = some (t, id)) :
      Placed plan probe body (stubEntry plan probe body index p)
        ⟨i.offset, .ldcI4, .int32 id.toInt32⟩
  | stubCall {index p t : Nat} {i : Instruction Nat} {id : HitId}
      (hi : body.instructions[index]? = some i)
      (hs : (plan.successors index)[p]? = some (t, id)) :
      Placed plan probe body (stubEntry plan probe body index p + 1)
        ⟨i.offset, .call, .token probe⟩
  | stubJump {index p t : Nat} {i : Instruction Nat} {id : HitId}
      (hi : body.instructions[index]? = some i)
      (hs : (plan.successors index)[p]? = some (t, id)) :
      Placed plan probe body (stubEntry plan probe body index p + 2)
        ⟨i.offset, .brS, .target (entry plan probe body (stubTarget index p t))⟩

theorem Placed.getElem? {q : Nat} {j : Instruction Nat} (h : Placed plan probe body q j) :
    (body.insertProbes plan probe).instructions[q]? = some j := by
  cases h with
  | load hi hs => exact (insertProbes_at_entry _ _ hi hs).1
  | call hi hs => exact (insertProbes_at_entry _ _ hi hs).2
  | original hi => exact insertProbes_at_home _ _ hi
  | stubLoad hi hs => exact (insertProbes_at_stub _ _ hi hs).1
  | stubCall hi hs => exact (insertProbes_at_stub _ _ hi hs).2.1
  | stubJump hi hs => exact (insertProbes_at_stub _ _ hi hs).2.2

theorem placed_iff {q : Nat} {j : Instruction Nat} :
    (body.insertProbes plan probe).instructions[q]? = some j ↔ Placed plan probe body q j := by
  refine ⟨?_, Placed.getElem?⟩
  intro h
  obtain ⟨hq, -⟩ := List.getElem?_eq_some_iff.mp h
  -- what stands at a position is known once the position is
  have hplaced : ∃ j', Placed plan probe body q j' := by
    obtain ⟨index, i, hi, ⟨id, r, hs, hr, rfl⟩ | rfl | ⟨p, ⟨t, id⟩, r, hs, hr, rfl⟩⟩ :=
      position_cases hq
    · match r, hr with
      | 0, _ => exact ⟨_, .load hi hs⟩
      | 1, _ => exact ⟨_, .call hi hs⟩
    · exact ⟨_, .original hi⟩
    · match r, hr with
      | 0, _ => exact ⟨_, .stubLoad hi hs⟩
      | 1, _ => exact ⟨_, .stubCall hi hs⟩
      | 2, _ => exact ⟨_, .stubJump hi hs⟩
  obtain ⟨j', hj'⟩ := hplaced
  rw [Placed.getElem? hj'] at h
  exact Option.some.inj h ▸ hj'

theorem lt_of_placed {q : Nat} {j : Instruction Nat} (h : Placed plan probe body q j) :
    q < (body.insertProbes plan probe).instructions.length :=
  (List.getElem?_eq_some_iff.mp h.getElem?).1

/-! ## Bodies with probes are well formed -/

theorem entry_lt_length {index : Nat} (h : index < body.instructions.length) :
    entry plan probe body index < (body.insertProbes plan probe).instructions.length := by
  rw [length_insertProbes]
  exact entry_lt plan probe h (Nat.le_refl _)

/-- A target of the original leads into the new body. -/
theorem newTarget_lt (h : body.Closed) (hcovers : plan.Covers body) {index t : Nat}
    {i : Instruction Nat} (hi : body.instructions[index]? = some i)
    (ht : t ∈ i.operand.targets) :
    newTarget plan probe body index t < (body.insertProbes plan probe).instructions.length := by
  rcases hcovers.successors_cases hi with hnil | ⟨-, -, hmem⟩
  · rw [newTarget_of_successors_eq_nil hnil]
    exact entry_lt_length (h.targets i (List.mem_of_getElem? hi) t ht)
  · obtain ⟨p, id, hs, -, heq⟩ := newTarget_of_mem _ _ ((hmem t).mpr (Or.inr ht))
    rw [heq]
    exact lt_of_placed (.stubLoad hi hs)

theorem successor_lt (h : body.Closed) (hcovers : plan.Covers body) {index p t : Nat}
    {i : Instruction Nat} {id : HitId} (hi : body.instructions[index]? = some i)
    (hs : (plan.successors index)[p]? = some (t, id)) : t < body.instructions.length := by
  rcases hcovers.successors_cases hi with hnil | ⟨hlt, -, hmem⟩
  · rw [hnil] at hs
    simp at hs
  · have ht : t ∈ (plan.successors index).map Prod.fst :=
      List.mem_map_of_mem (f := Prod.fst) (List.mem_of_getElem? hs)
    rcases (hmem t).mp ht with rfl | ht
    · exact hlt
    · exact h.targets i (List.mem_of_getElem? hi) t ht

theorem insertProbes_wellFormed (h : body.WellFormed) (hfits : plan.Fits body) :
    (body.insertProbes plan probe).WellFormed := by
  refine ⟨?_, ?_, ?_⟩
  · intro j hj
    obtain ⟨q, hq⟩ := List.mem_iff_getElem?.mp hj
    cases placed_iff.mp hq with
    | original hi =>
      rw [Instruction.fits_mapTargets]
      exact h.fits _ (List.mem_of_getElem? hi)
    | _ => rfl
  · intro j hj u hu
    obtain ⟨q, hq⟩ := List.mem_iff_getElem?.mp hj
    cases placed_iff.mp hq with
    | original hi =>
      rw [Instruction.mapTargets, Operand.targets_mapTargets] at hu
      obtain ⟨t, ht, rfl⟩ := List.mem_map.mp hu
      exact newTarget_lt h.closed hfits.covers hi ht
    | stubJump hi hs =>
      obtain rfl := List.mem_singleton.mp hu
      rw [hfits.covers.stubTarget_eq hi hs]
      exact entry_lt_length (successor_lt h.closed hfits.covers hi hs)
    | _ => cases hu
  · intro c hc p hp
    rw [clauses_insertProbes] at hc
    obtain ⟨d, hd, rfl⟩ := List.mem_map.mp hc
    rw [Clause.positions_map] at hp
    obtain ⟨u, hu, rfl⟩ := List.mem_map.mp hp
    rw [length_insertProbes]
    exact entry_mono plan probe (h.clauses d hd u hu) (Nat.le_refl _)

/-! ## Calls of the probe -/

/-- Where a plan has the probe called, and with which id. -/
def sites (plan : ProbePlan) (probe : Token) (body : LabelledBody) : List (Nat × HitId) :=
  (plan.sequences.map fun s => (entry plan probe body s.1, s.2)) ++
    plan.decisions.flatMap fun d =>
      d.2.mapIdx fun p s => (stubEntry plan probe body d.1 p, s.2)

theorem map_snd_sites (plan : ProbePlan) (probe : Token) (body : LabelledBody) :
    (sites plan probe body).map Prod.snd = plan.ids := by
  have hdecision : ∀ d : Nat × List (Nat × HitId),
      (d.2.mapIdx fun p s => (stubEntry plan probe body d.1 p, s.2)).map Prod.snd =
        d.2.map Prod.snd := by
    intro d
    apply List.ext_getElem (by simp)
    intro k h₁ h₂
    simp
  rw [sites, List.map_append, List.map_map, List.map_flatMap, ProbePlan.ids]
  simp only [hdecision]
  rfl

theorem mem_sites (h : plan.Distinct) {k : Nat} {id : HitId} :
    (k, id) ∈ sites plan probe body ↔
      (∃ index, plan.sequence? index = some id ∧ k = entry plan probe body index) ∨
        ∃ index p t, (plan.successors index)[p]? = some (t, id) ∧
          k = stubEntry plan probe body index p := by
  rw [sites, List.mem_append, List.mem_map, List.mem_flatMap]
  constructor
  · rintro (⟨s, hs, heq⟩ | ⟨d, hd, hk⟩)
    · cases heq
      exact Or.inl ⟨s.1, h.sequence?_eq hs, rfl⟩
    · obtain ⟨p, hp, heq⟩ := List.mem_mapIdx.mp hk
      cases heq
      refine Or.inr ⟨d.1, p, d.2[p].1, ?_, rfl⟩
      rw [h.successors_eq hd, List.getElem?_eq_getElem hp]
  · rintro (⟨index, hs, rfl⟩ | ⟨index, p, t, hs, rfl⟩)
    · exact Or.inl ⟨_, ProbePlan.mem_of_sequence? hs, rfl⟩
    · have hne : plan.successors index ≠ [] := by
        intro hnil
        rw [hnil] at hs
        simp at hs
      obtain ⟨hp, heq⟩ := List.getElem?_eq_some_iff.mp hs
      refine Or.inr ⟨_, ProbePlan.mem_of_successors hne, List.mem_mapIdx.mpr ⟨p, hp, ?_⟩⟩
      rw [heq]

/-- The calls of the probe are those of the plan. -/
theorem call_cases (hno : NoCallTo probe body) {q : Nat} {j : Instruction Nat}
    (hj : (body.insertProbes plan probe).instructions[q]? = some j)
    (hcall : j.isCallTo probe = true) :
    ∃ k, q = k + 1 ∧
      ((∃ index i id, body.instructions[index]? = some i ∧ plan.sequence? index = some id ∧
          k = entry plan probe body index) ∨
        ∃ index i p t id, body.instructions[index]? = some i ∧
          (plan.successors index)[p]? = some (t, id) ∧ k = stubEntry plan probe body index p) := by
  cases placed_iff.mp hj with
  | call hi hs => exact ⟨_, rfl, Or.inl ⟨_, _, _, hi, hs, rfl⟩⟩
  | stubCall hi hs => exact ⟨_, rfl, Or.inr ⟨_, _, _, _, _, hi, hs, rfl⟩⟩
  | original hi =>
    rw [Instruction.isCallTo_mapTargets, hno _ (List.mem_of_getElem? hi)] at hcall
    cases hcall
  | _ => cases hcall

theorem probeAt_of_getElem? {is : List (Instruction Nat)} {k o : Nat} {id : HitId}
    (h0 : is[k]? = some ⟨o, .ldcI4, .int32 id.toInt32⟩)
    (h1 : is[k + 1]? = some ⟨o, .call, .token probe⟩) : ProbeAt probe is k id :=
  ⟨⟨_, _, h0, rfl, rfl, UInt32.toUInt32_toInt32 id⟩, _, h1, by simp [Instruction.isCallTo]⟩

theorem probeAt_iff (hfits : plan.Fits body) (hd : plan.Distinct) (hno : NoCallTo probe body)
    {k : Nat} {id : HitId} :
    ProbeAt probe (body.insertProbes plan probe).instructions k id ↔
      (k, id) ∈ sites plan probe body := by
  rw [mem_sites hd]
  constructor
  · rintro ⟨⟨i, x, hload, -, hx, rfl⟩, j, hj, hcall⟩
    obtain ⟨k', hk, ⟨index, i', id, hi, hs, rfl⟩ | ⟨index, i', p, t, id, hi, hs, rfl⟩⟩ :=
      call_cases hno hj hcall
    · obtain rfl : k = entry plan probe body index := by omega
      rw [(insertProbes_at_entry _ _ hi hs).1] at hload
      cases hload
      cases hx
      exact Or.inl ⟨index, hs, rfl⟩
    · obtain rfl : k = stubEntry plan probe body index p := by omega
      rw [(insertProbes_at_stub _ _ hi hs).1] at hload
      cases hload
      cases hx
      exact Or.inr ⟨index, p, t, hs, rfl⟩
  · rintro (⟨index, hs, rfl⟩ | ⟨index, p, t, hs, rfl⟩)
    · have hlt := hfits.sequences _ (ProbePlan.mem_of_sequence? hs)
      have hi := List.getElem?_eq_getElem hlt
      exact probeAt_of_getElem? (Placed.load hi hs).getElem? (Placed.call hi hs).getElem?
    · obtain ⟨i, hi⟩ := hfits.covers.getElem?_of_successors hs
      exact probeAt_of_getElem? (Placed.stubLoad hi hs).getElem?
        (Placed.stubCall hi hs).getElem?

/-- The ids that are reported are those of the plan. -/
theorem exists_probeAt_iff (hfits : plan.Fits body) (hd : plan.Distinct)
    (hno : NoCallTo probe body) {id : HitId} :
    (∃ k, ProbeAt probe (body.insertProbes plan probe).instructions k id) ↔ id ∈ plan.ids := by
  rw [← map_snd_sites plan probe body, List.mem_map]
  constructor
  · rintro ⟨k, hk⟩
    exact ⟨(k, id), (probeAt_iff hfits hd hno).mp hk, rfl⟩
  · rintro ⟨⟨k, id'⟩, hk, rfl⟩
    exact ⟨k, (probeAt_iff hfits hd hno).mpr hk⟩

/-- An id that a plan uses once is reported from one place. -/
theorem probeAt_inj (hfits : plan.Fits body) (hd : plan.Distinct) (hno : NoCallTo probe body)
    (hids : plan.ids.Nodup) {k l : Nat} {id : HitId}
    (hk : ProbeAt probe (body.insertProbes plan probe).instructions k id)
    (hl : ProbeAt probe (body.insertProbes plan probe).instructions l id) : k = l := by
  rw [← map_snd_sites plan probe body] at hids
  have heq := List.inj_on_of_nodup_map hids ((probeAt_iff hfits hd hno).mp hk)
    ((probeAt_iff hfits hd hno).mp hl) rfl
  exact congrArg Prod.fst heq

end LabelledBody

end CilCoverage
