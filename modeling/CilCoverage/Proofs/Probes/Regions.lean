/-
  Protected regions of a body with probes.

  What is emitted for an instruction stands in its block (`EmittedFor.within`),
  blocks follow each other in the order of the instructions, and regions begin and
  end where blocks do. So an emitted instruction lies in a region exactly if the
  instruction that it was emitted for lies in the original region
  (`insertProbes_regions`), whatever the plan is.
-/
import CilCoverage.Proofs.Probes.Sites

namespace CilCoverage

namespace Clause

/-- A position in the protected region. -/
def InTry (c : Clause Nat) (k : Nat) : Prop := c.tryStart ≤ k ∧ k < c.tryEnd

/-- A position in the handler. -/
def InHandler (c : Clause Nat) (k : Nat) : Prop := c.handlerStart ≤ k ∧ k < c.handlerEnd

/-- A position in the filter block, which lasts up to the handler. -/
def InFilter (c : Clause Nat) (k : Nat) : Prop :=
  ∃ start, c.kind = .filter start ∧ start ≤ k ∧ k < c.handlerStart

end Clause

namespace LabelledBody

variable {plan : ProbePlan} {probe : Token} {body : LabelledBody}

/-! ## What is emitted for an instruction -/

/-- An index of the new body where something stands that was emitted for an instruction: its
probe, the instruction itself, or a stub with its jump. -/
inductive EmittedFor (plan : ProbePlan) (probe : Token) (body : LabelledBody) (index : Nat) :
    Nat → Prop
  | probe {r : Nat} {id : HitId} (hi : index < body.instructions.length)
      (hs : plan.sequence? index = some id) (hr : r < 2) :
      EmittedFor plan probe body index (entry plan probe body index + r)
  | itself (hi : index < body.instructions.length) :
      EmittedFor plan probe body index (home plan probe body index)
  | stub {p r : Nat} {s : Nat × HitId} (hi : index < body.instructions.length)
      (hs : (plan.successors index)[p]? = some s) (hr : r < stubLength) :
      EmittedFor plan probe body index (stubEntry plan probe body index p + r)

theorem EmittedFor.within {index q : Nat} (h : EmittedFor plan probe body index q) :
    index < body.instructions.length ∧ entry plan probe body index ≤ q ∧
      q < entry plan probe body (index + 1) := by
  have hnext : index < body.instructions.length → entry plan probe body (index + 1) =
      home plan probe body index + 1 + 3 * (plan.successors index).length := fun hi =>
    entry_succ_eq_home plan probe (List.getElem?_eq_getElem hi)
  cases h with
  | probe hi hs hr =>
    have hlead : lead plan index = 2 := by simp [lead, hs]
    rw [hnext hi, home, hlead]
    omega
  | itself hi =>
    rw [hnext hi, home]
    omega
  | stub hi hs hr =>
    have hp := (List.getElem?_eq_some_iff.mp hs).1
    rw [hnext hi, stubEntry, home]
    unfold stubLength at hr
    omega

/-- Of two blocks, the one that begins no later than a position in the other is no later. -/
theorem entry_le_iff {index q k : Nat} (hi : index < body.instructions.length)
    (hq : entry plan probe body index ≤ q ∧ q < entry plan probe body (index + 1))
    (hk : k ≤ body.instructions.length) : entry plan probe body k ≤ q ↔ k ≤ index := by
  constructor
  · intro hle
    by_contra hgt
    have hnext : entry plan probe body (index + 1) ≤ entry plan probe body k :=
      entry_mono plan probe (Nat.lt_of_not_le hgt) hk
    omega
  · intro hle
    exact Nat.le_trans (entry_mono plan probe hle (Nat.le_of_lt hi)) hq.1

theorem EmittedFor.unique {a b q : Nat} (ha : EmittedFor plan probe body a q)
    (hb : EmittedFor plan probe body b q) : a = b := by
  obtain ⟨hia, hqa⟩ := ha.within
  obtain ⟨hib, hqb⟩ := hb.within
  have hle : a ≤ b := (entry_le_iff hib hqb (Nat.le_of_lt hia)).mp hqa.1
  have hge : b ≤ a := (entry_le_iff hia hqa (Nat.le_of_lt hib)).mp hqb.1
  exact Nat.le_antisymm hle hge

/-- Everything in the new body was emitted for an instruction, and has its offset. -/
theorem exists_emittedFor {q : Nat} {j : Instruction Nat}
    (hj : (body.insertProbes plan probe).instructions[q]? = some j) :
    ∃ index i, body.instructions[index]? = some i ∧ EmittedFor plan probe body index q ∧
      j.offset = i.offset := by
  have hlt : ∀ {index : Nat} {i : Instruction Nat}, body.instructions[index]? = some i →
      index < body.instructions.length := fun hi => (List.getElem?_eq_some_iff.mp hi).1
  cases placed_iff.mp hj with
  | load hi hs => exact ⟨_, _, hi, .probe (r := 0) (hlt hi) hs (by decide), rfl⟩
  | call hi hs => exact ⟨_, _, hi, .probe (r := 1) (hlt hi) hs (by decide), rfl⟩
  | original hi => exact ⟨_, _, hi, .itself (hlt hi), rfl⟩
  | stubLoad hi hs => exact ⟨_, _, hi, .stub (r := 0) (hlt hi) hs (by decide), rfl⟩
  | stubCall hi hs => exact ⟨_, _, hi, .stub (r := 1) (hlt hi) hs (by decide), rfl⟩
  | stubJump hi hs => exact ⟨_, _, hi, .stub (r := 2) (hlt hi) hs (by decide), rfl⟩

theorem EmittedFor.lt_length {index q : Nat} (h : EmittedFor plan probe body index q) :
    q < (body.insertProbes plan probe).instructions.length := by
  obtain ⟨hi, -, hq⟩ := h.within
  rw [length_insertProbes]
  exact Nat.lt_of_lt_of_le hq (entry_mono plan probe hi (Nat.le_refl _))

/-! ## Regions -/

/-- Each region of the clause `d` has what was emitted for the instructions in that region of the
clause `c`, and the clauses handle the same. -/
structure KeepsRegions (plan : ProbePlan) (probe : Token) (body : LabelledBody)
    (c d : Clause Nat) : Prop where
  /-- The kind is the same, with the same type of exceptions if there is one. -/
  kind : c.kind.Rel (fun _ _ => True) d.kind
  inTry : ∀ index q, EmittedFor plan probe body index q → (d.InTry q ↔ c.InTry index)
  inHandler : ∀ index q, EmittedFor plan probe body index q → (d.InHandler q ↔ c.InHandler index)
  inFilter : ∀ index q, EmittedFor plan probe body index q → (d.InFilter q ↔ c.InFilter index)
  tryOrder : c.tryStart ≤ c.tryEnd → d.tryStart ≤ d.tryEnd
  handlerOrder : c.handlerStart ≤ c.handlerEnd → d.handlerStart ≤ d.handlerEnd
  filterOrder : ∀ x, c.kind = .filter x → x ≤ c.handlerStart →
    ∃ y, d.kind = .filter y ∧ y ≤ d.handlerStart

/-- A range of the new body has what was emitted for the instructions of the original range. -/
theorem EmittedFor.between_iff {index q a b : Nat} (h : EmittedFor plan probe body index q)
    (ha : a ≤ body.instructions.length) (hb : b ≤ body.instructions.length) :
    (entry plan probe body a ≤ q ∧ q < entry plan probe body b) ↔ a ≤ index ∧ index < b := by
  obtain ⟨hi, hq⟩ := h.within
  have hstart := entry_le_iff hi hq ha
  have hstop := entry_le_iff hi hq hb
  rw [← Nat.not_le, ← Nat.not_le, hstart, hstop]

theorem keepsRegions_map (plan : ProbePlan) (probe : Token) {c : Clause Nat}
    (h : ∀ p ∈ c.positions, p ≤ body.instructions.length) :
    KeepsRegions plan probe body c (c.map (entry plan probe body)) := by
  have hmem : ∀ p ∈ [c.tryStart, c.tryEnd, c.handlerStart, c.handlerEnd],
      p ≤ body.instructions.length := fun p hp => h p (List.mem_append_right _ hp)
  have hts : c.tryStart ≤ body.instructions.length := hmem _ (by simp)
  have hte : c.tryEnd ≤ body.instructions.length := hmem _ (by simp)
  have hhs : c.handlerStart ≤ body.instructions.length := hmem _ (by simp)
  have hhe : c.handlerEnd ≤ body.instructions.length := hmem _ (by simp)
  have hfilter : ∀ x, c.kind = .filter x → x ≤ body.instructions.length := fun x hx =>
    h x (Clause.mem_positions_of_kind hx)
  refine ⟨c.kind_rel_map _, fun index q hq => hq.between_iff hts hte,
    fun index q hq => hq.between_iff hhs hhe, fun index q hq => ?_,
    fun hle => entry_mono plan probe hle hte, fun hle => entry_mono plan probe hle hhe,
    fun x hx hle => ⟨_, Clause.kind_map_eq_filter.mpr ⟨x, hx, rfl⟩, entry_mono plan probe hle hhs⟩⟩
  constructor
  · rintro ⟨y, hy, hbetween⟩
    obtain ⟨x, hx, rfl⟩ := Clause.kind_map_eq_filter.mp hy
    exact ⟨x, hx, (hq.between_iff (hfilter x hx) hhs).mp hbetween⟩
  · rintro ⟨x, hx, hbetween⟩
    exact ⟨_, Clause.kind_map_eq_filter.mpr ⟨x, hx, rfl⟩,
      (hq.between_iff (hfilter x hx) hhs).mpr hbetween⟩

/-- Whatever is planned, everything in the new body was emitted for one instruction and lies in
the regions of that instruction, and the clauses are the same but for their positions. -/
theorem insertProbes_regions {body : LabelledBody}
    (h : ∀ c ∈ body.clauses, ∀ p ∈ c.positions, p ≤ body.instructions.length)
    (plan : ProbePlan) (probe : Token) :
    let new := body.insertProbes plan probe
    (∀ q j, new.instructions[q]? = some j → ∃ index i, body.instructions[index]? = some i ∧
      j.offset = i.offset ∧ EmittedFor plan probe body index q ∧
      ∀ other, EmittedFor plan probe body other q → other = index) ∧
    (∀ index q, EmittedFor plan probe body index q → q < new.instructions.length) ∧
    List.Forall₂ (KeepsRegions plan probe body) body.clauses new.clauses := by
  intro new
  refine ⟨fun q j hj => ?_, fun index q hq => hq.lt_length, ?_⟩
  · obtain ⟨index, i, hi, hq, hoffset⟩ := exists_emittedFor hj
    exact ⟨index, i, hi, hoffset, hq, fun other hother => hother.unique hq⟩
  · rw [clauses_insertProbes, List.forall₂_map_right_iff, List.forall₂_same]
    exact fun c hc => keepsRegions_map plan probe (h c hc)

/-- A protected region that ends with a decision, right before the filter of its handler, within
one that ends with the body. -/
def nestedRegions : LabelledBody where
  instructions :=
    [⟨0, .ldarg0, .none⟩, ⟨1, .brtrueS, .target 0⟩, ⟨3, .endfilter, .none⟩, ⟨5, .pop, .none⟩,
     ⟨6, .leaveS, .target 6⟩, ⟨8, .endfinally, .none⟩, ⟨9, .ret, .none⟩]
  clauses := [⟨.filter 2, 0, 2, 3, 5⟩, ⟨.finallyBlock, 0, 5, 5, 6⟩, ⟨.catchType ⟨1⟩, 0, 6, 6, 7⟩]

/-- A probe at each boundary, and the stubs of the decision. -/
def boundaryPlan : ProbePlan where
  sequences := [(0, 1), (2, 4), (3, 5), (5, 6), (6, 7)]
  decisions := [(1, [(2, 2), (0, 3)])]

theorem insertProbes_regions_nested :
    let new := nestedRegions.insertProbes boundaryPlan ⟨0x0a000001⟩
    (∀ c ∈ nestedRegions.clauses, ∀ p ∈ c.positions, p ≤ nestedRegions.instructions.length) ∧
    new.clauses = [⟨.filter 10, 0, 10, 13, 17⟩, ⟨.finallyBlock, 0, 17, 17, 20⟩,
      ⟨.catchType ⟨1⟩, 0, 20, 20, 23⟩] ∧
    List.Forall₂ (KeepsRegions boundaryPlan ⟨0x0a000001⟩ nestedRegions) nestedRegions.clauses
      new.clauses := by
  intro new
  have h : ∀ c ∈ nestedRegions.clauses, ∀ p ∈ c.positions,
      p ≤ nestedRegions.instructions.length := by decide
  exact ⟨h, by decide, (insertProbes_regions h boundaryPlan ⟨0x0a000001⟩).2.2⟩

end LabelledBody

end CilCoverage
