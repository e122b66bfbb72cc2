/-
  Probes are neutral to the stack.

  A walk through the old body can be taken in the new one, block by block: past
  the probe to the instruction (`reached_home`), and by a stub to the block that
  comes next (`reached_stub`). So whatever goes wrong in the old body goes wrong
  in the new one, and every depth of the old body occurs (`occurs_insertProbes`).

  The other way round, a position of the new body belongs to one instruction of
  the old body, the one that is run or will be next, and says how many slots the
  probe has taken (`Stands.unique`). Since every walk through the new body
  shadows one through the old body, walks that meet agree, and none goes wrong
  unless that one does (`sound_insertProbes_iff`).
-/
import CilCoverage.Proofs.Stack.Exactness
import CilCoverage.Proofs.Stack.Probed
import CilCoverage.Proofs.Probes.Regions

namespace CilCoverage

theorem StackEffect.onward_mapTargets (f : Nat → Nat) (e : StackEffect) (i : Instruction Nat)
    (depth : Nat) : e.onward (i.mapTargets f) depth = e.onward i depth := rfl

namespace StackDepth

variable {body : LabelledBody} {callEffect : Token → Option StackEffect}

/-- No walk goes wrong if every one can go on, and walks that meet agree. -/
theorem sound_of_passes
    (hpasses : ∀ {index depth}, Reached body callEffect index depth →
      ∃ i e, Passes body callEffect index depth i e)
    (hagree : ∀ {index depth depth'}, Reached body callEffect index depth →
      Reached body callEffect index depth' → depth = depth') : Sound body callEffect where
  inRange hr := by
    obtain ⟨i, e, hp⟩ := hpasses hr
    exact (List.getElem?_eq_some_iff.mp hp.instruction).1
  known hr hi := by
    obtain ⟨j, e, hp⟩ := hpasses hr
    obtain rfl := Option.some.inj (hi.symm.trans hp.instruction)
    rw [hp.effect]
    rfl
  enough hr hi he := by
    obtain ⟨j, e', hp⟩ := hpasses hr
    obtain ⟨-, rfl⟩ := hp.unique hi he
    exact hp.enough
  agree := hagree

/-- Control falls through to the instruction that follows. -/
theorem Reached.fall {q depth : Nat} {i : Instruction Nat} {e : StackEffect}
    (hr : Reached body callEffect q depth) (hp : Passes body callEffect q depth i e)
    (hfalls : i.opcode.fallsThrough = true) (hlt : q + 1 < body.instructions.length) :
    Reached body callEffect (q + 1) (e.onward i depth) :=
  .step hr hp (Or.inr ⟨hfalls, hlt, rfl⟩)

/-- An id is loaded, and the probe takes it: the depth is what it was. -/
theorem Reached.probeCall {q depth offset : Nat} {x : Int32} {probe : Token}
    (hprobe : callEffect probe = some ProbeReference.effect)
    (hload : body.instructions[q]? = some ⟨offset, .ldcI4, .int32 x⟩)
    (hcall : body.instructions[q + 1]? = some ⟨offset, .call, .token probe⟩)
    (hlt : q + 2 < body.instructions.length) (hr : Reached body callEffect q depth) :
    Reached body callEffect (q + 2) depth := by
  have hloaded : Reached body callEffect (q + 1) (depth + 1) :=
    hr.fall ⟨hload, rfl, Nat.zero_le _⟩ rfl (Nat.lt_of_succ_lt hlt)
  exact hloaded.fall ⟨hcall, hprobe, Nat.succ_le_succ (Nat.zero_le _)⟩ rfl hlt

end StackDepth

namespace LabelledBody

open StackDepth

variable {body : LabelledBody} {plan : ProbePlan} {probe : Token}
  {callEffect : Token → Option StackEffect}

/-! ## Walks through the old body in the new one -/

theorem starts_entry {t depth : Nat} (hs : Starts body t depth) :
    Starts (body.insertProbes plan probe) (entry plan probe body t) depth := by
  have hmem : ∀ {c : Clause Nat}, c ∈ body.clauses →
      c.map (entry plan probe body) ∈ (body.insertProbes plan probe).clauses := fun hc => by
    rw [clauses_insertProbes]
    exact List.mem_map_of_mem hc
  cases hs with
  | entry =>
    rw [entry_zero]
    exact .entry
  | handler hc hk =>
    refine .handler (hmem hc) ?_
    rcases hk with ⟨type, hk⟩ | ⟨start, hk⟩
    · exact Or.inl ⟨type, by rw [Clause.map, hk]⟩
    · exact Or.inr ⟨_, by rw [Clause.map, hk]⟩
  | filter hc hk => exact .filter (hmem hc) (by rw [Clause.map, hk])
  | cleanup hc hk =>
    refine .cleanup (hmem hc) ?_
    rcases hk with hk | hk
    · exact Or.inl (by rw [Clause.map, hk])
    · exact Or.inr (by rw [Clause.map, hk])

section Forward

variable (hcovers : plan.Covers body)
  (hprobe : callEffect probe = some ProbeReference.effect)

theorem home_lt_length (plan : ProbePlan) (probe : Token) {t : Nat}
    (ht : t < body.instructions.length) :
    home plan probe body t < (body.insertProbes plan probe).instructions.length :=
  lt_of_placed (.original (List.getElem?_eq_getElem ht))

include hprobe in
/-- From the start of a block to its instruction. -/
theorem reached_home {t depth : Nat} (ht : t < body.instructions.length)
    (hr : Reached (body.insertProbes plan probe) callEffect (entry plan probe body t) depth) :
    Reached (body.insertProbes plan probe) callEffect (home plan probe body t) depth := by
  have hi := List.getElem?_eq_getElem ht
  have hlt := home_lt_length plan probe ht
  cases hs : plan.sequence? t with
  | none => rwa [home_eq_entry hs]
  | some id =>
    rw [home_eq_entry_add hs] at hlt ⊢
    obtain ⟨hload, hcall⟩ := insertProbes_at_entry plan probe hi hs
    exact hr.probeCall hprobe hload hcall hlt

include hcovers hprobe in
/-- From the start of a stub to the block that it leads to. -/
theorem reached_stub {index p t depth : Nat} {id : HitId}
    (hs : (plan.successors index)[p]? = some (t, id))
    (hr : Reached (body.insertProbes plan probe) callEffect
      (stubEntry plan probe body index p) depth) :
    Reached (body.insertProbes plan probe) callEffect (entry plan probe body t) depth := by
  obtain ⟨i, hi⟩ := hcovers.getElem?_of_successors hs
  obtain ⟨hload, hcall, hjump⟩ := insertProbes_at_stub plan probe hi hs
  rw [hcovers.stubTarget_eq hi hs] at hjump
  have hend := hr.probeCall hprobe hload hcall (List.getElem?_eq_some_iff.mp hjump).1
  exact .step hend ⟨hjump, rfl, Nat.zero_le _⟩ (Or.inl (List.mem_singleton_self _))

/-- The instruction itself does in its block what it does in the old body. -/
theorem passes_home (plan : ProbePlan) (probe : Token) {t depth : Nat} {i : Instruction Nat}
    {e : StackEffect} (hp : Passes body callEffect t depth i e) :
    Passes (body.insertProbes plan probe) callEffect (home plan probe body t) depth
      (i.mapTargets (newTarget plan probe body t)) e :=
  ⟨insertProbes_at_home plan probe hp.instruction, by rw [effect?_mapTargets, hp.effect],
    hp.enough⟩

include hcovers hprobe

/-- Where a walk through the old body goes on, one through the new body does, maybe by a stub. -/
theorem reached_next {t depth next : Nat} {i : Instruction Nat} {e : StackEffect}
    (hr : Reached (body.insertProbes plan probe) callEffect (home plan probe body t) depth)
    (hp : Passes body callEffect t depth i e) (hn : Leads body t i next) :
    Reached (body.insertProbes plan probe) callEffect (entry plan probe body next)
      (e.onward i depth) := by
  have hi := hp.instruction
  have hhome := passes_home plan probe hp
  rw [← StackEffect.onward_mapTargets (newTarget plan probe body t)]
  rcases hn with hu | ⟨hfalls, hlt, rfl⟩
  · -- a branch, which is to the block of its target or to a stub
    have hto : Reached (body.insertProbes plan probe) callEffect
        (newTarget plan probe body t next)
        (e.onward (i.mapTargets (newTarget plan probe body t)) depth) := by
      refine .step hr hhome (Or.inl ?_)
      rw [Instruction.mapTargets, Operand.targets_mapTargets]
      exact List.mem_map_of_mem hu
    rcases hcovers.successors_cases hi with hnil | ⟨-, -, hsuccessor⟩
    · rwa [newTarget_of_successors_eq_nil hnil] at hto
    · obtain ⟨p, id, hs, -, heq⟩ :=
        newTarget_of_mem probe body ((hsuccessor next).mpr (Or.inr hu))
      rw [heq] at hto
      exact reached_stub hcovers hprobe hs hto
  · -- the instruction that follows, where the next block or the first stub begins
    have hsucc : entry plan probe body (t + 1) =
        home plan probe body t + 1 + 3 * (plan.successors t).length :=
      entry_succ_eq_home plan probe hi
    have hnew : entry plan probe body (t + 1) <
        (body.insertProbes plan probe).instructions.length := entry_lt_length hlt
    have hto : Reached (body.insertProbes plan probe) callEffect (home plan probe body t + 1)
        (e.onward (i.mapTargets (newTarget plan probe body t)) depth) :=
      hr.fall hhome hfalls (by omega)
    rcases hcovers.successors_cases hi with hnil | ⟨-, ⟨id, hs⟩, -⟩
    · rw [hsucc, hnil]
      exact hto
    · exact reached_stub hcovers hprobe hs hto

/-- A walk through the old body can be taken in the new one. -/
theorem reached_entry {t depth : Nat} (hr : Reached body callEffect t depth) :
    Reached (body.insertProbes plan probe) callEffect (entry plan probe body t) depth := by
  induction hr with
  | start hs => exact .start (starts_entry hs)
  | step _ hp hn ih =>
    have ht := (List.getElem?_eq_some_iff.mp hp.instruction).1
    exact reached_next hcovers hprobe (reached_home hprobe ht ih) hp hn

/-- Every depth of the old body is one of the new body. -/
theorem occurs_insertProbes {n : Nat} (hn : Occurs body callEffect n) :
    Occurs (body.insertProbes plan probe) callEffect n := by
  cases hn with
  | before hr ht =>
    exact .before (reached_home hprobe ht (reached_entry hcovers hprobe hr))
      (home_lt_length plan probe ht)
  | after hr hp =>
    have ht := (List.getElem?_eq_some_iff.mp hp.instruction).1
    exact .after (reached_home hprobe ht (reached_entry hcovers hprobe hr))
      (passes_home plan probe hp)

end Forward

/-! ## Positions of the new body -/

/-- A position of the new body belongs to the instruction of the old body that is run there or
next. Between loading an id and the call that takes it there is one more slot. -/
inductive Stands (plan : ProbePlan) (probe : Token) (body : LabelledBody) : Nat → Nat → Nat → Prop
  | lead {t r : Nat} {id : HitId} (ht : t < body.instructions.length)
      (hs : plan.sequence? t = some id) (hr : r < 2) :
      Stands plan probe body (entry plan probe body t + r) t r
  | itself {t : Nat} (ht : t < body.instructions.length) :
      Stands plan probe body (home plan probe body t) t 0
  | stub {index p r t : Nat} {id : HitId} (hindex : index < body.instructions.length)
      (hs : (plan.successors index)[p]? = some (t, id)) (hr : r < 3) :
      Stands plan probe body (stubEntry plan probe body index p + r) t (r % 2)

/-- The same, for a place in the block of the instruction at `index`. -/
def standing? (plan : ProbePlan) (index k : Nat) : Option (Nat × Nat) :=
  if k < lead plan index then some (index, k)
  else if k = lead plan index then some (index, 0)
  else
    let far := k - (lead plan index + 1)
    ((plan.successors index)[far / 3]?).map fun s => (s.1, far % 3 % 2)

namespace Stands

variable {q t more : Nat}

theorem standing?_eq (hq : Stands plan probe body q t more) :
    ∃ index k, EmittedFor plan probe body index q ∧ q = entry plan probe body index + k ∧
      standing? plan index k = some (t, more) := by
  cases hq with
  | lead ht hs hr =>
    have hlead : LabelledBody.lead plan t = 2 := by simp [LabelledBody.lead, hs]
    exact ⟨t, more, .probe ht hs hr, rfl, by rw [standing?, if_pos (hlead ▸ hr)]⟩
  | itself ht => exact ⟨t, LabelledBody.lead plan t, .itself ht, rfl, by simp [standing?]⟩
  | @stub index p r _ id hindex hs hr =>
    refine ⟨index, LabelledBody.lead plan index + 1 + (3 * p + r), .stub hindex hs hr, ?_, ?_⟩
    · rw [stubEntry, home]
      omega
    · have hfar : LabelledBody.lead plan index + 1 + (3 * p + r) -
          (LabelledBody.lead plan index + 1) = 3 * p + r := by omega
      have hp : (3 * p + r) / 3 = p := by omega
      have hr' : (3 * p + r) % 3 = r := by omega
      rw [standing?, if_neg (by omega), if_neg (by omega), hfar]
      simp only [hp, hr', hs, Option.map_some]

/-- A position belongs to one instruction, and the probe has taken a number of slots there. -/
theorem unique {t' more' : Nat} (hq : Stands plan probe body q t more)
    (hq' : Stands plan probe body q t' more') : t = t' ∧ more = more' := by
  obtain ⟨index, k, hin, hk, hstanding⟩ := hq.standing?_eq
  obtain ⟨index', k', hin', hk', hstanding'⟩ := hq'.standing?_eq
  obtain rfl := hin.unique hin'
  obtain rfl : k = k' := Nat.add_left_cancel (hk.symm.trans hk')
  exact Prod.mk.inj (Option.some.inj (hstanding.symm.trans hstanding'))

/-- Walks that shadow those through a body where none goes wrong stand at a position. -/
theorem of_shadows (hsound : Sound body callEffect) (hcovers : plan.Covers body) {depth : Nat}
    (hq : Shadows body plan probe callEffect q depth) :
    ∃ t before more, Stands plan probe body q t more ∧ Reached body callEffect t before ∧
      depth = before + more := by
  cases hq with
  | @front t _ hr =>
    have ht := hsound.inRange hr
    cases hs : plan.sequence? t with
    | none =>
      exact ⟨t, depth, 0, home_eq_entry hs ▸ .itself ht, hr, rfl⟩
    | some id => exact ⟨t, depth, 0, .lead (r := 0) ht hs (by decide), hr, rfl⟩
  | call hr hs => exact ⟨_, _, 1, .lead (r := 1) (hsound.inRange hr) hs (by decide), hr, rfl⟩
  | original hr => exact ⟨_, _, 0, .itself (hsound.inRange hr), hr, rfl⟩
  | stub hr hs =>
    obtain ⟨i, hi⟩ := hcovers.getElem?_of_successors hs
    exact ⟨_, _, 0, .stub (r := 0) (List.getElem?_eq_some_iff.mp hi).1 hs (by decide), hr, rfl⟩
  | stubCall hr hs =>
    obtain ⟨i, hi⟩ := hcovers.getElem?_of_successors hs
    exact ⟨_, _, 1, .stub (r := 1) (List.getElem?_eq_some_iff.mp hi).1 hs (by decide), hr, rfl⟩
  | stubJump hr hs =>
    obtain ⟨i, hi⟩ := hcovers.getElem?_of_successors hs
    exact ⟨_, _, 0, .stub (r := 2) (List.getElem?_eq_some_iff.mp hi).1 hs (by decide), hr, rfl⟩

/-- No walk goes wrong at a position unless one does at the instruction that it belongs to. -/
theorem exists_passes (hsound : Sound body callEffect)
    (hprobe : callEffect probe = some ProbeReference.effect)
    (hq : Stands plan probe body q t more) {before : Nat} (hr : Reached body callEffect t before) :
    ∃ j e, Passes (body.insertProbes plan probe) callEffect q (before + more) j e := by
  have hpop : ProbeReference.effect.pop ≤ before + 1 := Nat.succ_le_succ (Nat.zero_le _)
  cases hq with
  | lead ht hs hlt =>
    obtain ⟨hload, hcall⟩ := insertProbes_at_entry plan probe (List.getElem?_eq_getElem ht) hs
    match more, hlt with
    | 0, _ => exact ⟨_, ⟨0, 1⟩, hload, rfl, Nat.zero_le _⟩
    | 1, _ => exact ⟨_, _, hcall, hprobe, hpop⟩
  | itself _ =>
    obtain ⟨i, e, hp⟩ := hsound.passes hr
    exact ⟨_, e, passes_home plan probe hp⟩
  | @stub index p r t id hindex hs hlt =>
    obtain ⟨hload, hcall, hjump⟩ :=
      insertProbes_at_stub plan probe (List.getElem?_eq_getElem hindex) hs
    match r, hlt with
    | 0, _ => exact ⟨_, ⟨0, 1⟩, hload, rfl, Nat.zero_le _⟩
    | 1, _ => exact ⟨_, _, hcall, hprobe, hpop⟩
    | 2, _ => exact ⟨_, ⟨0, 0⟩, hjump, rfl, Nat.zero_le _⟩

end Stands

/-! ## Both ways -/

/-- No walk through the new body goes wrong exactly if none does through the old body. -/
theorem sound_insertProbes_iff (h : body.Closed) (hcovers : plan.Covers body)
    (hprobe : callEffect probe = some ProbeReference.effect) :
    Sound (body.insertProbes plan probe) callEffect ↔ Sound body callEffect := by
  constructor
  · intro hsound
    have hlt : ∀ {t depth}, Reached body callEffect t depth → t < body.instructions.length :=
      fun hr => lt_of_entry_lt (h.reached_le hr)
        (hsound.inRange (reached_entry hcovers hprobe hr))
    refine sound_of_passes (fun hr => ?_) fun hr hr' =>
      hsound.agree (reached_entry hcovers hprobe hr) (reached_entry hcovers hprobe hr')
    obtain ⟨j, e, hp⟩ := hsound.passes
      (reached_home hprobe (hlt hr) (reached_entry hcovers hprobe hr))
    exact ⟨_, e, (passes_of_home (List.getElem?_eq_getElem (hlt hr)) hp).1⟩
  · intro hsound
    have hstands : ∀ {q depth}, Reached (body.insertProbes plan probe) callEffect q depth →
        ∃ t before more, Stands plan probe body q t more ∧ Reached body callEffect t before ∧
          depth = before + more := fun hr =>
      Stands.of_shadows hsound hcovers (shadows_of_reached h hcovers hprobe hr)
    refine sound_of_passes (fun hr => ?_) fun hr hr' => ?_
    · obtain ⟨t, before, more, hq, hold, rfl⟩ := hstands hr
      exact hq.exists_passes hsound hprobe hold
    · obtain ⟨t, before, more, hq, hold, rfl⟩ := hstands hr
      obtain ⟨t', before', more', hq', hold', rfl⟩ := hstands hr'
      obtain ⟨rfl, rfl⟩ := hq.unique hq'
      rw [hsound.agree hold hold']

/-- One more slot is enough for the new body, no fewer than before are, and the depth of the new
body can be computed only if that of the old body can. -/
theorem maxStack?_insertProbes (h : body.Closed) (hcovers : plan.Covers body)
    (hprobe : callEffect probe = some ⟨1, 0⟩) :
    let new := body.insertProbes plan probe
    (∀ m, maxStack? body.instructions body.clauses callEffect = some m → m < 65535 →
      ∃ m', maxStack? new.instructions new.clauses callEffect = some m' ∧
        m ≤ m' ∧ m' ≤ m + 1) ∧
    ((maxStack? new.instructions new.clauses callEffect).isSome = true →
      (maxStack? body.instructions body.clauses callEffect).isSome = true) := by
  intro new
  by_cases hne : body.instructions = []
  · have hnew : new.instructions = [] := by
      rw [instructions_insertProbes, blocks, hne]
      rfl
    simp [maxStack?, hne, hnew]
  have hnew : new.instructions ≠ [] := by
    intro hnil
    have hlt := home_lt_length plan probe (List.length_pos_iff.mpr hne)
    rw [show (body.insertProbes plan probe).instructions = [] from hnil] at hlt
    cases hlt
  have hoccurs : ∀ {n}, Occurs body callEffect n → Occurs new callEffect n :=
    occurs_insertProbes hcovers hprobe
  have hsize : UInt16.size = 65536 := rfl
  constructor
  · intro m hm hlt
    obtain ⟨-, w, hfinished⟩ := finished_of_maxStack? hne hm
    have hbound : Bounds new callEffect (m + 1) :=
      bounds_insertProbes h hcovers hprobe fun n hn => hfinished.occurs_le hn
    have hsound := (sound_insertProbes_iff h hcovers hprobe).mpr hfinished.sound
    obtain ⟨m', hm', hgreatest⟩ := hsound.exists_maxStack? hnew hbound (by omega)
    exact ⟨m', hm', hgreatest.2 (hoccurs (hfinished.isGreatest hne).1), hbound m' hgreatest.1⟩
  · intro hsome
    obtain ⟨m', hm'⟩ := Option.isSome_iff_exists.mp hsome
    obtain ⟨hlt, w, hfinished⟩ := finished_of_maxStack? hnew hm'
    have hsound := (sound_insertProbes_iff h hcovers hprobe).mp hfinished.sound
    obtain ⟨m, hm, -⟩ := hsound.exists_maxStack? hne
      (fun n hn => hfinished.occurs_le (hoccurs hn)) hlt
    exact Option.isSome_iff_exists.mpr ⟨m, hm⟩

/-- A table with one entry twice and one for the instruction that follows, in the protected region
of a handler; the last instruction is not reached, and there would be too little on the stack. -/
def handledTable : LabelledBody where
  instructions :=
    [⟨0, .ldarg0, .none⟩, ⟨1, .switch, .table [3, 2, 3]⟩, ⟨18, .nop, .none⟩,
     ⟨19, .leaveS, .target 6⟩, ⟨21, .pop, .none⟩, ⟨22, .leaveS, .target 6⟩, ⟨24, .ret, .none⟩,
     ⟨25, .add, .none⟩]
  clauses := [⟨.catchType ⟨1⟩, 0, 4, 4, 6⟩]

/-- A probe at the start and one in the handler, where the exception is on the stack. -/
def handledPlan : ProbePlan where
  sequences := [(0, 1), (4, 2)]
  decisions := [(1, [(2, 3), (3, 4)])]

theorem handledPlan_covers : handledPlan.Covers handledTable where
  sequences := by decide
  decisions := by
    intro d hd
    obtain rfl := List.mem_singleton.mp hd
    refine ⟨_, rfl, by decide, rfl, fun t => ?_⟩
    simp [Operand.targets]
    omega

theorem maxStack?_insertProbes_handled :
    let callEffect : Token → Option StackEffect := fun token =>
      if token = ⟨0x0a000001⟩ then some ⟨1, 0⟩ else none
    let new := handledTable.insertProbes handledPlan ⟨0x0a000001⟩
    handledTable.Closed ∧ handledPlan.Covers handledTable ∧
      maxStack? handledTable.instructions handledTable.clauses callEffect = some 1 ∧
      (∃ m', maxStack? new.instructions new.clauses callEffect = some m' ∧ 1 ≤ m' ∧ m' ≤ 1 + 1) ∧
      maxStack? new.instructions new.clauses callEffect ≠ some 1 := by
  intro callEffect new
  have hclosed : handledTable.Closed := ⟨by decide, by decide⟩
  have hm : maxStack? handledTable.instructions handledTable.clauses callEffect = some 1 := by
    decide +kernel
  exact ⟨hclosed, handledPlan_covers, hm,
    (maxStack?_insertProbes hclosed handledPlan_covers rfl).1 1 hm (by decide),
    by decide +kernel⟩

end LabelledBody

end CilCoverage
