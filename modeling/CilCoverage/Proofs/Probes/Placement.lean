/-
  Where probes and instructions stand in a body with probes.

  Every instruction has a block. The block begins at its `entry`; the
  instruction itself stands at its `home`, behind the probe if there is one;
  stub `p` begins at `stubEntry`. The `insertProbes_at_..` lemmas say which
  instruction stands at each of these positions, and `exists_entry_add` that
  there are no others.
-/
import CilCoverage.Probes
import CilCoverage.Span
import CilCoverage.Proofs.Operands
import CilCoverage.Proofs.Positions

namespace CilCoverage

/-! ## Plans -/

namespace ProbePlan

/-- A plan for a body: each decision has a probe for every way to go on, where the first is
the instruction that follows. -/
structure Fits (plan : ProbePlan) (body : LabelledBody) : Prop where
  sequences : ∀ s ∈ plan.sequences, s.1 < body.instructions.length
  decisions : ∀ d ∈ plan.decisions, ∃ i, body.instructions[d.1]? = some i ∧
    i.opcode.isDecision = true ∧ d.1 + 1 < body.instructions.length ∧
    d.2.map Prod.fst = Decision.successorsOf d.1 i

/-- A plan for a body: where it probes the ways out of an instruction it probes all of them, in any
order but for the one to the instruction that follows, which is the first. -/
structure Covers (plan : ProbePlan) (body : LabelledBody) : Prop where
  sequences : ∀ s ∈ plan.sequences, s.1 < body.instructions.length
  decisions : ∀ d ∈ plan.decisions, ∃ i, body.instructions[d.1]? = some i ∧
    d.1 + 1 < body.instructions.length ∧ (d.2.map Prod.fst).head? = some (d.1 + 1) ∧
    ∀ t, t ∈ d.2.map Prod.fst ↔ t = d.1 + 1 ∨ t ∈ i.operand.targets

theorem mem_of_sequence? {plan : ProbePlan} {index : Nat} {id : HitId}
    (h : plan.sequence? index = some id) : (index, id) ∈ plan.sequences := by
  obtain ⟨l₁, l₂, hl, _⟩ := List.lookup_eq_some_iff.mp h
  exact List.mem_reverse.mp (hl ▸ by simp)

theorem mem_of_successors {plan : ProbePlan} {index : Nat} (h : plan.successors index ≠ []) :
    (index, plan.successors index) ∈ plan.decisions := by
  unfold successors at h ⊢
  cases hd : plan.decisions.reverse.lookup index with
  | none => simp [hd] at h
  | some d =>
    obtain ⟨l₁, l₂, hl, _⟩ := List.lookup_eq_some_iff.mp hd
    exact List.mem_reverse.mp (hl ▸ by simp)

end ProbePlan

theorem Decision.successorsOf_eq_cons (index : Nat) (i : Instruction Nat) :
    ∃ rest, Decision.successorsOf index i = (index + 1) :: rest :=
  ⟨_, List.eraseDups_cons⟩

theorem Decision.mem_successorsOf {index t : Nat} {i : Instruction Nat} :
    t ∈ Decision.successorsOf index i ↔ t = index + 1 ∨ t ∈ i.operand.targets := by
  rw [Decision.successorsOf, List.mem_eraseDups, List.mem_cons]

namespace LabelledBody

variable {plan : ProbePlan} {probe : Token} {body : LabelledBody}

/-- No instruction of the body calls the probe. -/
def NoCallTo (probe : Token) (body : LabelledBody) : Prop :=
  ∀ i ∈ body.instructions, i.isCallTo probe = false

instance (probe : Token) (body : LabelledBody) : Decidable (NoCallTo probe body) :=
  inferInstanceAs (Decidable (∀ i ∈ body.instructions, _))

/-- Number of instructions between the entry of an instruction and the instruction itself. -/
def lead (plan : ProbePlan) (index : Nat) : Nat :=
  if (plan.sequence? index).isSome then 2 else 0

/-- The new index of an instruction itself. -/
def home (plan : ProbePlan) (probe : Token) (body : LabelledBody) (index : Nat) : Nat :=
  entry plan probe body index + lead plan index

theorem home_eq_entry {index : Nat} (h : plan.sequence? index = none) :
    home plan probe body index = entry plan probe body index := by simp [home, lead, h]

theorem home_eq_entry_add {index : Nat} {id : HitId} (h : plan.sequence? index = some id) :
    home plan probe body index = entry plan probe body index + 2 := by simp [home, lead, h]

/-- The new index of a stub of a decision. -/
def stubEntry (plan : ProbePlan) (probe : Token) (body : LabelledBody)
    (index position : Nat) : Nat :=
  home plan probe body index + 1 + 3 * position

theorem place_entry (f : Nat → Nat) (index : Nat) : place plan f (.entry index) = f index := rfl

/-! ## Blocks -/

/-- The length of each block. -/
def blockLengths (plan : ProbePlan) (probe : Token) (body : LabelledBody) : List Nat :=
  (blocks plan probe body).map List.length

theorem length_blocks (plan : ProbePlan) (probe : Token) (body : LabelledBody) :
    (blocks plan probe body).length = body.instructions.length := by
  simp [blocks]

theorem length_blockLengths (plan : ProbePlan) (probe : Token) (body : LabelledBody) :
    (blockLengths plan probe body).length = body.instructions.length := by
  simp [blockLengths, length_blocks]

theorem getElem?_blocks (plan : ProbePlan) (probe : Token) {index : Nat} {i : Instruction Nat}
    (hi : body.instructions[index]? = some i) :
    (blocks plan probe body)[index]? = some (emit plan probe index i) := by
  simp [blocks, List.getElem?_mapIdx, hi]

theorem entry_eq_begins {index : Nat} (h : index ≤ body.instructions.length) :
    entry plan probe body index = begins (blockLengths plan probe body) index := by
  have hlen : index ≤ (blockLengths plan probe body).length := by
    rw [length_blockLengths]
    exact h
  rw [entry, entries, List.getD_eq_getElem?_getD]
  change (prefixSums 0 (blockLengths plan probe body))[index]?.getD 0 = _
  rw [getElem?_prefixSums_begins hlen]
  simp

theorem entry_zero : entry plan probe body 0 = 0 := by
  rw [entry_eq_begins (Nat.zero_le _), begins_zero]

theorem entryOf_eq_entry (plan : ProbePlan) (probe : Token) (body : LabelledBody) :
    (fun index => (entries plan probe body).toArray.getD index 0) = entry plan probe body := by
  funext index
  simp [entry, Array.getD_eq_getD_getElem?]

theorem instructions_insertProbes (body : LabelledBody) (plan : ProbePlan) (probe : Token) :
    (body.insertProbes plan probe).instructions =
      (blocks plan probe body).flatten.map
        (Instruction.mapTargets (place plan (entry plan probe body))) := by
  rw [← entryOf_eq_entry]
  rfl

theorem clauses_insertProbes (body : LabelledBody) (plan : ProbePlan) (probe : Token) :
    (body.insertProbes plan probe).clauses =
      body.clauses.map (Clause.map (entry plan probe body)) := by
  rw [← entryOf_eq_entry]
  rfl

theorem length_insertProbes (body : LabelledBody) (plan : ProbePlan) (probe : Token) :
    (body.insertProbes plan probe).instructions.length =
      entry plan probe body body.instructions.length := by
  rw [instructions_insertProbes, List.length_map, entry_eq_begins (Nat.le_refl _),
    ← length_blockLengths plan probe body, begins_length, blockLengths, sum_map_length]

/-- The new body, block by block. -/
theorem getElem?_insertProbes {index k : Nat} {i : Instruction Nat}
    (hi : body.instructions[index]? = some i) (hk : k < (emit plan probe index i).length) :
    (body.insertProbes plan probe).instructions[entry plan probe body index + k]? =
      ((emit plan probe index i)[k]?).map
        (Instruction.mapTargets (place plan (entry plan probe body))) := by
  obtain ⟨hlt, _⟩ := List.getElem?_eq_some_iff.mp hi
  rw [instructions_insertProbes, List.getElem?_map, entry_eq_begins (Nat.le_of_lt hlt),
    blockLengths, getElem?_flatten_begins (getElem?_blocks plan probe hi) hk]

theorem entry_succ {index : Nat} {i : Instruction Nat}
    (hi : body.instructions[index]? = some i) :
    entry plan probe body (index + 1) =
      entry plan probe body index + (emit plan probe index i).length := by
  obtain ⟨hlt, _⟩ := List.getElem?_eq_some_iff.mp hi
  have hblock : index < (blockLengths plan probe body).length := by
    rw [length_blockLengths]
    exact hlt
  rw [entry_eq_begins hlt, entry_eq_begins (Nat.le_of_lt hlt), begins_succ hblock]
  congr 1
  obtain ⟨_, hb⟩ := List.getElem?_eq_some_iff.mp (getElem?_blocks plan probe hi)
  simp [blockLengths, hb]

/-! ## The instructions of a block -/

/-- Where the jump of a stub leads; the first stub goes on with the instruction that follows. -/
def stubTarget (index position successor : Nat) : Nat :=
  if position = 0 then index + 1 else successor

theorem length_sequenceProbe (plan : ProbePlan) (probe : Token) (index offset : Nat) :
    (sequenceProbe plan probe index offset).length = lead plan index := by
  unfold sequenceProbe lead
  cases plan.sequence? index with
  | none => rfl
  | some id => rfl

theorem getElem?_flatMap_of_length {α β : Type} {f : α → List β} {n : Nat}
    (hf : ∀ a, (f a).length = n) (l : List α) (p : Nat) {r : Nat} (hr : r < n) :
    (l.flatMap f)[n * p + r]? = l[p]?.bind fun a => (f a)[r]? := by
  induction l generalizing p with
  | nil => simp
  | cons a l ih =>
    rw [List.flatMap_cons]
    cases p with
    | zero =>
      rw [Nat.mul_zero, Nat.zero_add, List.getElem?_append_left (by rw [hf]; exact hr)]
      simp
    | succ p =>
      have hge : (f a).length ≤ n * (p + 1) + r := by
        rw [hf, Nat.mul_succ]
        omega
      have hsub : n * (p + 1) + r - (f a).length = n * p + r := by
        rw [hf, Nat.mul_succ]
        omega
      rw [List.getElem?_append_right hge, hsub, ih p]
      simp

theorem getElem?_stubs (probe : Token) (offset index : Nat) (successors : List (Nat × HitId))
    (p : Nat) {r : Nat} (hr : r < 3) :
    (stubs probe offset index successors)[3 * p + r]? = successors[p]?.bind fun s =>
      (stub probe offset s.2 (stubTarget index p s.1))[r]? := by
  cases successors with
  | nil => simp [stubs]
  | cons s rest =>
    rw [stubs]
    cases p with
    | zero =>
      rw [List.getElem?_append_left (by simpa [stub, probeCall] using hr)]
      simp [stubTarget]
    | succ p =>
      have hrest := getElem?_flatMap_of_length (f := fun s => stub probe offset s.2 s.1)
        (fun _ => rfl) rest p hr
      have hsub : 3 * (p + 1) + r - 3 = 3 * p + r := by omega
      rw [List.getElem?_append_right (by simp [stub, probeCall]; omega)]
      simp only [stub, probeCall, List.length_append, List.length_cons, List.length_nil] at hrest ⊢
      rw [hsub, hrest]
      simp [stubTarget]

theorem length_stubs (probe : Token) (offset index : Nat) (successors : List (Nat × HitId)) :
    (stubs probe offset index successors).length = 3 * successors.length := by
  cases successors with
  | nil => rfl
  | cons s rest =>
    simp [stubs, stub, probeCall, List.length_flatMap, List.map_const']
    omega

theorem length_emit (plan : ProbePlan) (probe : Token) (index : Nat) (i : Instruction Nat) :
    (emit plan probe index i).length =
      lead plan index + 1 + 3 * (plan.successors index).length := by
  rw [emit, List.length_append, List.length_cons, length_sequenceProbe, length_stubs]
  omega

/-- Where a target of the instruction at `index` leads in the new body. -/
def newTarget (plan : ProbePlan) (probe : Token) (body : LabelledBody) (index target : Nat) : Nat :=
  place plan (entry plan probe body) (retarget index (plan.successors index) target)

section At

variable (plan probe) {index : Nat} {i : Instruction Nat} (hi : body.instructions[index]? = some i)
include hi

theorem entry_succ_eq_home : entry plan probe body (index + 1) =
    home plan probe body index + 1 + 3 * (plan.successors index).length := by
  rw [entry_succ hi, length_emit, home]
  omega

theorem insertProbes_at_entry {id : HitId} (hs : plan.sequence? index = some id) :
    (body.insertProbes plan probe).instructions[entry plan probe body index]? =
        some ⟨i.offset, .ldcI4, .int32 id.toInt32⟩ ∧
      (body.insertProbes plan probe).instructions[entry plan probe body index + 1]? =
        some ⟨i.offset, .call, .token probe⟩ := by
  have hlead : lead plan index = 2 := by simp [lead, hs]
  have hlen : 2 < (emit plan probe index i).length := by
    rw [length_emit, hlead]
    omega
  have h0 := getElem?_insertProbes (k := 0) hi (by omega : 0 < (emit plan probe index i).length)
  have h1 := getElem?_insertProbes (k := 1) hi (by omega : 1 < (emit plan probe index i).length)
  rw [Nat.add_zero] at h0
  rw [h0, h1]
  simp [emit, sequenceProbe, hs, probeCall, Instruction.mapTargets, Operand.mapTargets]

theorem insertProbes_at_home :
    (body.insertProbes plan probe).instructions[home plan probe body index]? =
      some (i.mapTargets (newTarget plan probe body index)) := by
  have hlen : lead plan index < (emit plan probe index i).length := by
    rw [length_emit]
    omega
  have hprobe := length_sequenceProbe plan probe index i.offset
  rw [home, getElem?_insertProbes hi hlen, emit, List.getElem?_append_right (by omega), hprobe,
    Nat.sub_self]
  simp only [List.getElem?_cons_zero, Option.map_some, Instruction.mapTargets,
    Operand.mapTargets_mapTargets]
  rfl

theorem insertProbes_at_stub {p t : Nat} {id : HitId}
    (hs : (plan.successors index)[p]? = some (t, id)) :
    (body.insertProbes plan probe).instructions[stubEntry plan probe body index p]? =
        some ⟨i.offset, .ldcI4, .int32 id.toInt32⟩ ∧
      (body.insertProbes plan probe).instructions[stubEntry plan probe body index p + 1]? =
        some ⟨i.offset, .call, .token probe⟩ ∧
      (body.insertProbes plan probe).instructions[stubEntry plan probe body index p + 2]? =
        some ⟨i.offset, .brS, .target (entry plan probe body (stubTarget index p t))⟩ := by
  obtain ⟨hp, _⟩ := List.getElem?_eq_some_iff.mp hs
  have hat : ∀ r, r < 3 →
      (body.insertProbes plan probe).instructions[stubEntry plan probe body index p + r]? =
        ((stub probe i.offset id (stubTarget index p t))[r]?).map
          (Instruction.mapTargets (place plan (entry plan probe body))) := by
    intro r hr
    have hlen : lead plan index + 1 + (3 * p + r) < (emit plan probe index i).length := by
      rw [length_emit]
      omega
    have hpos : stubEntry plan probe body index p + r =
        entry plan probe body index + (lead plan index + 1 + (3 * p + r)) := by
      rw [stubEntry, home]
      omega
    have hprobe := length_sequenceProbe plan probe index i.offset
    have hsub : lead plan index + 1 + (3 * p + r) - lead plan index = 3 * p + r + 1 := by omega
    rw [hpos, getElem?_insertProbes hi hlen, emit, List.getElem?_append_right (by omega), hprobe,
      hsub, List.getElem?_cons_succ, getElem?_stubs _ _ _ _ _ hr, hs]
    rfl
  exact ⟨hat 0 (by omega), hat 1 (by omega), hat 2 (by omega)⟩

end At

/-- A position in the new body is in one of the blocks: in the probe of an instruction, at the
instruction, or in a stub. -/
theorem position_cases {q : Nat} (h : q < (body.insertProbes plan probe).instructions.length) :
    ∃ index i, body.instructions[index]? = some i ∧
      ((∃ id r, plan.sequence? index = some id ∧ r < 2 ∧ q = entry plan probe body index + r) ∨
        q = home plan probe body index ∨
        ∃ p s r, (plan.successors index)[p]? = some s ∧ r < 3 ∧
          q = stubEntry plan probe body index p + r) := by
  rw [instructions_insertProbes, List.length_map, ← sum_map_length] at h
  obtain ⟨index, k, hindex, hk, rfl⟩ := exists_begins_add h
  rw [List.length_map, length_blocks] at hindex
  have hi := List.getElem?_eq_getElem hindex
  obtain ⟨_, hb⟩ := List.getElem?_eq_some_iff.mp (getElem?_blocks plan probe hi)
  rw [List.getElem_map, hb, length_emit] at hk
  have hentry : entry plan probe body index =
      begins ((blocks plan probe body).map List.length) index :=
    entry_eq_begins (Nat.le_of_lt hindex)
  rw [← hentry]
  refine ⟨index, body.instructions[index], hi, ?_⟩
  rcases Nat.lt_trichotomy k (lead plan index) with hlt | heq | hgt
  · left
    cases hs : plan.sequence? index with
    | none => simp [lead, hs] at hlt
    | some id => exact ⟨id, k, rfl, by simpa [lead, hs] using hlt, rfl⟩
  · exact Or.inr (Or.inl (by rw [home, heq]))
  · have hp : (k - lead plan index - 1) / 3 < (plan.successors index).length := by omega
    refine Or.inr (Or.inr ⟨_, _, (k - lead plan index - 1) % 3, List.getElem?_eq_getElem hp,
      Nat.mod_lt _ (by omega), ?_⟩)
    rw [stubEntry, home]
    omega

/-! ## The order of positions -/

theorem blockLengths_pos (plan : ProbePlan) (probe : Token) (body : LabelledBody) :
    ∀ n ∈ blockLengths plan probe body, 0 < n := by
  intro n hn
  obtain ⟨b, hb, rfl⟩ := List.mem_map.mp hn
  obtain ⟨index, hindex, rfl⟩ := List.mem_mapIdx.mp hb
  rw [length_emit]
  omega

section Order

variable (plan probe)

theorem entry_mono {j k : Nat} (h : j ≤ k) (hk : k ≤ body.instructions.length) :
    entry plan probe body j ≤ entry plan probe body k := by
  rw [entry_eq_begins (Nat.le_trans h hk), entry_eq_begins hk]
  exact begins_mono h

theorem entry_lt {j k : Nat} (h : j < k) (hk : k ≤ body.instructions.length) :
    entry plan probe body j < entry plan probe body k := by
  rw [entry_eq_begins (by omega), entry_eq_begins hk]
  exact begins_lt (blockLengths_pos plan probe body) h (by rwa [length_blockLengths])

theorem home_lt_entry_succ {index : Nat} (h : index < body.instructions.length) :
    home plan probe body index < entry plan probe body (index + 1) := by
  rw [entry_succ_eq_home plan probe (List.getElem?_eq_getElem h)]
  omega

theorem home_lt {j k : Nat} (h : j < k) (hk : k < body.instructions.length) :
    home plan probe body j < home plan probe body k := by
  have h1 := home_lt_entry_succ plan probe (Nat.lt_trans h hk)
  have h2 : entry plan probe body (j + 1) ≤ entry plan probe body k :=
    entry_mono plan probe h (Nat.le_of_lt hk)
  have h3 : entry plan probe body k ≤ home plan probe body k := Nat.le_add_right _ _
  omega

theorem home_inj {j k : Nat} (hj : j < body.instructions.length)
    (hk : k < body.instructions.length)
    (h : home plan probe body j = home plan probe body k) : j = k := by
  rcases Nat.lt_trichotomy j k with hlt | heq | hgt
  · have := home_lt plan probe hlt hk
    omega
  · exact heq
  · have := home_lt plan probe hgt hj
    omega

end Order

/-! ## Targets -/

theorem newTarget_of_successors_eq_nil {index : Nat} (h : plan.successors index = [])
    (t : Nat) : newTarget plan probe body index t = entry plan probe body t := by
  simp [newTarget, h, retarget, place_entry]

/-- A target of a decision leads to the first stub for it, which reports its first id. -/
theorem newTarget_of_mem (probe : Token) (body : LabelledBody) {index t : Nat}
    (h : t ∈ (plan.successors index).map Prod.fst) :
    ∃ p id, (plan.successors index)[p]? = some (t, id) ∧
      (plan.successors index).lookup t = some id ∧
      newTarget plan probe body index t = stubEntry plan probe body index p := by
  generalize hs : plan.successors index = successors at h
  obtain ⟨p, hp⟩ : ∃ p, successors.findIdx? (fun s => s.1 == t) = some p := by
    rw [← Option.isSome_iff_exists, List.findIdx?_isSome, List.any_eq_true]
    obtain ⟨s, hs, rfl⟩ := List.mem_map.mp h
    exact ⟨s, hs, by simp⟩
  obtain ⟨hlt, heq, hbefore⟩ := List.findIdx?_eq_some_iff_getElem.mp hp
  have ht : successors[p].1 = t := by simpa using heq
  have hget : successors[p] = (t, successors[p].2) := by rw [← ht]
  refine ⟨p, successors[p].2, ?_, ?_, ?_⟩
  · rw [List.getElem?_eq_getElem hlt, ← hget]
  · rw [List.lookup_eq_some_iff]
    refine ⟨successors.take p, successors.drop (p + 1), ?_, ?_⟩
    · rw [← hget, ← List.drop_eq_getElem_cons hlt, List.take_append_drop]
    · intro s hs
      obtain ⟨k, hk, rfl⟩ := List.mem_iff_getElem.mp hs
      rw [List.length_take] at hk
      have := hbefore k (by omega)
      rw [List.getElem_take]
      simpa [bne_iff_ne, ne_comm] using this
  · rw [newTarget, retarget, hs, hp]
    rfl

end LabelledBody

namespace ProbePlan

theorem Fits.covers {plan : ProbePlan} {body : LabelledBody} (hfits : plan.Fits body) :
    plan.Covers body := by
  refine ⟨hfits.sequences, fun d hd => ?_⟩
  obtain ⟨i, hi, -, hnext, hmap⟩ := hfits.decisions d hd
  obtain ⟨rest, hrest⟩ := Decision.successorsOf_eq_cons d.1 i
  refine ⟨i, hi, hnext, by rw [hmap, hrest]; rfl, fun t => ?_⟩
  rw [hmap, Decision.mem_successorsOf]

/-- A decision of a plan is an instruction of the body. -/
theorem Covers.getElem?_of_successors {plan : ProbePlan} {body : LabelledBody}
    (hcovers : plan.Covers body) {index p : Nat} {s : Nat × HitId}
    (hs : (plan.successors index)[p]? = some s) : ∃ i, body.instructions[index]? = some i := by
  have hne : plan.successors index ≠ [] := by
    intro hnil
    rw [hnil] at hs
    simp at hs
  obtain ⟨i, hi, -⟩ := hcovers.decisions _ (mem_of_successors hne)
  exact ⟨i, hi⟩

variable {plan : ProbePlan} {body : LabelledBody} {index : Nat} {i : Instruction Nat}
  (hi : body.instructions[index]? = some i)
include hi

theorem Covers.successors_cases (hcovers : plan.Covers body) : plan.successors index = [] ∨
    index + 1 < body.instructions.length ∧
      (∃ id, (plan.successors index)[0]? = some (index + 1, id)) ∧
      ∀ t, t ∈ (plan.successors index).map Prod.fst ↔ t = index + 1 ∨ t ∈ i.operand.targets := by
  by_cases h : plan.successors index = []
  · exact Or.inl h
  · obtain ⟨j, hj, hnext, hfirst, hmem⟩ := hcovers.decisions _ (mem_of_successors h)
    obtain rfl : i = j := Option.some.inj (hi.symm.trans hj)
    rw [List.head?_map, Option.map_eq_some_iff] at hfirst
    obtain ⟨⟨t, id⟩, hs, rfl⟩ := hfirst
    rw [List.head?_eq_getElem?] at hs
    exact Or.inr ⟨hnext, ⟨id, hs⟩, hmem⟩

theorem Covers.stubTarget_eq (hcovers : plan.Covers body) {p t : Nat} {id : HitId}
    (hs : (plan.successors index)[p]? = some (t, id)) : LabelledBody.stubTarget index p t = t := by
  unfold LabelledBody.stubTarget
  split
  · next hp =>
    subst hp
    rcases hcovers.successors_cases hi with hnil | ⟨-, ⟨first, hfirst⟩, -⟩
    · rw [hnil] at hs
      simp at hs
    · rw [hs] at hfirst
      exact (Prod.mk.inj (Option.some.inj hfirst)).1.symm
  · rfl

theorem Fits.successors_cases (hfits : plan.Fits body) : plan.successors index = [] ∨
    index + 1 < body.instructions.length ∧
      (plan.successors index).map Prod.fst = Decision.successorsOf index i := by
  by_cases h : plan.successors index = []
  · exact Or.inl h
  · obtain ⟨j, hj, _, hlt, hs⟩ := hfits.decisions _ (mem_of_successors h)
    obtain rfl : i = j := Option.some.inj (hi.symm.trans hj)
    exact Or.inr ⟨hlt, hs⟩

theorem Fits.successors_eq_nil (hfits : plan.Fits body) (h : i.opcode.isDecision = false) :
    plan.successors index = [] := by
  by_contra hne
  obtain ⟨j, hj, hdecision, -⟩ := hfits.decisions _ (mem_of_successors hne)
  obtain rfl : i = j := Option.some.inj (hi.symm.trans hj)
  rw [h] at hdecision
  cases hdecision

end ProbePlan

end CilCoverage
