/-
  Bodies that differ in the ids they report.

  `Renumbered` relates two lists of instructions that are equal but for the
  numbers loaded right before a call of the probe. Inserting the probes of a
  plan and of the same plan with other ids gives such lists
  (`insertProbes_mapIds`). Nothing else depends on a number that is loaded:
  neither the sizes of instructions nor the depth of the stack, since both stay
  the same when all numbers are blanked out (`maxStack?_map_blank`).
-/
import CilCoverage.Proofs.Probes.Sites
import CilCoverage.Proofs.Stack.Exactness

namespace CilCoverage

/-! ## Results of two runs -/

namespace Result

variable {ε α β α' β' : Type}

/-- Both runs fail with one error, or both succeed with results that are related. -/
inductive Both (R : α → β → Prop) : Except ε α → Except ε β → Prop
  | error (e : ε) : Both R (.error e) (.error e)
  | ok {a : α} {b : β} (h : R a b) : Both R (.ok a) (.ok b)

namespace Both

variable {R : α → β → Prop} {S : α' → β' → Prop} {x : Except ε α} {y : Except ε β}

theorem bind {f : α → Except ε α'} {g : β → Except ε β'} (h : Both R x y)
    (hfg : ∀ a b, R a b → Both S (f a) (g b)) : Both S (x >>= f) (y >>= g) := by
  cases h with
  | error e => exact .error e
  | ok h => exact hfg _ _ h

theorem bind_same {f : α → Except ε α'} {g : α → Except ε β'} (x : Except ε α)
    (hfg : ∀ a, Both S (f a) (g a)) : Both S (x >>= f) (x >>= g) := by
  cases x with
  | error e => exact .error e
  | ok a => exact hfg a

theorem map {f : α → α'} {g : β → β'} (h : Both R x y) (hfg : ∀ a b, R a b → S (f a) (g b)) :
    Both S (x.map f) (y.map g) := by
  cases h with
  | error e => exact .error e
  | ok h => exact .ok (hfg _ _ h)

theorem mapError {ε' : Type} (h : Both R x y) (f : ε → ε') :
    Both R (x.mapError f) (y.mapError f) := by
  cases h with
  | error e => exact .error (f e)
  | ok h => exact .ok h

end Both

end Result

/-! ## Instructions without their numbers -/

section Blank

variable {α : Type}

/-- The operand with zero in place of a 32-bit number. -/
def Operand.blank : Operand α → Operand α
  | int32 _ => int32 0
  | o => o

/-- The instruction with zero in place of the 32-bit number it loads. -/
def Instruction.blank (i : Instruction α) : Instruction α := ⟨i.offset, i.opcode, i.operand.blank⟩

@[simp] theorem Operand.targets_blank (o : Operand α) : o.blank.targets = o.targets := by
  cases o <;> rfl

@[simp] theorem Operand.tableLength_blank (o : Operand α) : o.blank.tableLength = o.tableLength := by
  cases o <;> rfl

@[simp] theorem Instruction.opcode_blank (i : Instruction α) : i.blank.opcode = i.opcode := rfl

@[simp] theorem Instruction.operand_blank (i : Instruction α) :
    i.blank.operand = i.operand.blank := rfl

@[simp] theorem Instruction.size_blank (i : Instruction α) : i.blank.size = i.size := by
  simp [Instruction.size]

end Blank

namespace StackDepth

variable {callEffect : Token → Option StackEffect}

theorem effect?_blank (callEffect : Token → Option StackEffect) (i : Instruction Nat) :
    effect? callEffect i.blank = effect? callEffect i := by
  rcases i with ⟨offset, opcode, operand⟩
  cases operand <;> rfl

theorem step_map_blank (is : List (Instruction Nat)) (callEffect : Token → Option StackEffect)
    (index : Nat) (w : Walk) :
    step (is.map Instruction.blank) callEffect index w = step is callEffect index w := by
  unfold step
  rw [List.getElem?_map]
  cases is[index]? with
  | none => rfl
  | some i =>
    simp only [Option.map_some, Option.bind_eq_bind, Option.bind_some, effect?_blank, nextIndices,
      Instruction.opcode_blank, Instruction.operand_blank, Operand.targets_blank, List.length_map]
    rfl

theorem follow_map_blank (is : List (Instruction Nat)) (callEffect : Token → Option StackEffect)
    (deepest : Nat) (w : Walk) :
    follow (is.map Instruction.blank) callEffect deepest w = follow is callEffect deepest w := by
  induction deepest, w using follow.induct is callEffect with
  | case1 deepest w hp =>
    rw [@follow_of_pending_eq_nil ⟨is.map Instruction.blank, []⟩ callEffect w deepest hp,
      @follow_of_pending_eq_nil ⟨is, []⟩ callEffect w deepest hp]
  | case2 deepest w index rest hp hstep =>
    rw [@follow_of_pending_eq_cons ⟨is.map Instruction.blank, []⟩ callEffect w _ _ deepest hp,
      @follow_of_pending_eq_cons ⟨is, []⟩ callEffect w _ _ deepest hp, step_map_blank]
    dsimp only
    rw [hstep]
    rfl
  | case3 deepest w index rest hp before after v hstep _ ih =>
    rw [@follow_of_pending_eq_cons ⟨is.map Instruction.blank, []⟩ callEffect w _ _ deepest hp,
      @follow_of_pending_eq_cons ⟨is, []⟩ callEffect w _ _ deepest hp, step_map_blank]
    obtain ⟨depths, pending⟩ := w
    dsimp only at hstep ⊢
    rw [hstep]
    exact ih

/-- The depth of the stack does not depend on the numbers that are loaded. -/
theorem maxStack?_map_blank (is : List (Instruction Nat)) (clauses : List (Clause Nat))
    (callEffect : Token → Option StackEffect) :
    maxStack? (is.map Instruction.blank) clauses callEffect = maxStack? is clauses callEffect := by
  unfold maxStack?
  simp only [List.isEmpty_map, List.length_map, follow_map_blank]

end StackDepth

/-! ## Renumbered instructions -/

/-- The instructions are the same, but for related ids that are loaded for calls of the probe. -/
inductive Renumbered {α : Type} (R : HitId → HitId → Prop) (probe : Token) :
    List (Instruction α) → List (Instruction α) → Prop
  | nil : Renumbered R probe [] []
  | kept {is js : List (Instruction α)} (i : Instruction α) (h : Renumbered R probe is js) :
      Renumbered R probe (i :: is) (i :: js)
  | probe {is js : List (Instruction α)} {id id' : HitId} (load call : Nat) (hid : R id id')
      (h : Renumbered R probe is js) :
      Renumbered R probe (⟨load, .ldcI4, .int32 id.toInt32⟩ :: ⟨call, .call, .token probe⟩ :: is)
        (⟨load, .ldcI4, .int32 id'.toInt32⟩ :: ⟨call, .call, .token probe⟩ :: js)

namespace Renumbered

variable {α β : Type} {R : HitId → HitId → Prop} {probe : Token} {is js is' js' : List (Instruction α)}

theorem refl (is : List (Instruction α)) : Renumbered R probe is is := by
  induction is with
  | nil => exact .nil
  | cons i is ih => exact .kept i ih

theorem append (h : Renumbered R probe is js) (h' : Renumbered R probe is' js') :
    Renumbered R probe (is ++ is') (js ++ js') := by
  induction h with
  | nil => exact h'
  | kept i _ ih => exact .kept i ih
  | probe load call hid _ ih => exact .probe load call hid ih

theorem flatten {xss yss : List (List (Instruction α))}
    (h : List.Forall₂ (Renumbered R probe) xss yss) :
    Renumbered R probe xss.flatten yss.flatten := by
  induction h with
  | nil => exact .nil
  | cons hfirst _ ih => exact hfirst.append ih

theorem map (f : α → β) (h : Renumbered R probe is js) :
    Renumbered R probe (is.map (·.mapTargets f)) (js.map (·.mapTargets f)) := by
  induction h with
  | nil => exact .nil
  | kept i _ ih => exact .kept _ ih
  | probe load call hid _ ih => exact .probe load call hid ih

theorem map_blank (h : Renumbered R probe is js) :
    js.map Instruction.blank = is.map Instruction.blank := by
  induction h with
  | nil => rfl
  | kept i _ ih => rw [List.map_cons, List.map_cons, ih]
  | probe load call _ _ ih =>
    simp only [List.map_cons, ih]
    rfl

theorem map_size (h : Renumbered R probe is js) :
    js.map Instruction.size = is.map Instruction.size := by
  have hsizes := congrArg (List.map Instruction.size) h.map_blank
  simpa only [List.map_map, Function.comp_def, Instruction.size_blank] using hsizes

theorem length_eq (h : Renumbered R probe is js) : js.length = is.length := by
  have hlength := congrArg List.length h.map_blank
  simpa only [List.length_map] using hlength

theorem maxStack?_eq {is js : List (Instruction Nat)} (h : Renumbered R probe is js)
    (clauses : List (Clause Nat)) (callEffect : Token → Option StackEffect) :
    StackDepth.maxStack? js clauses callEffect = StackDepth.maxStack? is clauses callEffect := by
  rw [← StackDepth.maxStack?_map_blank js, h.map_blank, StackDepth.maxStack?_map_blank]

end Renumbered

/-! ## Plans with other ids -/

namespace ProbePlan

variable {f : HitId → HitId} {plan : ProbePlan}

/-- The plan with an id in place of each one. -/
def mapIds (f : HitId → HitId) (plan : ProbePlan) : ProbePlan where
  sequences := plan.sequences.map fun s => (s.1, f s.2)
  decisions := plan.decisions.map fun d => (d.1, d.2.map fun s => (s.1, f s.2))

theorem lookup_map {κ α β : Type} [BEq κ] (g : α → β) (k : κ) (l : List (κ × α)) :
    (l.map fun e => (e.1, g e.2)).lookup k = (l.lookup k).map g := by
  induction l with
  | nil => rfl
  | cons e l ih =>
    rw [List.map_cons, List.lookup_cons, List.lookup_cons, ih]
    split <;> rfl

theorem sequence?_mapIds (f : HitId → HitId) (plan : ProbePlan) (index : Nat) :
    (plan.mapIds f).sequence? index = (plan.sequence? index).map f := by
  rw [sequence?, mapIds, ← List.map_reverse, lookup_map]
  rfl

theorem successors_mapIds (f : HitId → HitId) (plan : ProbePlan) (index : Nat) :
    (plan.mapIds f).successors index = (plan.successors index).map fun s => (s.1, f s.2) := by
  rw [successors, mapIds, ← List.map_reverse, lookup_map, successors]
  cases plan.decisions.reverse.lookup index <;> rfl

theorem mem_ids_of_sequence? {index : Nat} {id : HitId} (h : plan.sequence? index = some id) :
    id ∈ plan.ids :=
  List.mem_append_left _ (List.mem_map.mpr ⟨(index, id), mem_of_sequence? h, rfl⟩)

theorem mem_ids_of_successors {index : Nat} {s : Nat × HitId} (h : s ∈ plan.successors index) :
    s.2 ∈ plan.ids := by
  have hmem := mem_of_successors (List.ne_nil_of_mem h)
  exact List.mem_append_right _ (List.mem_flatMap.mpr ⟨_, hmem, List.mem_map_of_mem h⟩)

end ProbePlan

namespace LabelledBody

variable {R : HitId → HitId → Prop} {f : HitId → HitId} {plan : ProbePlan}

theorem probeCall_renumbered {α : Type} (offset : Nat) (probe : Token) {id id' : HitId}
    (h : R id id') : Renumbered R probe (α := α) (probeCall offset id probe)
      (probeCall offset id' probe) :=
  .probe offset offset h .nil

theorem stub_renumbered (probe : Token) (offset target : Nat) {id id' : HitId} (h : R id id') :
    Renumbered R probe (stub probe offset id target) (stub probe offset id' target) :=
  (probeCall_renumbered offset probe h).append (.refl _)

theorem stubs_renumbered (probe : Token) (offset index : Nat) (successors : List (Nat × HitId))
    (h : ∀ s ∈ successors, R s.2 (f s.2)) :
    Renumbered R probe (stubs probe offset index successors)
      (stubs probe offset index (successors.map fun s => (s.1, f s.2))) := by
  cases successors with
  | nil => exact .nil
  | cons s rest =>
    obtain ⟨hfirst, hrest⟩ := List.forall_mem_cons.mp h
    refine (stub_renumbered probe offset (index + 1) hfirst).append ?_
    clear h
    induction rest with
    | nil => exact .nil
    | cons t rest ih =>
      obtain ⟨ht, hrest⟩ := List.forall_mem_cons.mp hrest
      exact (stub_renumbered probe offset t.1 ht).append (ih hrest)

theorem retarget_map (index : Nat) (successors : List (Nat × HitId)) (target : Nat) :
    retarget index (successors.map fun s => (s.1, f s.2)) target =
      retarget index successors target := by
  rw [retarget, List.findIdx?_map]
  rfl

/-- The block of an instruction, with other ids. -/
theorem emit_mapIds (probe : Token) (index : Nat) (i : Instruction Nat)
    (h : ∀ id ∈ plan.ids, R id (f id)) :
    Renumbered R probe (emit plan probe index i) (emit (plan.mapIds f) probe index i) := by
  have hsequence : Renumbered R probe (sequenceProbe plan probe index i.offset)
      (sequenceProbe (plan.mapIds f) probe index i.offset) := by
    rw [sequenceProbe, sequenceProbe, ProbePlan.sequence?_mapIds]
    cases hs : plan.sequence? index with
    | none => exact .nil
    | some id => exact probeCall_renumbered _ probe (h id (ProbePlan.mem_ids_of_sequence? hs))
  have hretarget : retarget index (plan.successors index) =
      retarget index ((plan.successors index).map fun s => (s.1, f s.2)) :=
    funext fun target => (retarget_map index _ target).symm
  rw [emit, emit, ProbePlan.successors_mapIds, ← hretarget]
  refine hsequence.append (.kept _ (stubs_renumbered probe _ index _ fun s hs => ?_))
  exact h s.2 (ProbePlan.mem_ids_of_successors hs)

theorem blocks_mapIds (probe : Token) (body : LabelledBody) (h : ∀ id ∈ plan.ids, R id (f id)) :
    List.Forall₂ (Renumbered R probe) (blocks plan probe body)
      (blocks (plan.mapIds f) probe body) := by
  unfold blocks
  rw [List.forall₂_iff_get]
  refine ⟨by simp, fun k hk hk' => ?_⟩
  simp only [List.get_eq_getElem, List.getElem_mapIdx]
  exact emit_mapIds probe k _ h

theorem entries_mapIds (f : HitId → HitId) (plan : ProbePlan) (probe : Token)
    (body : LabelledBody) : entries (plan.mapIds f) probe body = entries plan probe body := by
  have hblocks := blocks_mapIds (R := fun _ _ => True) (f := f) probe body
    fun id (_ : id ∈ plan.ids) => trivial
  have hlengths : (blocks (plan.mapIds f) probe body).map List.length =
      (blocks plan probe body).map List.length := by
    rw [← List.forall₂_eq_eq_eq, List.forall₂_map_left_iff, List.forall₂_map_right_iff]
    exact hblocks.flip.imp fun _ _ h => h.length_eq
  rw [entries, hlengths, entries]

theorem place_mapIds (f : HitId → HitId) (plan : ProbePlan) :
    place (plan.mapIds f) = place plan := by
  funext entryOf label
  cases label with
  | entry index => rfl
  | stub index position => rw [place, place, ProbePlan.sequence?_mapIds, Option.isSome_map]

/-- With other ids in the plan, the body differs in the ids it reports, and in nothing else. -/
theorem insertProbes_mapIds (body : LabelledBody) (probe : Token)
    (h : ∀ id ∈ plan.ids, R id (f id)) :
    Renumbered R probe (body.insertProbes plan probe).instructions
        (body.insertProbes (plan.mapIds f) probe).instructions ∧
      (body.insertProbes (plan.mapIds f) probe).clauses =
        (body.insertProbes plan probe).clauses := by
  unfold insertProbes
  simp only [entries_mapIds, place_mapIds, and_true]
  exact (Renumbered.flatten (blocks_mapIds probe body h)).map _

end LabelledBody

end CilCoverage
