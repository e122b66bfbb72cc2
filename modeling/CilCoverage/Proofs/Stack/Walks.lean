/-
  Walks through a body, and the depths on them.

  A walk starts at the first instruction or where a clause hands over control,
  and goes on for as long as the effect of an instruction is known and the
  stack holds what it pops. `Reached` says that some walk comes to an
  instruction with a depth, `Occurs` that a depth is seen before or after an
  instruction of a walk. Nothing here says how depths are computed.

  Telling more about calls gives no new walks where the effects of all reached
  calls were known before (`Sound.reached_of_extends`).
-/
import CilCoverage.StackDepth

namespace CilCoverage

namespace StackEffect

/-- The depth after an instruction. -/
def after (e : StackEffect) (depth : Nat) : Nat := depth - e.pop + e.push

/-- The depth with which control goes on. -/
def onward (e : StackEffect) (i : Instruction Nat) (depth : Nat) : Nat :=
  if i.opcode.clearsStack then 0 else e.after depth

end StackEffect

namespace StackDepth

/-- Where walks start, each with the depth there. -/
inductive Starts (body : LabelledBody) : Nat → Nat → Prop
  | entry : Starts body 0 0
  /-- A handler that is given the exception. -/
  | handler {c : Clause Nat} (hc : c ∈ body.clauses)
      (hk : (∃ type, c.kind = .catchType type) ∨ ∃ start, c.kind = .filter start) :
      Starts body c.handlerStart 1
  | filter {c : Clause Nat} {start : Nat} (hc : c ∈ body.clauses)
      (hk : c.kind = .filter start) : Starts body start 1
  | cleanup {c : Clause Nat} (hc : c ∈ body.clauses)
      (hk : c.kind = .finallyBlock ∨ c.kind = .fault) : Starts body c.handlerStart 0

/-- Control can go from the instruction at `index` to the one at `next`. -/
def Leads (body : LabelledBody) (index : Nat) (i : Instruction Nat) (next : Nat) : Prop :=
  next ∈ i.operand.targets ∨
    i.opcode.fallsThrough = true ∧ index + 1 < body.instructions.length ∧ next = index + 1

/-- The instruction at `index` has a known effect, and the stack holds what it pops. -/
structure Passes (body : LabelledBody) (callEffect : Token → Option StackEffect)
    (index depth : Nat) (i : Instruction Nat) (e : StackEffect) : Prop where
  instruction : body.instructions[index]? = some i
  effect : effect? callEffect i = some e
  enough : e.pop ≤ depth

/-- A walk comes to `index` with a depth. -/
inductive Reached (body : LabelledBody) (callEffect : Token → Option StackEffect) :
    Nat → Nat → Prop
  | start {index depth : Nat} (h : Starts body index depth) : Reached body callEffect index depth
  | step {index depth next : Nat} {i : Instruction Nat} {e : StackEffect}
      (h : Reached body callEffect index depth) (hp : Passes body callEffect index depth i e)
      (hn : Leads body index i next) : Reached body callEffect next (e.onward i depth)

/-- A depth before or after an instruction that a walk comes to. -/
inductive Occurs (body : LabelledBody) (callEffect : Token → Option StackEffect) : Nat → Prop
  | before {index depth : Nat} (h : Reached body callEffect index depth)
      (hi : index < body.instructions.length) : Occurs body callEffect depth
  | after {index depth : Nat} {i : Instruction Nat} {e : StackEffect}
      (h : Reached body callEffect index depth) (hp : Passes body callEffect index depth i e) :
      Occurs body callEffect (e.after depth)

/-- No walk goes wrong, and walks that meet agree. -/
structure Sound (body : LabelledBody) (callEffect : Token → Option StackEffect) : Prop where
  inRange : ∀ {index depth}, Reached body callEffect index depth →
    index < body.instructions.length
  known : ∀ {index depth i}, Reached body callEffect index depth →
    body.instructions[index]? = some i → (effect? callEffect i).isSome = true
  enough : ∀ {index depth i e}, Reached body callEffect index depth →
    body.instructions[index]? = some i → effect? callEffect i = some e → e.pop ≤ depth
  agree : ∀ {index depth depth'}, Reached body callEffect index depth →
    Reached body callEffect index depth' → depth = depth'

/-- No walk gets deeper. -/
def Bounds (body : LabelledBody) (callEffect : Token → Option StackEffect) (bound : Nat) : Prop :=
  ∀ n, Occurs body callEffect n → n ≤ bound

/-- A second table of effects that tells at least what the first one tells. -/
def Extends (more less : Token → Option StackEffect) : Prop :=
  ∀ token e, less token = some e → more token = some e

variable {body : LabelledBody} {callEffect more : Token → Option StackEffect}

theorem Bounds.mono {bound bound' : Nat} (h : Bounds body callEffect bound)
    (hle : bound ≤ bound') : Bounds body callEffect bound' :=
  fun n hn => Nat.le_trans (h n hn) hle

/-- An instruction has one effect. -/
theorem Passes.unique {index depth : Nat} {i j : Instruction Nat} {e e' : StackEffect}
    (h : Passes body callEffect index depth i e) (hj : body.instructions[index]? = some j)
    (he' : effect? callEffect j = some e') : j = i ∧ e' = e := by
  obtain rfl : i = j := Option.some.inj (h.instruction.symm.trans hj)
  exact ⟨rfl, Option.some.inj (he'.symm.trans h.effect)⟩

theorem Sound.passes (h : Sound body callEffect) {index depth : Nat}
    (hr : Reached body callEffect index depth) : ∃ i e, Passes body callEffect index depth i e := by
  have hi := List.getElem?_eq_getElem (h.inRange hr)
  obtain ⟨e, he⟩ := Option.isSome_iff_exists.mp (h.known hr hi)
  exact ⟨_, e, hi, he, h.enough hr hi he⟩

/-! ## More known effects -/

theorem effect?_of_extends (hext : Extends more callEffect) {i : Instruction Nat}
    {e : StackEffect} (h : effect? callEffect i = some e) : effect? more i = some e := by
  by_cases hcall : i.opcode ∈ callOpcodes
  · rw [effect?_call hcall] at h ⊢
    cases hoperand : i.operand with
    | token token =>
      rw [hoperand] at h
      exact hext token e h
    | _ =>
      rw [hoperand] at h
      cases h
  · by_cases hleaving : i.opcode ∈ leavingOpcodes
    · rwa [effect?_leaving hleaving] at h ⊢
    · rwa [effect?_other hcall hleaving] at h ⊢

/-- An instruction of a walk passes in one way only, whatever else is told about calls. -/
theorem Sound.passes_of_extends (h : Sound body callEffect) (hext : Extends more callEffect)
    {index depth : Nat} {i : Instruction Nat} {e : StackEffect}
    (hr : Reached body callEffect index depth) (hp : Passes body more index depth i e) :
    Passes body callEffect index depth i e := by
  obtain ⟨e', he'⟩ := Option.isSome_iff_exists.mp (h.known hr hp.instruction)
  obtain rfl : e' = e := Option.some.inj ((effect?_of_extends hext he').symm.trans hp.effect)
  exact ⟨hp.instruction, he', hp.enough⟩

theorem Sound.reached_of_extends (h : Sound body callEffect) (hext : Extends more callEffect)
    {index depth : Nat} (hr : Reached body more index depth) :
    Reached body callEffect index depth := by
  induction hr with
  | start hs => exact .start hs
  | step _ hp hn ih => exact .step ih (h.passes_of_extends hext ih hp) hn

theorem Sound.occurs_of_extends (h : Sound body callEffect) (hext : Extends more callEffect)
    {n : Nat} (hn : Occurs body more n) : Occurs body callEffect n := by
  cases hn with
  | before hr hi => exact .before (h.reached_of_extends hext hr) hi
  | after hr hp =>
    have hr' := h.reached_of_extends hext hr
    exact .after hr' (h.passes_of_extends hext hr' hp)

end StackDepth

end CilCoverage
