/-
  Machines that run bodies.

  A machine says what an instruction does to a state and which way it leaves;
  neither depends on where the targets of the instruction lie. A run visits
  instructions one after the other until it leaves the body, and running on
  adds visits at the end (`run_trans`).
-/
import CilCoverage.HitIds
import CilCoverage.Proofs.Operands

namespace CilCoverage

/-- Which way control leaves an instruction. -/
inductive Exit where
  /-- Out of the body. -/
  | stop
  /-- On to the instruction that follows. -/
  | next
  /-- To the target at a position of the operand. -/
  | target (position : Nat)
  deriving DecidableEq, Repr

/-- A machine with states of type `σ`. -/
structure Machine (σ : Type) where
  /-- The state after an instruction and the way it leaves, from its opcode, its operand
  without the targets, and the state before. -/
  perform : OpCode → Operand Unit → σ → σ × Exit
  /-- The id that a call of the probe reports in a state. -/
  argument : σ → HitId

namespace Machine

variable {σ : Type}

/-- An unconditional branch only jumps, and pushing an id and calling the probe with it only
reports the id. -/
structure Supports (m : Machine σ) (probe : Token) : Prop where
  jump : ∀ opcode state, opcode = .br ∨ opcode = .brS →
    m.perform opcode (.target ()) state = (state, .target 0)
  report : ∀ (id : HitId) state, ∃ pushed,
    m.perform .ldcI4 (.int32 id.toInt32) state = (pushed, .next) ∧ m.argument pushed = id ∧
      m.perform .call (.token probe) pushed = (state, .next)

/-- Where control is, unless the body was left, and the state. -/
structure Config (σ : Type) where
  index : Option Nat
  state : σ

/-- An instruction that was run, the state before it, and where control went. -/
structure Visit (σ : Type) where
  index : Nat
  state : σ
  next : Option Nat

/-- Where control goes from the instruction at `index`. -/
def follow (index : Nat) (i : Instruction Nat) : Exit → Option Nat
  | .stop => none
  | .next => some (index + 1)
  | .target position => i.operand.targets[position]?

/-- Runs one instruction, if there is one. -/
def step (m : Machine σ) (code : List (Instruction Nat)) (c : Config σ) :
    Option (Visit σ × Config σ) :=
  match c.index with
  | none => none
  | some index =>
    match code[index]? with
    | none => none
    | some i =>
      let r := m.perform i.opcode i.operand.shape c.state
      let next := follow index i r.2
      some (⟨index, c.state, next⟩, ⟨next, r.1⟩)

/-- Runs up to `n` instructions. -/
def run (m : Machine σ) (code : List (Instruction Nat)) :
    (n : Nat) → Config σ → List (Visit σ) × Config σ
  | 0, c => ([], c)
  | n + 1, c =>
    match m.step code c with
    | none => ([], c)
    | some (v, d) => (v :: (m.run code n d).1, (m.run code n d).2)

variable {m : Machine σ} {code : List (Instruction Nat)}

theorem step_of_getElem? {index : Nat} {i : Instruction Nat} {state after : σ} {exit : Exit}
    (hi : code[index]? = some i)
    (hp : m.perform i.opcode i.operand.shape state = (after, exit)) :
    m.step code ⟨some index, state⟩ =
      some (⟨index, state, follow index i exit⟩, ⟨follow index i exit, after⟩) := by
  simp only [step, hi, hp]

theorem run_of_step_eq_none {c : Config σ} (h : m.step code c = none) (n : Nat) :
    m.run code n c = ([], c) := by
  cases n with
  | zero => rfl
  | succ n => simp only [run, h]

theorem run_one {c d : Config σ} {v : Visit σ} (h : m.step code c = some (v, d)) :
    m.run code 1 c = ([v], d) := by
  simp only [run, h]

/-- A run of `a + b` steps is a run of `a` steps and one of `b` steps from where it ends. -/
theorem run_trans {a b : Nat} {c d e : Config σ} {vs ws : List (Visit σ)}
    (ha : m.run code a c = (vs, d)) (hb : m.run code b d = (ws, e)) :
    m.run code (a + b) c = (vs ++ ws, e) := by
  induction a generalizing c vs with
  | zero =>
    obtain ⟨rfl, rfl⟩ := Prod.mk.inj ha
    rwa [Nat.zero_add, List.nil_append]
  | succ a ih =>
    cases hs : m.step code c with
    | none =>
      obtain ⟨rfl, rfl⟩ := Prod.mk.inj ((run_of_step_eq_none hs _).symm.trans ha)
      rw [run_of_step_eq_none hs] at hb ⊢
      exact hb
    | some r =>
      obtain ⟨v, u⟩ := r
      simp only [run, hs, Prod.mk.injEq] at ha
      obtain ⟨rfl, hd⟩ := ha
      have hrest := ih (show m.run code a u = ((m.run code a u).1, d) from Prod.ext rfl hd)
      rw [Nat.add_right_comm]
      simp only [run, hs, hrest, List.cons_append]

theorem run_prefix {a b : Nat} (h : a ≤ b) (c : Config σ) :
    (m.run code a c).1 <+: (m.run code b c).1 := by
  obtain ⟨k, rfl⟩ := Nat.exists_eq_add_of_le h
  generalize ha : m.run code a c = ra
  generalize hb : m.run code k ra.2 = rb
  rw [run_trans ha hb]
  exact List.prefix_append _ _

end Machine

end CilCoverage
