/-
  How deep the evaluation stack gets.

  Depths are followed along all ways through a body, from its start and from
  the start of each handler. An instruction is looked at once: when it is
  reached again, the depth has to be the one recorded. Each step takes one
  instruction off the pending ones, and only instructions without a depth are
  added to them (`weight_step`), so the walk ends.
-/
import CilCoverage.LabelledBody
import CilCoverage.Module

namespace CilCoverage.StackDepth

/-- Slots popped and pushed by an instruction, where `callEffect` tells it for calls. An
instruction that leaves the method counts as popping nothing. -/
def effect? (callEffect : Token → Option StackEffect) (i : Instruction Nat) :
    Option StackEffect :=
  match i.opcode with
  | .call | .callvirt | .newobj | .calli =>
    match i.operand with
    | .token t => callEffect t
    | _ => none
  | .ret | .jmp => some ⟨0, 0⟩
  | opcode => do
    let pop ← opcode.pop?
    let push ← opcode.push?
    some ⟨pop, push⟩

/-- The opcodes of calls. -/
def callOpcodes : List OpCode := [.call, .callvirt, .newobj, .calli]

/-- The opcodes that leave the method. -/
def leavingOpcodes : List OpCode := [.ret, .jmp]

section Effects

variable {callEffect : Token → Option StackEffect} {i : Instruction Nat}

/-- A call does what is told of its token. -/
theorem effect?_call (h : i.opcode ∈ callOpcodes) :
    effect? callEffect i =
      match i.operand with
      | .token token => callEffect token
      | _ => none := by
  simp only [callOpcodes, List.mem_cons, List.not_mem_nil, or_false] at h
  unfold effect?
  rcases h with h | h | h | h
  all_goals rw [h]

theorem effect?_leaving (h : i.opcode ∈ leavingOpcodes) :
    effect? callEffect i = some ⟨0, 0⟩ := by
  simp only [leavingOpcodes, List.mem_cons, List.not_mem_nil, or_false] at h
  unfold effect?
  rcases h with h | h
  all_goals rw [h]

/-- Any other instruction does what its opcode does, whatever is told about calls. -/
theorem effect?_other (hcall : i.opcode ∉ callOpcodes) (hleaving : i.opcode ∉ leavingOpcodes) :
    effect? callEffect i =
      i.opcode.pop?.bind fun pop => i.opcode.push?.map fun push => ⟨pop, push⟩ := by
  simp only [callOpcodes, leavingOpcodes, List.mem_cons, List.not_mem_nil, or_false,
    not_or] at hcall hleaving
  obtain ⟨hcall, hcallvirt, hnewobj, hcalli⟩ := hcall
  obtain ⟨hret, hjmp⟩ := hleaving
  unfold effect?
  split
  case h_7 => cases i.opcode.pop? <;> cases i.opcode.push? <;> rfl
  all_goals contradiction

end Effects

/-- Depths found so far, and the instructions still to be followed. -/
structure Walk where
  /-- Depth before each instruction. -/
  depths : List (Option Nat)
  pending : List Nat
  deriving DecidableEq, Repr

namespace Walk

/-- Nothing was reached in a body of `count` instructions. -/
def start (count : Nat) : Walk := ⟨List.replicate count none, []⟩

/-- Reaches an instruction with a depth; fails where there is none, or another depth. -/
def visit (w : Walk) (index depth : Nat) : Option Walk :=
  match w.depths[index]? with
  | none => none
  | some none => some ⟨w.depths.set index (some depth), index :: w.pending⟩
  | some (some known) => if known = depth then some w else none

/-- Reaches several instructions with one depth. -/
def visitAll (w : Walk) (depth : Nat) : List Nat → Option Walk
  | [] => some w
  | index :: rest => do
    let w ← w.visit index depth
    w.visitAll depth rest

/-- Number of pending instructions and of instructions without a depth. -/
def weight (w : Walk) : Nat := w.pending.length + w.depths.countP (· == none)

theorem countP_set_none {l : List (Option Nat)} {k d : Nat} (h : l[k]? = some none) :
    (l.set k (some d)).countP (· == none) + 1 = l.countP (· == none) := by
  induction l generalizing k with
  | nil => simp at h
  | cons x xs ih =>
    cases k with
    | zero =>
      have hx : x = none := by simpa using h
      subst hx
      simp
    | succ k =>
      have hk := ih (k := k) (by simpa using h)
      simp only [List.set_cons_succ, List.countP_cons]
      omega

theorem weight_visit {w v : Walk} {index depth : Nat} (h : w.visit index depth = some v) :
    v.weight = w.weight := by
  unfold visit at h
  split at h
  · cases h
  · next hn =>
    cases h
    have := countP_set_none (d := depth) hn
    simp only [weight, List.length_cons]
    omega
  · split at h
    · cases h
      rfl
    · cases h

theorem weight_visitAll {w v : Walk} {depth : Nat} {indices : List Nat}
    (h : w.visitAll depth indices = some v) : v.weight = w.weight := by
  induction indices generalizing w with
  | nil =>
    cases h
    rfl
  | cons index rest ih =>
    obtain ⟨u, hu, h⟩ := Option.bind_eq_some_iff.mp h
    rw [ih h, weight_visit hu]

end Walk

/-- Where control can go from the instruction at `index`, in a body of `count` instructions. -/
def nextIndices (count index : Nat) (i : Instruction Nat) : List Nat :=
  i.operand.targets ++
    if i.opcode.fallsThrough && decide (index + 1 < count) then [index + 1] else []

/-- Follows an instruction that was reached: the depth before it, the depth after it, and the
walk that goes on from there. -/
def step (instructions : List (Instruction Nat)) (callEffect : Token → Option StackEffect)
    (index : Nat) (w : Walk) : Option (Nat × Nat × Walk) := do
  let i ← instructions[index]?
  let depth ← (← w.depths[index]?)
  let effect ← effect? callEffect i
  if depth < effect.pop then none
  else
    let after := depth - effect.pop + effect.push
    let w ← w.visitAll (if i.opcode.clearsStack then 0 else after)
      (nextIndices instructions.length index i)
    some (depth, after, w)

theorem weight_step {instructions : List (Instruction Nat)}
    {callEffect : Token → Option StackEffect} {index : Nat} {w : Walk} {r : Nat × Nat × Walk}
    (h : step instructions callEffect index w = some r) : r.2.2.weight = w.weight := by
  obtain ⟨i, _, h⟩ := Option.bind_eq_some_iff.mp h
  obtain ⟨slot, _, h⟩ := Option.bind_eq_some_iff.mp h
  obtain ⟨depth, _, h⟩ := Option.bind_eq_some_iff.mp h
  obtain ⟨effect, _, h⟩ := Option.bind_eq_some_iff.mp h
  split at h
  · cases h
  · obtain ⟨v, hv, h⟩ := Option.bind_eq_some_iff.mp h
    cases h
    exact Walk.weight_visitAll hv

/-- Follows all pending instructions; the result is the greatest depth, or `deepest` if it is
greater. -/
def follow (instructions : List (Instruction Nat)) (callEffect : Token → Option StackEffect)
    (deepest : Nat) (w : Walk) : Option Nat :=
  match hp : w.pending with
  | [] => some deepest
  | index :: rest =>
    match h : step instructions callEffect index { w with pending := rest } with
    | none => none
    | some (before, after, v) =>
      have : v.weight < w.weight := by
        have h1 := weight_step h
        simp only [Walk.weight] at h1 ⊢
        rw [h1, hp]
        simp
      follow instructions callEffect (max deepest (max before after)) v
termination_by w.weight

/-- The instructions that a clause starts, each with the depth there. Handlers of exceptions
start with the exception on the stack. -/
def handlerStarts (c : Clause Nat) : List (Nat × Nat) :=
  match c.kind with
  | .catchType _ => [(c.handlerStart, 1)]
  | .filter start => [(start, 1), (c.handlerStart, 1)]
  | .finallyBlock | .fault => [(c.handlerStart, 0)]

/-- The greatest depth on any way through the body. There is none if a call has an unknown
effect, the depths of two ways to one instruction differ, a way runs out of the body or takes
too much off the stack, or the depth does not fit 16 bits. -/
def maxStack? (instructions : List (Instruction Nat)) (clauses : List (Clause Nat))
    (callEffect : Token → Option StackEffect) : Option Nat :=
  if instructions.isEmpty then some 0
  else do
    let starts := (0, 0) :: clauses.flatMap handlerStarts
    let w ← starts.foldlM (fun w (s : Nat × Nat) => w.visit s.1 s.2)
      (Walk.start instructions.length)
    let deepest ← follow instructions callEffect 0 w
    if deepest < UInt16.size then some deepest else none

end CilCoverage.StackDepth
