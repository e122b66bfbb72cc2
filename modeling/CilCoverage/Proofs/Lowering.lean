/-
  Between code offsets and instruction indices.

  In code whose instructions stand one behind the other, `position` tells where
  an instruction begins; the end of the code is the position after the last
  one. Positions grow strictly (`position_lt`), so an offset is the position of
  one index at most: lowering takes it back to this index
  (`boundary_position`), and fails on any other offset (`boundary_eq_ok`).
-/
import CilCoverage.Proofs.Clauses
import CilCoverage.Proofs.Encoding

namespace CilCoverage

/-! ## Positions of instructions -/

namespace Code

variable {α : Type} {is : List (Instruction α)}

/-- Where an instruction begins, and where the last one ends. -/
def position (is : List (Instruction α)) (k : Nat) : Nat := begins (is.map Instruction.size) k

theorem position_zero (is : List (Instruction α)) : position is 0 = 0 := begins_zero _

theorem position_length (is : List (Instruction α)) : position is is.length = streamSize is := by
  rw [position, streamSize, ← begins_length, List.length_map]

theorem position_succ {k : Nat} {i : Instruction α} (hi : is[k]? = some i) :
    position is (k + 1) = position is k + i.size := by
  obtain ⟨hk, rfl⟩ := List.getElem?_eq_some_iff.mp hi
  have hk' : k < (is.map Instruction.size).length := by rwa [List.length_map]
  rw [position, position, begins_succ hk', List.getElem_map]

theorem size_mem_pos : ∀ n ∈ is.map Instruction.size, 0 < n := by
  intro n hn
  obtain ⟨i, -, rfl⟩ := List.mem_map.mp hn
  exact i.size_pos

theorem position_lt {j k : Nat} (h : j < k) (hk : k ≤ is.length) :
    position is j < position is k :=
  begins_lt size_mem_pos h (by rwa [List.length_map])

theorem position_mono {j k : Nat} (h : j ≤ k) : position is j ≤ position is k := begins_mono h

theorem position_le (is : List (Instruction α)) (k : Nat) : position is k ≤ streamSize is :=
  begins_le_sum _ k

theorem position_inj {j k : Nat} (hj : j ≤ is.length) (hk : k ≤ is.length)
    (h : position is j = position is k) : j = k :=
  begins_inj size_mem_pos (by rwa [List.length_map]) (by rwa [List.length_map]) h

/-- Instructions stand one behind the other if each records its position. -/
theorem contiguous_iff {pos : Nat} : Contiguous pos is ↔
    ∀ k i, is[k]? = some i → i.offset = pos + position is k := by
  induction is generalizing pos with
  | nil => simp [Contiguous]
  | cons j rest ih =>
    rw [Contiguous, ih]
    constructor
    · rintro ⟨hj, hrest⟩ k i hi
      cases k with
      | zero =>
        obtain rfl : j = i := by simpa using hi
        rw [position_zero, hj, Nat.add_zero]
      | succ k =>
        rw [hrest k i (by simpa using hi), position, position, List.map_cons, begins_cons_succ,
          Nat.add_assoc]
    · intro h
      refine ⟨by rw [h 0 j (by simp), position_zero, Nat.add_zero], ?_⟩
      intro k i hi
      rw [h (k + 1) i (by simpa using hi), position, position, List.map_cons, begins_cons_succ,
        Nat.add_assoc]

/-- No two instructions record one position. -/
theorem Contiguous.index_unique {pos j k : Nat} {i i' : Instruction α} (hc : Contiguous pos is)
    (hj : is[j]? = some i) (hk : is[k]? = some i') (h : i.offset = i'.offset) : j = k := by
  have hposition : pos + position is j = pos + position is k := by
    rw [← contiguous_iff.mp hc j i hj, ← contiguous_iff.mp hc k i' hk, h]
  exact position_inj (Nat.le_of_lt (List.getElem?_eq_some_iff.mp hj).1)
    (Nat.le_of_lt (List.getElem?_eq_some_iff.mp hk).1) (Nat.add_left_cancel hposition)

/-- Offsets ascend strictly in the order of the instructions. -/
theorem Contiguous.ascending {pos : Nat} (hc : Contiguous pos is) :
    is.Pairwise fun i j => i.offset < j.offset := by
  rw [List.pairwise_iff_getElem]
  intro j k hj hk hlt
  rw [contiguous_iff.mp hc j _ (List.getElem?_eq_getElem hj),
    contiguous_iff.mp hc k _ (List.getElem?_eq_getElem hk)]
  exact Nat.add_lt_add_left (position_lt hlt (Nat.le_of_lt hk)) pos

/-- The positions depend on the sizes only. -/
theorem position_congr {β : Type} {js : List (Instruction β)}
    (h : List.Forall₂ (fun i j => j.size = i.size) is js) (k : Nat) :
    position js k = position is k := by
  have hsizes : js.map Instruction.size = is.map Instruction.size := by
    induction h with
    | nil => rfl
    | cons hsize _ ih => rw [List.map_cons, List.map_cons, hsize, ih]
  rw [position, position, hsizes]

end Code

open Code

/-! ## Bodies that refer to instructions only -/

namespace LabelledBody

/-- Every target is an instruction of the body. -/
def TargetsInRange (body : LabelledBody) : Prop :=
  ∀ i ∈ body.instructions, ∀ t ∈ i.operand.targets, t < body.instructions.length

instance (body : LabelledBody) : Decidable body.TargetsInRange :=
  inferInstanceAs (Decidable (∀ i ∈ body.instructions, _))

/-- Every target is an instruction, and every position of a clause is an instruction or the end
of the body. -/
structure Closed (body : LabelledBody) : Prop where
  targets : body.TargetsInRange
  clauses : ∀ c ∈ body.clauses, ∀ p ∈ c.positions, p ≤ body.instructions.length

/-- Every operand fits its opcode, every target is an instruction, and every position of a
clause is an instruction or the end of the body. -/
structure WellFormed (body : LabelledBody) : Prop where
  fits : ∀ i ∈ body.instructions, i.fits = true
  targets : body.TargetsInRange
  clauses : ∀ c ∈ body.clauses, ∀ p ∈ c.positions, p ≤ body.instructions.length

theorem WellFormed.closed {body : LabelledBody} (h : body.WellFormed) : body.Closed :=
  ⟨h.targets, h.clauses⟩

/-! ## Looking up offsets -/

theorem exists_of_indexOf? {α : Type} {is : List (Instruction α)} {offset k : Nat}
    (h : indexOf? is offset = some k) : ∃ i, is[k]? = some i ∧ i.offset = offset := by
  obtain ⟨hk, heq, -⟩ := List.findIdx?_eq_some_iff_getElem.mp h
  exact ⟨is[k], List.getElem?_eq_getElem hk, beq_iff_eq.mp heq⟩

/-- A greater offset is not found earlier. -/
theorem indexOf?_mono {α : Type} {is : List (Instruction α)} {a b j k : Nat}
    (hascending : is.Pairwise fun i j => i.offset ≤ j.offset) (hj : indexOf? is a = some j)
    (hk : indexOf? is b = some k) (hle : a ≤ b) : j ≤ k := by
  rcases Nat.lt_or_eq_of_le hle with hlt | rfl
  · by_contra hgt
    obtain ⟨i, hi, rfl⟩ := exists_of_indexOf? hj
    obtain ⟨i', hi', rfl⟩ := exists_of_indexOf? hk
    obtain ⟨hjlt, rfl⟩ := List.getElem?_eq_some_iff.mp hi
    obtain ⟨hklt, rfl⟩ := List.getElem?_eq_some_iff.mp hi'
    have hback := List.pairwise_iff_getElem.mp hascending k j hklt hjlt (Nat.lt_of_not_le hgt)
    exact absurd hlt (Nat.not_lt.mpr hback)
  · exact Nat.le_of_eq (Option.some.inj (hj.symm.trans hk))

variable {is : List (Instruction Nat)} {k offset source : Nat}

theorem indexOf?_position (hc : Contiguous 0 is) (hk : k < is.length) :
    indexOf? is (position is k) = some k := by
  have hoffset : ∀ j (hj : j < is.length), is[j].offset = position is j := by
    intro j hj
    rw [contiguous_iff.mp hc j _ (List.getElem?_eq_getElem hj), Nat.zero_add]
  rw [indexOf?, List.findIdx?_eq_some_iff_getElem]
  refine ⟨hk, by simp [hoffset], ?_⟩
  intro j hj
  have hlt := position_lt hj (Nat.le_of_lt hk)
  simp only [hoffset, beq_iff_eq]
  omega

theorem of_indexOf? (hc : Contiguous 0 is) (h : indexOf? is offset = some k) :
    k < is.length ∧ position is k = offset := by
  obtain ⟨i, hi, rfl⟩ := exists_of_indexOf? h
  refine ⟨(List.getElem?_eq_some_iff.mp hi).1, ?_⟩
  rw [contiguous_iff.mp hc k i hi, Nat.zero_add]

theorem boundary_position (hc : Contiguous 0 is) (hk : k < is.length) :
    boundary is source (position is k) = .ok k := by
  rw [boundary, indexOf?_position hc hk]

theorem boundary_eq_ok (hc : Contiguous 0 is) (h : boundary is source offset = .ok k) :
    k < is.length ∧ position is k = offset := by
  unfold boundary at h
  split at h
  · next index hindex =>
    cases h
    exact of_indexOf? hc hindex
  · cases h

theorem clauseBoundary_position (hc : Contiguous 0 is) (hk : k ≤ is.length) :
    clauseBoundary is (streamSize is) source (position is k) = .ok k := by
  unfold clauseBoundary
  split
  · next hend =>
    rw [← position_length] at hend
    rw [position_inj hk (Nat.le_refl _) hend]
  · next hend =>
    rw [← position_length] at hend
    refine boundary_position hc (Nat.lt_of_le_of_ne hk fun heq => hend ?_)
    rw [heq]

theorem clauseBoundary_eq_ok (hc : Contiguous 0 is)
    (h : clauseBoundary is (streamSize is) source offset = .ok k) :
    k ≤ is.length ∧ position is k = offset := by
  unfold clauseBoundary at h
  split at h
  · next hend =>
    cases h
    exact ⟨Nat.le_refl _, by rw [position_length, hend]⟩
  · obtain ⟨hk, hpos⟩ := boundary_eq_ok hc h
    exact ⟨Nat.le_of_lt hk, hpos⟩

/-! ## Lowering -/

/-- The instruction `j` is the instruction `i` of the code, with an index in place of each
offset. -/
structure Lowers (is : List (Instruction Nat)) (i j : Instruction Nat) : Prop where
  offset : j.offset = i.offset
  opcode : j.opcode = i.opcode
  shape : j.operand.shape = i.operand.shape
  targets : List.Forall₂ (fun t u => u < is.length ∧ position is u = t)
    i.operand.targets j.operand.targets

theorem Lowers.size_eq {i j : Instruction Nat} (h : Lowers is i j) : j.size = i.size :=
  Instruction.size_eq_of_shape h.opcode h.shape

theorem of_lower {clauses : List (Clause Nat)} {body : LabelledBody} (hc : Contiguous 0 is)
    (h : lower is clauses (streamSize is) = .ok body) :
    List.Forall₂ (Lowers is) is body.instructions ∧
      List.Forall₂ (Clause.Rel fun p q => q ≤ is.length ∧ position is q = p)
        clauses body.clauses := by
  obtain ⟨lowered, hlowered, h⟩ := Result.bind_eq_ok.mp h
  obtain ⟨loweredClauses, hclauses, h⟩ := Result.bind_eq_ok.mp h
  cases h
  constructor
  · apply (Result.mapM_eq_ok.mp hlowered).imp
    intro i j hij
    obtain ⟨hoffset, hop, hshape, htargets⟩ := Instruction.mapTargetsM_eq_ok.mp hij
    exact ⟨hoffset, hop, hshape, htargets.imp fun t u htu => boundary_eq_ok hc htu⟩
  · apply (Result.mapM_eq_ok.mp hclauses).imp
    intro c d hcd
    exact Clause.Rel.imp (fun p q hpq => clauseBoundary_eq_ok hc hpq) (Clause.mapM_eq_ok.mp hcd)

/-- Every target is an instruction, and so is every position of a clause but the end. -/
structure Resolved (is : List (Instruction Nat)) (clauses : List (Clause Nat)) (size : Nat) :
    Prop where
  targets : ∀ i ∈ is, ∀ t ∈ i.operand.targets, ∃ j ∈ is, j.offset = t
  positions : ∀ c ∈ clauses, ∀ p ∈ c.positions, p = size ∨ ∃ j ∈ is, j.offset = p

/-- What can be lowered refers to instructions only. -/
theorem resolved_of_lower {clauses : List (Clause Nat)} {body : LabelledBody}
    (hc : Contiguous 0 is) (h : lower is clauses (streamSize is) = .ok body) :
    Resolved is clauses (streamSize is) := by
  obtain ⟨hinstructions, hclauses⟩ := of_lower hc h
  have hat : ∀ k, k < is.length → ∃ j ∈ is, j.offset = position is k := by
    intro k hk
    have hget := List.getElem?_eq_getElem hk
    refine ⟨_, List.mem_of_getElem? hget, ?_⟩
    rw [contiguous_iff.mp hc k _ hget, Nat.zero_add]
  constructor
  · intro i hi t ht
    obtain ⟨j, -, hij⟩ := Result.exists_mem_right hinstructions hi
    obtain ⟨u, -, hu, rfl⟩ := Result.exists_mem_right hij.targets ht
    exact hat u hu
  · intro c hcl p hp
    obtain ⟨d, -, hcd⟩ := Result.exists_mem_right hclauses hcl
    obtain ⟨q, -, hq, rfl⟩ := Result.exists_mem_right hcd.positions hp
    rcases Nat.lt_or_eq_of_le hq with hlt | rfl
    · exact Or.inr (hat q hlt)
    · exact Or.inl (position_length is)

/-- Lowering yields a body that refers to its own instructions only. -/
theorem wellFormed_of_lower {clauses : List (Clause Nat)} {body : LabelledBody}
    (hc : Contiguous 0 is) (hfits : ∀ i ∈ is, i.fits = true)
    (h : lower is clauses (streamSize is) = .ok body) : body.WellFormed := by
  obtain ⟨hinstructions, hclauses⟩ := of_lower hc h
  have hlen := hinstructions.length_eq
  refine ⟨?_, ?_, ?_⟩
  · intro j hj
    obtain ⟨i, hi, hij⟩ := Result.exists_mem_left hinstructions hj
    rw [Instruction.fits, hij.opcode, ← OperandKind.admits_shape, hij.shape,
      OperandKind.admits_shape]
    exact hfits i hi
  · intro j hj u hu
    obtain ⟨i, -, hij⟩ := Result.exists_mem_left hinstructions hj
    obtain ⟨t, -, hu⟩ := Result.exists_mem_left hij.targets hu
    rw [← hlen]
    exact hu.1
  · intro d hd q hq
    obtain ⟨c, -, hcd⟩ := Result.exists_mem_left hclauses hd
    obtain ⟨p, -, hq⟩ := Result.exists_mem_left hcd.positions hq
    rw [← hlen]
    exact hq.1

end LabelledBody

end CilCoverage
