/-
  Bodies that nothing is inserted into.

  With the empty plan every block is a single instruction, so every entry is the
  index it was (`insertProbes_empty`). What was lowered from code is laid out
  where it was read from: the sizes are those of the code, so are the positions,
  and a displacement of one byte that was read is in range, so that the first
  round already makes no branch long (`settle_lowered`). Together they take
  code and clauses back to themselves (`relink_insertProbes_empty`).
-/
import CilCoverage.Proofs.Decoding
import CilCoverage.Proofs.Probes.Placement
import CilCoverage.Proofs.Promotion

namespace CilCoverage

open Code Layout

namespace LabelledBody

/-! ## The empty plan -/

section Empty

variable {body : LabelledBody} (probe : Token)

theorem home_empty (body : LabelledBody) (index : Nat) :
    home .empty probe body index = entry .empty probe body index := rfl

/-- Without probes an instruction is its own block. -/
theorem entry_empty {k : Nat} (h : k ≤ body.instructions.length) :
    entry .empty probe body k = k := by
  induction k with
  | zero => exact entry_zero
  | succ k ih =>
    have hk : body.instructions[k]? = some body.instructions[k] := List.getElem?_eq_getElem h
    rw [entry_succ_eq_home .empty probe hk, home_empty, ih (Nat.le_of_lt h)]
    rfl

/-- Inserting nothing gives back the body. -/
theorem insertProbes_empty (htargets : body.TargetsInRange)
    (hclauses : ∀ c ∈ body.clauses, ∀ p ∈ c.positions, p ≤ body.instructions.length) :
    body.insertProbes .empty probe = body := by
  have hlen : (body.insertProbes .empty probe).instructions.length = body.instructions.length := by
    rw [length_insertProbes, entry_empty probe (Nat.le_refl _)]
  have hinstructions : (body.insertProbes .empty probe).instructions = body.instructions := by
    apply List.ext_getElem?
    intro k
    rcases Nat.lt_or_ge k body.instructions.length with hk | hk
    · have hi := List.getElem?_eq_getElem hk
      have hat := insertProbes_at_home .empty probe hi
      rw [home_empty, entry_empty probe (Nat.le_of_lt hk)] at hat
      rw [hat, hi, Instruction.mapTargets_eq_self]
      intro t ht
      rw [newTarget_of_successors_eq_nil rfl]
      exact entry_empty probe (Nat.le_of_lt (htargets _ (List.getElem_mem hk) t ht))
    · rw [List.getElem?_eq_none hk, List.getElem?_eq_none (hlen ▸ hk)]
  have hclauses : (body.insertProbes .empty probe).clauses = body.clauses := by
    rw [clauses_insertProbes, List.map_congr_left, List.map_id']
    intro c hc
    exact Clause.map_eq_self fun p hp => entry_empty probe (hclauses c hc p hp)
  exact congr (congrArg mk hinstructions) hclauses

end Empty

/-! ## Laying out what was lowered -/

section Lowered

variable {is lowered : List (Instruction Nat)} (hlowers : List.Forall₂ (Lowers is) is lowered)
include hlowers

/-- Lowering moves nothing. -/
theorem position_lowered (k : Nat) : position lowered k = position is k :=
  position_congr (hlowers.imp fun _ _ h => h.size_eq) k

/-- An instruction that was lowered leads where it led in the code. -/
theorem operand_lowered {i j : Instruction Nat} (h : Lowers is i j) :
    j.operand.mapTargets (position lowered) = i.operand := by
  apply Operand.ext_shape
  · rw [Operand.shape_mapTargets, h.shape]
  · rw [Operand.targets_mapTargets, ← List.forall₂_eq_eq_eq, List.forall₂_map_left_iff]
    apply h.targets.flip.imp
    intro u t hu
    rw [position_lowered hlowers, hu.2]

/-- What was lowered is laid out where it was read from. -/
theorem laidOut_lowered (hc : Contiguous 0 is) : laidOut lowered = is := by
  apply List.ext_getElem
  · rw [length_laidOut, hlowers.length_eq]
  · intro k h₁ h₂
    have hk : k < lowered.length := by rwa [length_laidOut] at h₁
    have hj : Lowers is is[k] lowered[k] := hlowers.get h₂ hk
    have hoffset := contiguous_iff.mp hc k is[k] (List.getElem?_eq_getElem h₂)
    simp only [laidOut, List.getElem_mapIdx]
    rw [operand_lowered hlowers hj, position_lowered hlowers, hj.opcode,
      ← Nat.zero_add (position _ _), ← hoffset]

/-- Every short branch of code that can be written reaches its target already. -/
theorem farIndices_lowered (hc : Contiguous 0 is) (hreaches : ∀ i ∈ is, Reaches i) :
    farIndices lowered = ∅ := by
  rw [Finset.eq_empty_iff_forall_notMem]
  intro k hk
  obtain ⟨j, hj, hshort, u, hu, hfar⟩ := mem_farIndices.mp hk
  obtain ⟨hlt, rfl⟩ := List.getElem?_eq_some_iff.mp hj
  have hk' : k < is.length := by rwa [hlowers.length_eq]
  have hlowered : Lowers is is[k] lowered[k] := hlowers.get hk' hlt
  -- its displacement is the one that was read
  have hdistance : distance lowered k u = displacement is[k] (position is u) := by
    have hnext := position_succ (List.getElem?_eq_getElem hk')
    have hoffset := contiguous_iff.mp hc k is[k] (List.getElem?_eq_getElem hk')
    rw [distance, position_lowered hlowers, position_lowered hlowers, displacement, hnext, hoffset,
      Nat.zero_add]
  obtain ⟨t, ht, -, hut⟩ := Result.exists_mem_left hlowered.targets hu
  have hkind : is[k].opcode.operandKind = .target8 := by
    rw [← hlowered.opcode]
    exact isShortBranch_iff.mp hshort
  have hreach := hreaches _ (List.getElem_mem hk') hkind t ht
  rw [← hut, ← hdistance, ← isShort_iff, hfar] at hreach
  cases hreach

/-- A clause that was lowered covers what it covered in the code. -/
theorem clauses_lowered {clauses loweredClauses : List (Clause Nat)}
    (h : List.Forall₂ (Clause.Rel fun p q => q ≤ is.length ∧ position is q = p)
      clauses loweredClauses) :
    loweredClauses.map (Clause.map (position lowered)) = clauses := by
  rw [← List.forall₂_eq_eq_eq, List.forall₂_map_left_iff]
  apply h.flip.imp
  intro d c hcd
  refine Clause.Rel.map_eq (hcd.imp fun p q hpq => ?_)
  rw [position_lowered hlowers, hpq.2]

variable (htargets : ∀ j ∈ lowered, ∀ u ∈ j.operand.targets, u ≤ lowered.length)
include htargets

theorem settled_lowered (hc : Contiguous 0 is) (hreaches : ∀ i ∈ is, Reaches i) :
    Settled lowered := by
  have hfar := farIndices_lowered hlowers hc hreaches
  rw [← lengthenAt_empty lowered] at hfar ⊢
  exact settled_of_suffices (suffices_iff.mpr hfar) htargets

/-- The first round makes no branch long. -/
theorem settle_lowered (hc : Contiguous 0 is) (hreaches : ∀ i ∈ is, Reaches i)
    (hfits : ∀ j ∈ lowered, j.fits = true) : settle lowered = .ok (lowered, 0) := by
  apply settle_of_zero
  rw [promote_eq hfits htargets, farIndices_lowered hlowers hc hreaches, lengthenAt_empty,
    Finset.card_empty]

end Lowered

/-! ## From code to code -/

/-- Doing nothing changes nothing: a body that was lowered from code is the same with no probes,
and is laid out to the code and the clauses that it was lowered from, with no branch made long. -/
theorem relink_insertProbes_empty {code : Bytes} {is : List (Instruction Nat)}
    {clauses : List (Clause Nat)} {body : LabelledBody} (hdecode : decode code = .ok is)
    (hlower : lower is clauses code.length = .ok body) (probe : Token) :
    body.insertProbes .empty probe = body ∧ body.relink = .ok ⟨code, clauses, 0⟩ := by
  obtain ⟨hc, hsize, -⟩ := of_decode hdecode
  have hencode : encode is = .ok code := encodeFrom_of_decodeFrom hdecode
  obtain ⟨-, -, hwritten⟩ := of_encodeFrom hencode
  have hreaches : ∀ i ∈ is, Reaches i := fun i hi => (hwritten i hi).2
  rw [← hsize] at hlower
  obtain ⟨hlowers, hclauses⟩ := of_lower hc hlower
  have hwf : body.WellFormed := wellFormed_of_lower hc (fun i hi => (hwritten i hi).1) hlower
  have htargets : ∀ j ∈ body.instructions, ∀ u ∈ j.operand.targets, u ≤ body.instructions.length :=
    fun j hj u hu => Nat.le_of_lt (hwf.targets j hj u hu)
  refine ⟨insertProbes_empty probe hwf.targets hwf.clauses, ?_⟩
  obtain ⟨code', hcode', hrelink⟩ :=
    relink_of_settle (settle_lowered hlowers htargets hc hreaches hwf.fits) hwf.fits
      (settled_lowered hlowers htargets hc hreaches) htargets
  rw [laidOut_lowered hlowers hc, hencode] at hcode'
  cases hcode'
  rw [hrelink, Result.mapM_ok_of_forall fun c hc => locateClause_eq (hwf.clauses c hc),
    clauses_lowered hlowers hclauses]
  rfl

/-- Two short branches that reach as far as they can, one over a jump table with an entry that
leads back and one back over it, and an opcode of two bytes. -/
def fullReach : Bytes :=
  [0x00, 0x2b, 0x7f, 0x00, 0x45, 29, 0, 0, 0] ++
    (List.replicate 28 [5, 0, 0, 0]).flatten ++ [0x83, 0xff, 0xff, 0xff] ++
    [0x20, 1, 0, 0, 0, 0x2d, 0x80, 0xfe, 0x01, 0x2a]

/-- A filter in the middle of the code, whose handler ends with the code. -/
def fullReachClauses : List (Clause Nat) := [⟨.filter 125, 0, 125, 130, 135⟩]

/-- The body with indices. -/
def fullReachBody : LabelledBody where
  instructions :=
    [⟨0, .nop, .none⟩, ⟨1, .brS, .target 5⟩, ⟨3, .nop, .none⟩,
     ⟨4, .switch, .table (List.replicate 28 5 ++ [0])⟩, ⟨125, .ldcI4, .int32 1⟩,
     ⟨130, .brtrueS, .target 3⟩, ⟨132, .ceq, .none⟩, ⟨134, .ret, .none⟩]
  clauses := [⟨.filter 4, 0, 4, 5, 8⟩]

theorem relink_insertProbes_empty_fullReach :
    ∃ is, decode fullReach = .ok is ∧
      lower is fullReachClauses fullReach.length = .ok fullReachBody ∧
      fullReachBody.insertProbes .empty ⟨0x0a000001⟩ = fullReachBody ∧
      fullReachBody.relink = .ok ⟨fullReach, fullReachClauses, 0⟩ := by
  have hlowered : (decode fullReach).map (lower · fullReachClauses fullReach.length) =
      .ok (.ok fullReachBody) := by decide +kernel
  obtain ⟨is, hdecode, hlower⟩ := Result.map_eq_ok.mp hlowered
  exact ⟨is, hdecode, hlower, relink_insertProbes_empty hdecode hlower _⟩

end LabelledBody

end CilCoverage
