/-
  Laying out a body loses nothing.

  Rounds of promotion only turn short branches into long ones (`Stretched`) and
  end where every short branch that is left reaches its target (`Settled`). The
  code of a settled body is its instructions at their positions (`laidOut`), so
  that decoding and lowering give the body back
  (`relink_roundtrip`).
-/
import CilCoverage.Layout
import CilCoverage.Proofs.Lowering

namespace CilCoverage

/-! ## Long forms -/

namespace OpCode

theorem operandKind_of_longForm? {op long : OpCode} (h : op.longForm? = some long) :
    op.operandKind = .target8 := by
  unfold longForm? at h
  split at h <;> first
    | (cases h; rfl)
    | cases h

/-- Every branch with a displacement of one byte has a long form. -/
theorem exists_longForm? {op : OpCode} (h : op.operandKind = .target8) :
    ∃ long, op.longForm? = some long := by
  have hall : ∀ op ∈ all, op.operandKind = .target8 → op.longForm?.isSome = true := by
    decide +kernel
  exact Option.isSome_iff_exists.mp (hall op (mem_all op) h)

theorem size_of_longForm? {op long : OpCode} (h : op.longForm? = some long) :
    long.size = op.size := by
  unfold longForm? at h
  split at h <;> first
    | (cases h; rfl)
    | cases h

end OpCode

namespace Layout

open Code

variable {α : Type}

theorem isShortBranch_iff {i : Instruction α} :
    isShortBranch i = true ↔ i.opcode.operandKind = .target8 := by
  simp [isShortBranch]

/-- The instruction with the long form of its opcode, if there is one. -/
def lengthen (i : Instruction α) : Instruction α :=
  { i with opcode := i.opcode.longForm?.getD i.opcode }

/-- The instruction `j` is the instruction `i`, but it may have the long form of its opcode. -/
structure Stretched (i j : Instruction α) : Prop where
  offset : j.offset = i.offset
  operand : j.operand = i.operand
  opcode : j.opcode = i.opcode ∨ i.opcode.longForm? = some j.opcode

namespace Stretched

theorem refl (i : Instruction α) : Stretched i i := ⟨rfl, rfl, Or.inl rfl⟩

theorem trans {i j k : Instruction α} (hij : Stretched i j) (hjk : Stretched j k) :
    Stretched i k := by
  refine ⟨hjk.offset.trans hij.offset, hjk.operand.trans hij.operand, ?_⟩
  rcases hij.opcode with hj | hj
  · rw [← hj]
    exact hjk.opcode
  · rcases hjk.opcode with hk | hk
    · exact Or.inr (hk ▸ hj)
    · -- a long form has no long form of its own
      have h1 := operandKind_longForm? hj
      rw [OpCode.operandKind_of_longForm? hk] at h1
      cases h1

theorem forall₂_trans {is js ks : List (Instruction α)} (hij : List.Forall₂ Stretched is js)
    (hjk : List.Forall₂ Stretched js ks) : List.Forall₂ Stretched is ks := by
  induction hij generalizing ks with
  | nil => exact hjk
  | cons h _ ih =>
    cases hjk with
    | cons h' hjk => exact .cons (h.trans h') (ih hjk)

theorem size_le {i j : Instruction α} (h : Stretched i j) :
    i.size ≤ j.size ∧ j.size ≤ (lengthen i).size := by
  have hsize : ∀ long, i.opcode.longForm? = some long →
      i.size + 3 = (⟨i.offset, long, i.operand⟩ : Instruction α).size := by
    intro long hlong
    simp only [Instruction.size, OpCode.operandKind_of_longForm? hlong,
      operandKind_longForm? hlong, OpCode.size_of_longForm? hlong, OperandKind.size?]
    rfl
  obtain ⟨offset, opcode, operand⟩ := j
  obtain ⟨rfl, rfl, hop⟩ := h
  rcases hop with rfl | hop
  · refine ⟨Nat.le_refl _, ?_⟩
    cases hlong : i.opcode.longForm? with
    | none =>
      rw [lengthen, hlong]
      exact Nat.le_refl _
    | some long =>
      have := hsize long hlong
      rw [lengthen, hlong]
      show i.size ≤ (⟨i.offset, long, i.operand⟩ : Instruction α).size
      omega
  · have : i.size + 3 = (⟨i.offset, opcode, i.operand⟩ : Instruction α).size := hsize opcode hop
    rw [lengthen, hop]
    exact ⟨by omega, Nat.le_refl _⟩

theorem fits {i j : Instruction α} (h : Stretched i j) (hi : i.fits = true) :
    j.fits = true := by
  unfold Instruction.fits at hi ⊢
  rw [h.operand]
  rcases h.opcode with hop | hop
  · rw [hop]
    exact hi
  · rw [OpCode.operandKind_of_longForm? hop] at hi
    rw [operandKind_longForm? hop]
    cases ho : i.operand <;> simp_all [OperandKind.admits]

theorem forall_fits {is js : List (Instruction α)} (h : List.Forall₂ Stretched is js)
    (hfits : ∀ i ∈ is, i.fits = true) : ∀ j ∈ js, j.fits = true := by
  intro j hj
  obtain ⟨i, hi, hij⟩ := Result.exists_mem_left h hj
  exact hij.fits (hfits i hi)

theorem forall_targets {P : α → Prop} {is js : List (Instruction α)}
    (h : List.Forall₂ Stretched is js) (htargets : ∀ i ∈ is, ∀ t ∈ i.operand.targets, P t) :
    ∀ j ∈ js, ∀ t ∈ j.operand.targets, P t := by
  intro j hj t ht
  obtain ⟨i, hi, hij⟩ := Result.exists_mem_left h hj
  exact htargets i hi t (hij.operand ▸ ht)

end Stretched

/-! ## Rounds of promotion -/

/-- The short branch at a position, if it is one, reaches its target. -/
def InReach (starts : Array Nat) (offset : Nat) (i : Instruction Nat) : Prop :=
  isShortBranch i = true → ∀ t ∈ i.operand.targets,
    ∃ target, starts[t]? = some target ∧ isShort ((target : Int) - (offset + i.size : Nat)) = true

theorem promotion?_ok {starts : Array Nat} (offset : Nat) {i : Instruction Nat}
    (h : ∀ t ∈ i.operand.targets, t < starts.size) :
    ∃ long, promotion? starts offset i = .ok long := by
  unfold promotion?
  split
  · next t hshort ho =>
    have ht : t < starts.size := h t (by simp [ho, Operand.targets])
    obtain ⟨long, hlong⟩ := OpCode.exists_longForm? (isShortBranch_iff.mp hshort)
    rw [Array.getElem?_eq_getElem ht, hlong]
    dsimp only
    split
    · exact ⟨_, rfl⟩
    · exact ⟨_, rfl⟩
  · exact ⟨_, rfl⟩

/-- A short branch whose operand fits has one target. -/
theorem exists_target {i : Instruction α} (hfits : i.fits = true) (h : isShortBranch i = true) :
    ∃ t, i.operand = .target t := by
  unfold Instruction.fits at hfits
  rw [isShortBranch_iff.mp h] at hfits
  cases ho : i.operand <;> rw [ho] at hfits <;> cases hfits
  exact ⟨_, rfl⟩

theorem inReach_of_promotion? {starts : Array Nat} {offset : Nat} {i : Instruction Nat}
    (hfits : i.fits = true) (h : promotion? starts offset i = .ok none) :
    InReach starts offset i := by
  intro hshort t ht
  obtain ⟨u, ho⟩ := exists_target hfits hshort
  obtain rfl : t = u := by simpa [ho, Operand.targets] using ht
  unfold promotion? at h
  rw [hshort, ho] at h
  dsimp only at h
  split at h
  · cases h
  · next target htarget =>
    refine ⟨target, htarget, ?_⟩
    split at h
    · next hreach => exact hreach
    · split at h <;> cases h

theorem promote_ok {starts : Array Nat} (offset : Nat) {is : List (Instruction Nat)}
    (h : ∀ i ∈ is, ∀ t ∈ i.operand.targets, t < starts.size) :
    ∃ r, promote starts offset is = .ok r := by
  induction is generalizing offset with
  | nil => exact ⟨_, rfl⟩
  | cons i rest ih =>
    obtain ⟨hi, hrest⟩ := List.forall_mem_cons.mp h
    obtain ⟨long, hlong⟩ := promotion?_ok offset hi
    obtain ⟨r, hr⟩ := ih (offset + i.size) hrest
    rw [promote, hlong, hr]
    cases long with
    | none => exact ⟨_, rfl⟩
    | some opcode => exact ⟨_, rfl⟩

/-- One round only makes branches long. -/
theorem stretched_promote {starts : Array Nat} {offset : Nat} {is : List (Instruction Nat)}
    {r : List (Instruction Nat) × Nat} (h : promote starts offset is = .ok r) :
    List.Forall₂ Stretched is r.1 := by
  induction is generalizing offset r with
  | nil =>
    cases h
    exact .nil
  | cons i rest ih =>
    obtain ⟨long, hlong, h⟩ := Result.bind_eq_ok.mp h
    obtain ⟨s, hs, h⟩ := Result.bind_eq_ok.mp h
    cases long with
    | none =>
      cases h
      exact .cons (.refl i) (ih hs)
    | some opcode =>
      cases h
      exact .cons ⟨rfl, rfl, Or.inr (promotion?_eq_some hlong).2⟩ (ih hs)

/-- A round that makes no branch long finds every short branch in reach. -/
theorem inReach_of_promote {starts : Array Nat} {offset : Nat} {is js : List (Instruction Nat)}
    (hfits : ∀ i ∈ is, i.fits = true) (h : promote starts offset is = .ok (js, 0)) :
    js = is ∧ ∀ k i, is[k]? = some i → InReach starts (offset + position is k) i := by
  induction is generalizing offset js with
  | nil =>
    cases h
    exact ⟨rfl, by simp⟩
  | cons i rest ih =>
    obtain ⟨hi, hrest⟩ := List.forall_mem_cons.mp hfits
    obtain ⟨long, hlong, h⟩ := Result.bind_eq_ok.mp h
    obtain ⟨⟨js', n⟩, hs, h⟩ := Result.bind_eq_ok.mp h
    cases long with
    | none =>
      cases h
      obtain ⟨rfl, hreach⟩ := ih hrest hs
      refine ⟨rfl, ?_⟩
      intro k j hj
      cases k with
      | zero =>
        obtain rfl : i = j := by simpa using hj
        rw [position_zero, Nat.add_zero]
        exact inReach_of_promotion? hi hlong
      | succ k =>
        have := hreach k j (by simpa using hj)
        rw [position, List.map_cons, begins_cons_succ, ← Nat.add_assoc]
        exact this
    | some opcode => cases h

/-- Every short branch reaches its target. -/
def Settled (is : List (Instruction Nat)) : Prop :=
  ∀ k i, is[k]? = some i → InReach (offsets is).toArray (position is k) i

theorem length_offsets (is : List (Instruction α)) : (offsets is).length = is.length + 1 := by
  rw [offsets, length_prefixSums, List.length_map]

theorem getElem?_offsets {is : List (Instruction α)} {k : Nat} (h : k ≤ is.length) :
    (offsets is)[k]? = some (position is k) := by
  rw [offsets, getElem?_prefixSums_begins (by rwa [List.length_map]), Nat.zero_add, position]

theorem settle_of_zero {is js : List (Instruction Nat)}
    (h : promote (offsets is).toArray 0 is = .ok (js, 0)) : settle is = .ok (js, 0) := by
  rw [settle]
  split <;> simp_all

theorem settle_of_succ {is js : List (Instruction Nat)} {n : Nat}
    (h : promote (offsets is).toArray 0 is = .ok (js, n + 1)) :
    settle is = (settle js).map fun r => (r.1, r.2 + (n + 1)) := by
  rw [settle]
  split <;> simp_all

/-- Promotion ends, with every short branch in reach. -/
theorem settle_ok {is : List (Instruction Nat)} (hfits : ∀ i ∈ is, i.fits = true)
    (htargets : ∀ i ∈ is, ∀ t ∈ i.operand.targets, t ≤ is.length) :
    ∃ js n, settle is = .ok (js, n) ∧ List.Forall₂ Stretched is js ∧
      shortBranches js + n = shortBranches is ∧ Settled js := by
  have hsize : (offsets is).toArray.size = is.length + 1 := by
    rw [List.size_toArray, length_offsets]
  obtain ⟨⟨js, n⟩, hround⟩ : ∃ r, promote (offsets is).toArray 0 is = .ok r :=
    promote_ok 0 fun i hi t ht => by
      have := htargets i hi t ht
      omega
  have hcount : shortBranches js + n = shortBranches is := shortBranches_promote hround
  cases n with
  | zero =>
    obtain ⟨rfl, hreach⟩ := inReach_of_promote hfits hround
    refine ⟨js, 0, settle_of_zero hround, List.forall₂_same.mpr fun i _ => .refl i, hcount, ?_⟩
    intro k i hi
    have := hreach k i hi
    rwa [Nat.zero_add] at this
  | succ n =>
    have hstretched : List.Forall₂ Stretched is js := stretched_promote hround
    have hlen := hstretched.length_eq
    have htargets' := Stretched.forall_targets hstretched htargets
    rw [hlen] at htargets'
    obtain ⟨ks, m, hks, hstretched', hcount', hsettled⟩ :=
      settle_ok (Stretched.forall_fits hstretched hfits) htargets'
    refine ⟨ks, m + (n + 1), ?_, Stretched.forall₂_trans hstretched hstretched', by omega,
      hsettled⟩
    rw [settle_of_succ hround, hks]
    rfl
termination_by shortBranches is

/-! ## Instructions at their positions -/

/-- The instructions at their positions, with positions as targets. -/
def laidOut (is : List (Instruction Nat)) : List (Instruction Nat) :=
  is.mapIdx fun k i => ⟨position is k, i.opcode, i.operand.mapTargets (position is)⟩

/-- The instructions at their positions, with indices as targets. -/
def settled (is : List (Instruction Nat)) : List (Instruction Nat) :=
  is.mapIdx fun k i => { i with offset := position is k }

section LaidOut

variable {is : List (Instruction Nat)}

theorem length_laidOut (is : List (Instruction Nat)) : (laidOut is).length = is.length :=
  List.length_mapIdx

theorem getElem?_laidOut (is : List (Instruction Nat)) (k : Nat) :
    (laidOut is)[k]? = is[k]?.map fun i =>
      ⟨position is k, i.opcode, i.operand.mapTargets (position is)⟩ :=
  List.getElem?_mapIdx

theorem mem_laidOut {j : Instruction Nat} (h : j ∈ laidOut is) :
    ∃ k i, is[k]? = some i ∧ j = ⟨position is k, i.opcode, i.operand.mapTargets (position is)⟩ := by
  obtain ⟨k, hk, rfl⟩ := List.mem_mapIdx.mp h
  exact ⟨k, is[k], List.getElem?_eq_getElem hk, rfl⟩

theorem position_laidOut (is : List (Instruction Nat)) (k : Nat) :
    position (laidOut is) k = position is k := by
  refine position_congr ?_ k
  rw [List.forall₂_iff_get]
  refine ⟨(length_laidOut is).symm, ?_⟩
  intro k h₁ h₂
  rw [List.get_eq_getElem, List.get_eq_getElem]
  simp only [laidOut, List.getElem_mapIdx]
  exact Instruction.size_eq_of_shape rfl (Operand.shape_mapTargets _ _)

theorem streamSize_laidOut (is : List (Instruction Nat)) :
    streamSize (laidOut is) = streamSize is := by
  rw [← position_length, ← position_length, length_laidOut, position_laidOut]

theorem contiguous_laidOut (is : List (Instruction Nat)) : Contiguous 0 (laidOut is) := by
  rw [contiguous_iff]
  intro k j hj
  rw [getElem?_laidOut, Option.map_eq_some_iff] at hj
  obtain ⟨i, -, rfl⟩ := hj
  rw [position_laidOut, Nat.zero_add]

theorem starts_getElem? {k : Nat} (h : k ≤ is.length) :
    (offsets is).toArray[k]? = some (position is k) := by
  rw [List.getElem?_toArray, getElem?_offsets h]

/-- Every short branch of settled instructions can be written. -/
theorem reaches_laidOut (hsettled : Settled is)
    (htargets : ∀ i ∈ is, ∀ t ∈ i.operand.targets, t ≤ is.length) :
    ∀ j ∈ laidOut is, Reaches j := by
  intro j hj
  obtain ⟨k, i, hi, rfl⟩ := mem_laidOut hj
  intro hkind u hu
  rw [Operand.targets_mapTargets] at hu
  obtain ⟨t, ht, rfl⟩ := List.mem_map.mp hu
  obtain ⟨target, htarget, hreach⟩ := hsettled k i hi (isShortBranch_iff.mpr hkind) t ht
  rw [starts_getElem? (htargets i (List.mem_of_getElem? hi) t ht)] at htarget
  obtain rfl := Option.some.inj htarget
  have hsize : (⟨position is k, i.opcode, i.operand.mapTargets (position is)⟩ :
      Instruction Nat).size = i.size :=
    Instruction.size_eq_of_shape rfl (Operand.shape_mapTargets _ _)
  rw [displacement, hsize]
  exact of_decide_eq_true hreach

/-- Settled instructions can be written. -/
theorem encode_laidOut (hfits : ∀ i ∈ is, i.fits = true) (hsettled : Settled is)
    (htargets : ∀ i ∈ is, ∀ t ∈ i.operand.targets, t ≤ is.length) :
    ∃ code, encode (laidOut is) = .ok code := by
  refine exists_encodeFrom (contiguous_laidOut is) fun j hj => ⟨?_, ?_⟩
  · obtain ⟨k, i, hi, rfl⟩ := mem_laidOut hj
    rw [Instruction.fits, ← OperandKind.admits_shape, Operand.shape_mapTargets,
      OperandKind.admits_shape]
    exact hfits i (List.mem_of_getElem? hi)
  · exact reaches_laidOut hsettled htargets j hj

theorem locate_laidOut (htargets : ∀ i ∈ is, ∀ t ∈ i.operand.targets, t ≤ is.length) :
    (((offsets is).zip is).mapM fun (offset, i) => locate (offsets is).toArray offset i) =
      .ok (laidOut is) := by
  rw [Result.mapM_eq_ok, List.forall₂_iff_get]
  have hlen : ((offsets is).zip is).length = is.length := by
    rw [List.length_zip, length_offsets]
    omega
  refine ⟨by rw [hlen, length_laidOut], ?_⟩
  intro k h₁ h₂
  have hk : k < is.length := by rwa [hlen] at h₁
  have hoffset : (offsets is)[k]? = some (position is k) := getElem?_offsets (Nat.le_of_lt hk)
  obtain ⟨hk', hoffset⟩ := List.getElem?_eq_some_iff.mp hoffset
  rw [List.get_eq_getElem, List.get_eq_getElem, List.getElem_zip, hoffset]
  simp only [laidOut, List.getElem_mapIdx, locate]
  exact Instruction.mapTargetsM_ok_of_forall fun t ht => by
    rw [starts_getElem? (htargets _ (List.getElem_mem hk) t ht)]

theorem locateClause_eq {c : Clause Nat} (h : ∀ p ∈ c.positions, p ≤ is.length) :
    locateClause (offsets is).toArray c = .ok (c.map (position is)) := by
  have hstart : c.tryStart ≤ is.length := h _ (by simp [Clause.positions])
  rw [locateClause, starts_getElem? hstart]
  exact Clause.mapM_ok_of_forall fun p hp => by rw [starts_getElem? (h p hp)]

/-- Lowering gives back the indices. -/
theorem lower_laidOut {clauses : List (Clause Nat)}
    (htargets : ∀ i ∈ is, ∀ t ∈ i.operand.targets, t < is.length)
    (hclauses : ∀ c ∈ clauses, ∀ p ∈ c.positions, p ≤ is.length) :
    LabelledBody.lower (laidOut is) (clauses.map (Clause.map (position is))) (streamSize is) =
      .ok ⟨settled is, clauses⟩ := by
  have hc := contiguous_laidOut is
  have hinstructions : ((laidOut is).mapM fun i =>
      i.mapTargetsM (LabelledBody.boundary (laidOut is) i.offset)) = .ok (settled is) := by
    rw [Result.mapM_eq_ok, List.forall₂_iff_get]
    refine ⟨by simp [laidOut, settled], ?_⟩
    intro k h₁ h₂
    have hk : k < is.length := by rwa [length_laidOut] at h₁
    rw [List.get_eq_getElem, List.get_eq_getElem]
    simp only [laidOut, settled, List.getElem_mapIdx]
    rw [Instruction.mapTargetsM_eq_ok]
    refine ⟨rfl, rfl, (Operand.shape_mapTargets _ _).symm, ?_⟩
    rw [Operand.targets_mapTargets, List.forall₂_map_left_iff, List.forall₂_same]
    intro t ht
    have hlt : t < (laidOut is).length := by
      rw [length_laidOut]
      exact htargets _ (List.getElem_mem hk) t ht
    rw [← position_laidOut is t]
    exact LabelledBody.boundary_position hc hlt
  have hcs : ((clauses.map (Clause.map (position is))).mapM fun c =>
      c.mapM (LabelledBody.clauseBoundary (laidOut is) (streamSize is) c.tryStart)) =
        .ok clauses := by
    rw [Result.mapM_eq_ok, List.forall₂_map_left_iff, List.forall₂_same]
    intro c hmem
    apply Clause.mapM_map_eq_self
    intro p hp
    rw [← position_laidOut, ← streamSize_laidOut]
    exact LabelledBody.clauseBoundary_position hc (by
      rw [length_laidOut]
      exact hclauses c hmem p hp)
  rw [LabelledBody.lower, hinstructions, hcs]
  rfl

end LaidOut

end Layout

namespace LabelledBody

open Code Layout

/-- What a body was laid out to: the instructions `is` of the body, some of them made long, at
their positions. -/
structure LaidOutTo (body : LabelledBody) (is : List (Instruction Nat)) (r : Relinked) : Prop where
  stretched : List.Forall₂ Stretched body.instructions is
  promoted : shortBranches is + r.promoted = shortBranches body.instructions
  code : encode (laidOut is) = .ok r.code
  clauses : r.clauses = body.clauses.map (Clause.map (position is))

/-- Once the branches are settled, only clauses can keep a body from being laid out. -/
theorem relink_of_settle {body : LabelledBody} {is : List (Instruction Nat)} {n : Nat}
    (hsettle : settle body.instructions = .ok (is, n)) (hfits : ∀ i ∈ is, i.fits = true)
    (hsettled : Settled is) (htargets : ∀ i ∈ is, ∀ t ∈ i.operand.targets, t ≤ is.length) :
    ∃ code, encode (laidOut is) = .ok code ∧
      body.relink = (body.clauses.mapM (locateClause (offsets is).toArray)).map
        (⟨code, ·, n⟩) := by
  obtain ⟨code, hcode⟩ := encode_laidOut hfits hsettled htargets
  refine ⟨code, hcode, ?_⟩
  rw [relink, hsettle]
  simp only [bind, Except.bind]
  rw [locate_laidOut htargets]
  simp only [hcode]
  cases body.clauses.mapM (locateClause (offsets is).toArray) <;> rfl

/-- A well-formed body can be laid out. -/
theorem relink_ok {body : LabelledBody} (h : body.WellFormed) :
    ∃ is r, body.relink = .ok r ∧ LaidOutTo body is r := by
  have htargets : ∀ i ∈ body.instructions, ∀ t ∈ i.operand.targets,
      t ≤ body.instructions.length := fun i hi t ht => Nat.le_of_lt (h.targets i hi t ht)
  obtain ⟨is, n, hsettle, hstretched, hcount, hsettled⟩ := settle_ok h.fits htargets
  have hlen := hstretched.length_eq
  have htargets' := Stretched.forall_targets hstretched htargets
  rw [hlen] at htargets'
  obtain ⟨code, hcode, hrelink⟩ := relink_of_settle hsettle
    (Stretched.forall_fits hstretched h.fits) hsettled htargets'
  have hclauses : body.clauses.mapM (locateClause (offsets is).toArray) =
      .ok (body.clauses.map (Clause.map (position is))) :=
    Result.mapM_ok_of_forall fun c hc => locateClause_eq (by
      rw [← hlen]
      exact h.clauses c hc)
  rw [hclauses] at hrelink
  exact ⟨is, _, hrelink, hstretched, hcount, hcode, rfl⟩

/-- The instruction `j` is the instruction `i`, laid out at index `k` of `is`. -/
structure Relaid (is : List (Instruction Nat)) (k : Nat) (i j : Instruction Nat) : Prop where
  offset : j.offset = position is k
  operand : j.operand = i.operand.mapTargets (position is)
  opcode : j.opcode = i.opcode ∨ i.opcode.longForm? = some j.opcode

namespace Relaid

variable {is : List (Instruction Nat)} {k : Nat} {i j : Instruction Nat} (h : Relaid is k i j)
include h

/-- Only branches change their opcode. -/
theorem opcode_eq (hkind : i.opcode.operandKind ≠ .target8 ∨ j.opcode.operandKind ≠ .target32) :
    j.opcode = i.opcode := by
  rcases h.opcode with hop | hop
  · exact hop
  · rcases hkind with hkind | hkind
    · exact absurd (OpCode.operandKind_of_longForm? hop) hkind
    · exact absurd (operandKind_longForm? hop) hkind

theorem shape : j.operand.shape = i.operand.shape := by
  rw [h.operand, Operand.shape_mapTargets]

theorem isCallTo (method : Token) : j.isCallTo method = i.isCallTo method := by
  by_cases hop : j.opcode = i.opcode
  · exact Instruction.isCallTo_eq_of_shape hop h.shape method
  · -- a branch is no call, whichever form it has
    have hi : i.opcode ≠ .call := fun hcall =>
      hop (h.opcode_eq (Or.inl (by rw [hcall]; decide)))
    have hj : j.opcode ≠ .call := fun hcall =>
      hop (h.opcode_eq (Or.inr (by rw [hcall]; decide)))
    rw [Bool.eq_iff_iff, Instruction.isCallTo_eq_true, Instruction.isCallTo_eq_true]
    exact iff_of_false (fun hc => hj hc.1) (fun hc => hi hc.1)

end Relaid

namespace LaidOutTo

variable {body : LabelledBody} {is : List (Instruction Nat)} {r : Relinked}
  (hr : LaidOutTo body is r) (h : body.WellFormed)
include hr

theorem length_code : r.code.length = streamSize is := by
  rw [(of_encodeFrom hr.code).2.1, streamSize_laidOut]

theorem length_laidOut : (laidOut is).length = body.instructions.length := by
  rw [Layout.length_laidOut, hr.stretched.length_eq]

theorem exists_relaid {k : Nat} {i : Instruction Nat} (hi : body.instructions[k]? = some i) :
    ∃ j, (laidOut is)[k]? = some j ∧ Relaid is k i j := by
  obtain ⟨hk, rfl⟩ := List.getElem?_eq_some_iff.mp hi
  have hk' : k < is.length := by rwa [← hr.stretched.length_eq]
  have hstretched : Stretched body.instructions[k] is[k] := hr.stretched.get hk hk'
  refine ⟨⟨position is k, is[k].opcode, is[k].operand.mapTargets (position is)⟩, ?_, rfl, ?_,
    hstretched.opcode⟩
  · rw [getElem?_laidOut, List.getElem?_eq_getElem hk', Option.map_some]
  · rw [hstretched.operand]

theorem exists_original {k : Nat} {j : Instruction Nat} (hj : (laidOut is)[k]? = some j) :
    ∃ i, body.instructions[k]? = some i ∧ Relaid is k i j := by
  obtain ⟨hk, -⟩ := List.getElem?_eq_some_iff.mp hj
  rw [hr.length_laidOut] at hk
  obtain ⟨j', hj', hrelaid⟩ := hr.exists_relaid (List.getElem?_eq_getElem hk)
  obtain rfl : j' = j := Option.some.inj (hj'.symm.trans hj)
  exact ⟨_, List.getElem?_eq_getElem hk, hrelaid⟩

include h

theorem targets_lt : ∀ i ∈ is, ∀ t ∈ i.operand.targets, t < is.length := by
  have htargets := Stretched.forall_targets hr.stretched h.targets
  rwa [hr.stretched.length_eq] at htargets

theorem targets_lt_length_code :
    ∀ j ∈ laidOut is, ∀ u ∈ j.operand.targets, u < r.code.length := by
  intro j hj u hu
  obtain ⟨k, i, hi, rfl⟩ := mem_laidOut hj
  rw [Operand.targets_mapTargets] at hu
  obtain ⟨t, ht, rfl⟩ := List.mem_map.mp hu
  rw [hr.length_code, ← position_length]
  exact position_lt (hr.targets_lt h i (List.mem_of_getElem? hi) t ht) (Nat.le_refl _)

theorem decode_eq (hlen : r.code.length ≤ 2 ^ 31) : decode r.code = .ok (laidOut is) :=
  decode_encode hr.code hlen (hr.targets_lt_length_code h)

theorem eq_of_decode (hlen : r.code.length ≤ 2 ^ 32) {js : List (Instruction Nat)}
    (hd : decode r.code = .ok js) : js = laidOut is :=
  eq_of_decode_encode hr.code hlen (hr.targets_lt_length_code h) hd

theorem lower_eq :
    lower (laidOut is) r.clauses r.code.length = .ok ⟨settled is, body.clauses⟩ := by
  rw [hr.clauses, hr.length_code]
  apply lower_laidOut (hr.targets_lt h)
  intro c hc p hp
  rw [← hr.stretched.length_eq]
  exact h.clauses c hc p hp

end LaidOutTo

/-! ## The way back -/

/-- Number of instructions that have another opcode. -/
def replaced (is js : List (Instruction Nat)) : Nat :=
  (is.zip js).countP fun p => p.2.opcode != p.1.opcode

/-- The bodies are the same, but `back` records where its instructions are laid out, and
`promoted` of them have the long form of their opcode. -/
structure SameButLaidOut (body back : LabelledBody) (promoted size : Nat) : Prop where
  clauses : back.clauses = body.clauses
  instructions : List.Forall₂
    (fun i j => j.operand = i.operand ∧
      (j.opcode = i.opcode ∨ isShortBranch i = true ∧ i.opcode.longForm? = some j.opcode))
    body.instructions back.instructions
  promoted : replaced body.instructions back.instructions = promoted
  offsets : back.instructions.map Instruction.offset ++ [size] = offsets back.instructions

theorem streamSize_le_of_stretched {is js : List (Instruction Nat)}
    (h : List.Forall₂ Stretched is js) : streamSize js ≤ streamSize (is.map lengthen) := by
  induction h with
  | nil => exact Nat.le_refl _
  | cons h _ ih =>
    have := h.size_le.2
    simp only [streamSize, List.map_cons, List.sum_cons] at ih ⊢
    omega

/-- What is replaced is no short branch any more, and nothing else is. -/
theorem replaced_add_shortBranches {is js : List (Instruction Nat)}
    (h : List.Forall₂ (fun i j => j.opcode = i.opcode ∨ i.opcode.longForm? = some j.opcode)
      is js) :
    replaced is js + shortBranches js = shortBranches is := by
  induction h with
  | nil => rfl
  | @cons i j is js h _ ih =>
    simp only [replaced, shortBranches, List.zip_cons_cons, List.countP_cons] at ih ⊢
    rcases h with hop | hop
    · have hshort : isShortBranch j = isShortBranch i := by
        rw [isShortBranch, isShortBranch, hop]
      have hne : (j.opcode != i.opcode) = false := by simp [hop]
      rw [hshort, hne]
      simp only [Bool.false_eq_true, if_false]
      omega
    · have hi := OpCode.operandKind_of_longForm? hop
      have hj := operandKind_longForm? hop
      have hshort : isShortBranch j = false := by simp [isShortBranch, hj]
      have hne : (j.opcode != i.opcode) = true := by
        rw [bne_iff_ne]
        intro heq
        rw [heq, hi] at hj
        cases hj
      rw [hshort, hne, isShortBranch_iff.mpr hi]
      simp only [Bool.false_eq_true, if_false, if_true]
      omega

theorem shortBranches_settled (is : List (Instruction Nat)) :
    shortBranches (settled is) = shortBranches is := by
  have hopcodes : (settled is).map Instruction.opcode = is.map Instruction.opcode := by
    apply List.ext_getElem (by simp [settled])
    intro k h₁ h₂
    simp [settled]
  have hcount : ∀ js : List (Instruction Nat), shortBranches js =
      (js.map Instruction.opcode).countP fun op => op.operandKind == .target8 := by
    intro js
    rw [List.countP_map]
    rfl
  rw [hcount, hcount, hopcodes]

theorem forall₂_settled {R : Instruction Nat → Instruction Nat → Prop}
    {is js : List (Instruction Nat)} (h : List.Forall₂ R is js)
    (hR : ∀ i j offset, R i j → R i { j with offset := offset }) :
    List.Forall₂ R is (settled js) := by
  rw [List.forall₂_iff_get] at h ⊢
  refine ⟨by rw [h.1, settled, List.length_mapIdx], ?_⟩
  intro k h₁ h₂
  have hk : k < js.length := by rwa [settled, List.length_mapIdx] at h₂
  have := hR _ _ (position js k) (h.2 k h₁ hk)
  simpa [settled] using this

theorem offsets_settled (is : List (Instruction Nat)) :
    (settled is).map Instruction.offset ++ [streamSize is] = offsets (settled is) := by
  have hsizes : (settled is).map Instruction.size = is.map Instruction.size := by
    apply List.ext_getElem (by simp [settled])
    intro k h₁ h₂
    simp only [settled, List.getElem_map, List.getElem_mapIdx]
    exact Instruction.size_eq_of_shape rfl rfl
  have hoffsets : offsets (settled is) = offsets is := by rw [offsets, offsets, hsizes]
  rw [hoffsets]
  apply List.ext_getElem?
  intro k
  rcases Nat.lt_trichotomy k is.length with hlt | rfl | hgt
  · rw [List.getElem?_append_left (by simpa [settled] using hlt), getElem?_offsets (by omega)]
    simp [settled, List.getElem?_eq_getElem hlt]
  · rw [getElem?_offsets (Nat.le_refl _), position_length,
      List.getElem?_append_right (by simp [settled])]
    simp [settled]
  · rw [List.getElem?_eq_none (by simp [settled]; omega),
      List.getElem?_eq_none (by rw [length_offsets]; omega)]

/-- A body is laid out, and decoding and lowering its code give it back. -/
theorem relink_roundtrip {body : LabelledBody} (h : body.WellFormed)
    (hsize : streamSize (body.instructions.map lengthen) < 2 ^ 31) :
    ∃ r code back, body.relink = .ok r ∧ decode r.code = .ok code ∧
      lower code r.clauses r.code.length = .ok back ∧
      SameButLaidOut body back r.promoted r.code.length := by
  obtain ⟨is, r, hrelink, hr⟩ := relink_ok h
  have hlen : r.code.length < 2 ^ 31 := by
    rw [hr.length_code]
    exact Nat.lt_of_le_of_lt (streamSize_le_of_stretched hr.stretched) hsize
  have hopcodes : List.Forall₂
      (fun i j => j.opcode = i.opcode ∨ i.opcode.longForm? = some j.opcode)
      body.instructions (settled is) :=
    forall₂_settled (hr.stretched.imp fun i j hij => hij.opcode) fun i j offset hij => hij
  have hreplaced := replaced_add_shortBranches hopcodes
  have hpromoted := hr.promoted
  rw [shortBranches_settled] at hreplaced
  refine ⟨r, laidOut is, ⟨settled is, body.clauses⟩, hrelink,
    hr.decode_eq h (Nat.le_of_lt hlen), hr.lower_eq h, rfl, ?_, ?_, ?_⟩
  · refine forall₂_settled (hr.stretched.imp fun i j hij => ⟨hij.operand, ?_⟩)
      fun i j offset hij => hij
    exact hij.opcode.imp_right fun hlong =>
      ⟨isShortBranch_iff.mpr (OpCode.operandKind_of_longForm? hlong), hlong⟩
  · show replaced body.instructions (settled is) = r.promoted
    omega
  · rw [hr.length_code]
    exact offsets_settled is

/-- A jump table between a short branch and its target, and a clause that ends with the body. -/
def farBody : LabelledBody where
  instructions :=
    [⟨0, .brS, .target 3⟩, ⟨2, .ldlocS, .var 1⟩, ⟨4, .switch, .table (List.replicate 40 1)⟩,
     ⟨169, .brfalseS, .target 1⟩, ⟨171, .ret, .none⟩]
  clauses := [⟨.filter 3, 0, 3, 4, 5⟩]

theorem relink_roundtrip_farBody :
    farBody.WellFormed ∧ streamSize (farBody.instructions.map lengthen) < 2 ^ 31 ∧
      ∃ r code back, farBody.relink = .ok r ∧ decode r.code = .ok code ∧
        lower code r.clauses r.code.length = .ok back ∧
        SameButLaidOut farBody back r.promoted r.code.length := by
  have h : farBody.WellFormed := ⟨by decide, by decide, by decide⟩
  have hsize : streamSize (farBody.instructions.map lengthen) < 2 ^ 31 := by decide
  exact ⟨h, hsize, relink_roundtrip h hsize⟩

end LabelledBody

end CilCoverage
