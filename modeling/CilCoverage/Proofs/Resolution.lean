/-
  How lowering resolves references.

  A body refers to offsets from its instructions and from its clauses
  (`references`); only a clause may refer to the end of the code. In code that
  was decoded offsets ascend, so looking one up yields the instruction there, if
  there is one (`indexOf?_eq_some_iff`). Lowering turns each reference into the
  index that was found (`lower_eq_ok_iff`), and reports the first one in order
  that does not resolve (`error?_lower`).
-/
import CilCoverage.Proofs.Lowering

namespace CilCoverage

theorem findSome?_flatMap {α β γ : Type} (g : α → List β) (p : β → Option γ) (xs : List α) :
    (xs.flatMap g).findSome? p = xs.findSome? fun x => (g x).findSome? p := by
  induction xs with
  | nil => rfl
  | cons x xs ih =>
    rw [List.flatMap_cons, List.findSome?_append, List.findSome?_cons, ih]
    cases (g x).findSome? p <;> rfl

open Result

/-- The targets of an operand are looked at in order. -/
theorem Operand.error?_mapTargetsM {α β ε : Type} (f : α → Except ε β) (o : Operand α) :
    error? (o.mapTargetsM f) = o.targets.findSome? fun t => error? (f t) := by
  cases o with
  | target t =>
    rw [mapTargetsM, error?_map, targets, List.findSome?_cons, List.findSome?_nil]
    cases error? (f t) <;> rfl
  | table ts => rw [mapTargetsM, error?_map, error?_mapM, targets]
  | _ => rfl

/-- Instructions that are the same but for their targets, which are related. -/
structure Instruction.Rel {α β : Type} (R : α → β → Prop) (i : Instruction α)
    (j : Instruction β) : Prop where
  offset : j.offset = i.offset
  opcode : j.opcode = i.opcode
  shape : j.operand.shape = i.operand.shape
  targets : List.Forall₂ R i.operand.targets j.operand.targets

theorem Instruction.mapTargetsM_eq_ok_rel {α β ε : Type} {f : α → Except ε β} {i : Instruction α}
    {j : Instruction β} : i.mapTargetsM f = .ok j ↔ i.Rel (fun t u => f t = .ok u) j := by
  rw [mapTargetsM_eq_ok]
  exact ⟨fun ⟨h₁, h₂, h₃, h₄⟩ => ⟨h₁, h₂, h₃, h₄⟩, fun ⟨h₁, h₂, h₃, h₄⟩ => ⟨h₁, h₂, h₃, h₄⟩⟩

/-- The positions of a clause are looked at in order, the filter start first. -/
theorem Clause.error?_mapM {α β ε : Type} (f : α → Except ε β) (c : Clause α) :
    error? (c.mapM f) = c.positions.findSome? fun p => error? (f p) := by
  have hranges : ∀ kind : ClauseKind β,
      error? (do
        let tryStart ← f c.tryStart
        let tryEnd ← f c.tryEnd
        let handlerStart ← f c.handlerStart
        let handlerEnd ← f c.handlerEnd
        .ok (⟨kind, tryStart, tryEnd, handlerStart, handlerEnd⟩ : Clause β)) =
      [c.tryStart, c.tryEnd, c.handlerStart, c.handlerEnd].findSome? fun p => error? (f p) := by
    intro kind
    simp only [List.findSome?_cons, List.findSome?_nil]
    cases f c.tryStart <;> cases f c.tryEnd <;> cases f c.handlerStart <;>
      cases f c.handlerEnd <;> rfl
  rw [mapM_eq_bind, error?_bind hranges, positions, List.findSome?_append]
  congr 1
  cases c.kind with
  | filter start =>
    rw [ClauseKind.mapM, error?_map, List.findSome?_cons, List.findSome?_nil]
    cases error? (f start) <;> rfl
  | _ => rfl

namespace LabelledBody

open Code

/-! ## References -/

/-- A place in a body that refers to an offset. -/
structure Reference where
  /-- Offset of the instruction, or start of the clause, that refers to it. -/
  source : Nat
  offset : Nat
  /-- The reference is from a clause, which may refer to the end of the code. -/
  inClause : Bool
  deriving DecidableEq

/-- What a body refers to: targets in the order of the instructions and of the entries of a
table, then for each clause the filter start, the region and the handler. -/
def references (is : List (Instruction Nat)) (clauses : List (Clause Nat)) : List Reference :=
  (is.flatMap fun i => i.operand.targets.map fun t => ⟨i.offset, t, false⟩) ++
    clauses.flatMap fun c => c.positions.map fun p => ⟨c.tryStart, p, true⟩

/-- There is an instruction at the offset, or it is the end of the code and a clause refers to
it. -/
def Reference.Resolves (is : List (Instruction Nat)) (size : Nat) (r : Reference) : Prop :=
  (∃ i ∈ is, i.offset = r.offset) ∨ r.inClause = true ∧ r.offset = size

/-- Looks up what a reference refers to. -/
def Reference.lookUp (is : List (Instruction Nat)) (size : Nat) (r : Reference) :
    Except NotABoundary Nat :=
  if r.inClause then clauseBoundary is size r.source r.offset else boundary is r.source r.offset

/-- Lowering reports what the first of its references reports. -/
theorem error?_lower (is : List (Instruction Nat)) (clauses : List (Clause Nat)) (size : Nat) :
    error? (lower is clauses size) =
      (references is clauses).findSome? fun r => error? (r.lookUp is size) := by
  have hclauses : error? (clauses.mapM fun c => c.mapM (clauseBoundary is size c.tryStart)) =
      (clauses.flatMap fun c => c.positions.map fun p =>
        (⟨c.tryStart, p, true⟩ : Reference)).findSome? fun r => error? (r.lookUp is size) := by
    simp only [error?_mapM, Clause.error?_mapM, findSome?_flatMap, List.findSome?_map]
    rfl
  have hinstructions : error? (is.mapM fun i => i.mapTargetsM (boundary is i.offset)) =
      (is.flatMap fun i => i.operand.targets.map fun t =>
        (⟨i.offset, t, false⟩ : Reference)).findSome? fun r => error? (r.lookUp is size) := by
    simp only [error?_mapM, Instruction.mapTargetsM, error?_map, Operand.error?_mapTargetsM,
      findSome?_flatMap, List.findSome?_map]
    rfl
  rw [lower, references, List.findSome?_append, ← hinstructions, ← hclauses]
  exact error?_bind fun lowered => error?_bind_ok _ (LabelledBody.mk lowered)

/-! ## What resolves -/

section Resolves

variable {is : List (Instruction Nat)} {clauses : List (Clause Nat)} {size offset : Nat}

theorem indexOf?_eq_none_iff : indexOf? is offset = none ↔ ¬ ∃ i ∈ is, i.offset = offset := by
  simp [indexOf?, List.findIdx?_eq_none_iff]

theorem error?_boundary (source : Nat) : error? (boundary is source offset) =
    if ∃ i ∈ is, i.offset = offset then none else some ⟨source, offset⟩ := by
  unfold boundary
  split
  · next k hk =>
    have hfound : ∃ i ∈ is, i.offset = offset := by
      by_contra hnone
      rw [indexOf?_eq_none_iff.mpr hnone] at hk
      cases hk
    rw [if_pos hfound]
    rfl
  · next hnone =>
    rw [if_neg (indexOf?_eq_none_iff.mp hnone)]
    rfl

instance (is : List (Instruction Nat)) (size : Nat) (r : Reference) :
    Decidable (r.Resolves is size) :=
  inferInstanceAs (Decidable (_ ∨ _))

/-- A reference that does not resolve is reported as it is. -/
theorem Reference.error?_lookUp (r : Reference) : error? (r.lookUp is size) =
    if r.Resolves is size then none else some ⟨r.source, r.offset⟩ := by
  obtain ⟨source, offset, inClause⟩ := r
  unfold lookUp Resolves
  cases inClause with
  | false => simp [error?_boundary]
  | true =>
    unfold clauseBoundary
    by_cases hend : offset = size
    · simp [hend, error?]
    · simp [hend, error?_boundary]

theorem Reference.error?_lookUp_eq_none {r : Reference} :
    error? (r.lookUp is size) = none ↔ r.Resolves is size := by
  rw [error?_lookUp]
  split <;> simp [*]

theorem Reference.error?_lookUp_eq_some {r : Reference} {e : NotABoundary} :
    error? (r.lookUp is size) = some e ↔ ¬ r.Resolves is size ∧ e = ⟨r.source, r.offset⟩ := by
  rw [error?_lookUp]
  split <;> simp [*, eq_comm]

theorem resolved_iff :
    Resolved is clauses size ↔ ∀ r ∈ references is clauses, r.Resolves is size := by
  simp only [references, List.forall_mem_append, List.forall_mem_flatMap, List.forall_mem_map]
  constructor
  · rintro ⟨htargets, hpositions⟩
    exact ⟨fun i hi t ht => Or.inl (htargets i hi t ht),
      fun c hc p hp => (hpositions c hc p hp).symm.imp_right fun h => ⟨rfl, h⟩⟩
  · rintro ⟨htargets, hpositions⟩
    refine ⟨fun i hi t ht => ?_, fun c hc p hp => ?_⟩
    · exact (htargets i hi t ht).resolve_right fun h => Bool.noConfusion h.1
    · exact (hpositions c hc p hp).symm.imp_left And.right

/-- Lowering succeeds exactly if all references resolve. -/
theorem exists_lower_iff :
    (∃ body, lower is clauses size = .ok body) ↔ Resolved is clauses size := by
  rw [← error?_eq_none, error?_lower, List.findSome?_eq_none_iff, resolved_iff]
  exact forall₂_congr fun r _ => Reference.error?_lookUp_eq_none

/-- Lowering reports the first reference that does not resolve. -/
theorem lower_eq_error_iff {e : NotABoundary} : lower is clauses size = .error e ↔
    ∃ before r after, references is clauses = before ++ r :: after ∧
      (∀ q ∈ before, q.Resolves is size) ∧ ¬ r.Resolves is size ∧ e = ⟨r.source, r.offset⟩ := by
  rw [← error?_eq_some, error?_lower, List.findSome?_eq_some_iff]
  refine exists₃_congr fun before r after => and_congr_right fun _ => ?_
  simp only [Reference.error?_lookUp_eq_none, Reference.error?_lookUp_eq_some]
  exact and_comm

end Resolves

/-! ## What references become -/

/-- The instruction with index `k` is at an offset. -/
def IsAt (is : List (Instruction Nat)) (offset k : Nat) : Prop :=
  ∃ i, is[k]? = some i ∧ i.offset = offset

/-- The body has the index of the instruction in place of each offset, and the number of
instructions in place of the end of the code; nothing else differs. -/
structure ResolvesTo (is : List (Instruction Nat)) (clauses : List (Clause Nat)) (size : Nat)
    (body : LabelledBody) : Prop where
  instructions : List.Forall₂ (Instruction.Rel (IsAt is)) is body.instructions
  clauses : List.Forall₂ (Clause.Rel fun p k => IsAt is p k ∨ p = size ∧ k = is.length)
    clauses body.clauses

section Indices

variable {is : List (Instruction Nat)} {clauses : List (Clause Nat)} {size source offset k : Nat}

/-- In ascending offsets, whatever is at the offset is what a search finds. -/
theorem indexOf?_eq_some_iff (hascending : is.Pairwise fun i j => i.offset < j.offset) :
    indexOf? is offset = some k ↔ IsAt is offset k := by
  refine ⟨exists_of_indexOf?, ?_⟩
  rintro ⟨i, hi, rfl⟩
  obtain ⟨hk, rfl⟩ := List.getElem?_eq_some_iff.mp hi
  refine List.findIdx?_eq_some_iff_getElem.mpr ⟨hk, by simp, fun j hj => ?_⟩
  have hlt := List.pairwise_iff_getElem.mp hascending j k (Nat.lt_trans hj hk) hk hj
  simp only [beq_iff_eq]
  omega

theorem boundary_eq_ok_iff (hascending : is.Pairwise fun i j => i.offset < j.offset) :
    boundary is source offset = .ok k ↔ IsAt is offset k := by
  rw [← indexOf?_eq_some_iff hascending, boundary]
  cases indexOf? is offset <;> simp

/-- The end of the code is behind all instructions, so it is not the offset of one. -/
theorem clauseBoundary_eq_ok_iff (hascending : is.Pairwise fun i j => i.offset < j.offset)
    (hend : ∀ i ∈ is, i.offset < size) : clauseBoundary is size source offset = .ok k ↔
      IsAt is offset k ∨ offset = size ∧ k = is.length := by
  unfold clauseBoundary
  split
  · next heq =>
    subst heq
    have hnot : ¬ IsAt is offset k := by
      rintro ⟨i, hi, hoffset⟩
      have := hend i (List.mem_of_getElem? hi)
      omega
    simp [hnot, eq_comm]
  · next hne => simp [boundary_eq_ok_iff hascending, hne]

/-- Lowering yields the one body that the references resolve to. -/
theorem lower_eq_ok_iff (hascending : is.Pairwise fun i j => i.offset < j.offset)
    (hend : ∀ i ∈ is, i.offset < size) {body : LabelledBody} :
    lower is clauses size = .ok body ↔ ResolvesTo is clauses size body := by
  have hinstructions (js : List (Instruction Nat)) :
      is.mapM (fun i => i.mapTargetsM (boundary is i.offset)) = .ok js ↔
        List.Forall₂ (Instruction.Rel (IsAt is)) is js := by
    simp only [mapM_eq_ok, Instruction.mapTargetsM_eq_ok_rel, boundary_eq_ok_iff hascending]
  have hclauses (ds : List (Clause Nat)) :
      clauses.mapM (fun c => c.mapM (clauseBoundary is size c.tryStart)) = .ok ds ↔
        List.Forall₂ (Clause.Rel fun p k => IsAt is p k ∨ p = size ∧ k = is.length) clauses ds := by
    simp only [mapM_eq_ok, Clause.mapM_eq_ok, clauseBoundary_eq_ok_iff hascending hend]
  rw [lower]
  constructor
  · intro h
    obtain ⟨js, hjs, h⟩ := bind_eq_ok.mp h
    obtain ⟨ds, hds, h⟩ := bind_eq_ok.mp h
    cases h
    exact ⟨(hinstructions js).mp hjs, (hclauses ds).mp hds⟩
  · rintro ⟨hjs, hds⟩
    rw [(hinstructions _).mpr hjs, (hclauses _).mpr hds]
    rfl

end Indices

/-! ## Code that was decoded -/

/-- Lowering decoded code: it succeeds exactly if every target is the offset of an instruction and
every position of a clause is one or the end of the code; the result has the index of that
instruction, or their number for the end, in place of each reference and is the same otherwise;
and it fails with the first reference that does not resolve. -/
theorem lower_resolves {code : Bytes} {is : List (Instruction Nat)} (hdecode : decode code = .ok is)
    (clauses : List (Clause Nat)) :
    ((∃ body, lower is clauses code.length = .ok body) ↔ Resolved is clauses code.length) ∧
      (∀ body, lower is clauses code.length = .ok body ↔
        ResolvesTo is clauses code.length body) ∧
      ∀ e, lower is clauses code.length = .error e ↔
        ∃ before r after, references is clauses = before ++ r :: after ∧
          (∀ q ∈ before, q.Resolves is code.length) ∧ ¬ r.Resolves is code.length ∧
          e = ⟨r.source, r.offset⟩ := by
  obtain ⟨hc, hsize, -⟩ := of_decode hdecode
  have hend : ∀ i ∈ is, i.offset < code.length := by
    intro i hi
    have hbounds := hc.bounds hi
    have hpos := i.size_pos
    omega
  exact ⟨exists_lower_iff, fun body => lower_eq_ok_iff hc.ascending hend,
    fun e => lower_eq_error_iff⟩

/-- `ldc.i4.0; switch (A, B); A: nop; br.s 0; B: ret`. -/
def switching : Bytes :=
  [0x16, 0x45, 2, 0, 0, 0, 0, 0, 0, 0, 3, 0, 0, 0, 0x00, 0x2b, 0xef, 0x2a]

def switchingCode : List (Instruction Nat) :=
  [⟨0, .ldcI40, .none⟩, ⟨1, .switch, .table [14, 17]⟩, ⟨14, .nop, .none⟩, ⟨15, .brS, .target 0⟩,
    ⟨17, .ret, .none⟩]

/-- A clause whose handler lasts to the end of the code. -/
def lasting : Clause Nat := ⟨.filter 14, 0, 14, 15, 18⟩

/-- A clause that starts within an instruction, and so does its filter. -/
def straying : Clause Nat := ⟨.filter 3, 2, 14, 15, 18⟩

def switchingBody : LabelledBody where
  instructions :=
    [⟨0, .ldcI40, .none⟩, ⟨1, .switch, .table [2, 4]⟩, ⟨14, .nop, .none⟩, ⟨15, .brS, .target 0⟩,
      ⟨17, .ret, .none⟩]
  clauses := [⟨.filter 2, 0, 2, 3, 5⟩]

theorem lower_resolves_switching :
    decode switching = .ok switchingCode ∧
      Resolved switchingCode [lasting] switching.length ∧
      ResolvesTo switchingCode [lasting] switching.length switchingBody ∧
      ∃ before r after, references switchingCode [lasting, straying] = before ++ r :: after ∧
        (∀ q ∈ before, q.Resolves switchingCode switching.length) ∧
        ¬ r.Resolves switchingCode switching.length ∧
        (⟨2, 3⟩ : NotABoundary) = ⟨r.source, r.offset⟩ := by
  have hdecode : decode switching = .ok switchingCode := by decide +kernel
  have hlower : lower switchingCode [lasting] switching.length = .ok switchingBody := by
    decide +kernel
  have hfails : lower switchingCode [lasting, straying] switching.length = .error ⟨2, 3⟩ := by
    decide +kernel
  obtain ⟨hsucceeds, hbody, -⟩ := lower_resolves hdecode [lasting]
  obtain ⟨-, -, herror⟩ := lower_resolves hdecode [lasting, straying]
  exact ⟨hdecode, hsucceeds.mp ⟨_, hlower⟩, (hbody _).mp hlower, (herror _).mp hfails⟩

end LabelledBody

end CilCoverage
