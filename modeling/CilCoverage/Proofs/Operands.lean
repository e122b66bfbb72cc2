/-
  Operands apart from where their targets lie.

  An operand is determined by its shape and its targets (`ext_shape`), and
  replacing targets one by one keeps the shape (`mapTargetsM_eq_ok`). What an
  opcode asks for (`Instruction.fits`) and the encoded size look at the shape
  only.
-/
import CilCoverage.Instruction
import CilCoverage.Result
import Mathlib.Data.List.Forall2

namespace CilCoverage

/-! ## Traversals that can fail -/

namespace Result

variable {ε α β : Type} {f : α → Except ε β}

theorem mapM_eq_ok {xs : List α} {ys : List β} :
    xs.mapM f = .ok ys ↔ List.Forall₂ (fun x y => f x = .ok y) xs ys := by
  induction xs generalizing ys with
  | nil =>
    rw [List.mapM_nil, List.forall₂_nil_left_iff]
    exact ⟨fun h => (Except.ok.inj h).symm, fun h => h ▸ rfl⟩
  | cons x xs ih =>
    rw [List.mapM_cons, bind_eq_ok, List.forall₂_cons_left_iff]
    constructor
    · rintro ⟨y, hy, h⟩
      obtain ⟨zs, hzs, h⟩ := bind_eq_ok.mp h
      exact ⟨y, zs, hy, ih.mp hzs, (Except.ok.inj h).symm⟩
    · rintro ⟨y, zs, hy, hzs, rfl⟩
      refine ⟨y, hy, ?_⟩
      rw [ih.mpr hzs]
      rfl

/-- A traversal fails where one of its steps does. -/
theorem exists_of_mapM_eq_error {xs : List α} {e : ε} (h : xs.mapM f = .error e) :
    ∃ x ∈ xs, f x = .error e := by
  induction xs with
  | nil => cases h
  | cons x xs ih =>
    rw [List.mapM_cons] at h
    rcases bind_eq_error.mp h with hx | ⟨y, -, h⟩
    · exact ⟨x, List.mem_cons_self, hx⟩
    rcases bind_eq_error.mp h with hxs | ⟨ys, -, h⟩
    · obtain ⟨z, hz, hze⟩ := ih hxs
      exact ⟨z, List.mem_cons_of_mem x hz, hze⟩
    · cases h

/-- A traversal in which every step succeeds. -/
theorem mapM_ok_of_forall {g : α → β} {xs : List α} (h : ∀ x ∈ xs, f x = .ok (g x)) :
    xs.mapM f = .ok (xs.map g) := by
  rw [mapM_eq_ok, List.forall₂_map_right_iff, List.forall₂_same]
  exact h

theorem mapM_congr {g : α → Except ε β} {xs : List α} (h : ∀ x ∈ xs, f x = g x) :
    xs.mapM f = xs.mapM g := by
  induction xs with
  | nil => rfl
  | cons x xs ih =>
    rw [List.mapM_cons, List.mapM_cons, h x List.mem_cons_self,
      ih fun y hy => h y (List.mem_cons_of_mem x hy)]

theorem exists_mem_left {R : α → β → Prop} {xs : List α} {ys : List β}
    (h : List.Forall₂ R xs ys) {y : β} (hy : y ∈ ys) : ∃ x ∈ xs, R x y := by
  induction h with
  | nil => cases hy
  | cons hxy _ ih =>
    rcases List.mem_cons.mp hy with rfl | hy
    · exact ⟨_, List.mem_cons_self, hxy⟩
    · obtain ⟨x, hx, hxy⟩ := ih hy
      exact ⟨x, List.mem_cons_of_mem _ hx, hxy⟩

theorem exists_mem_right {R : α → β → Prop} {xs : List α} {ys : List β}
    (h : List.Forall₂ R xs ys) {x : α} (hx : x ∈ xs) : ∃ y ∈ ys, R x y :=
  exists_mem_left h.flip hx

/-- Lists that agree element by element. -/
theorem eq_of_forall₂ {R : α → α → Prop} {xs ys : List α} (h : List.Forall₂ R xs ys)
    (hR : ∀ x ∈ xs, ∀ y, R x y → y = x) : ys = xs := by
  induction h with
  | nil => rfl
  | cons hxy _ ih =>
    rw [hR _ List.mem_cons_self _ hxy, ih fun x hx => hR x (List.mem_cons_of_mem _ hx)]

end Result

namespace Operand

variable {α β γ ε : Type}

/-- The operand without its targets; a jump table keeps its length. -/
def shape (o : Operand α) : Operand Unit := o.mapTargets fun _ => ()

theorem shape_mapTargets (f : α → β) (o : Operand α) : (o.mapTargets f).shape = o.shape := by
  cases o with
  | table ts => simp [shape, mapTargets, Function.comp_def]
  | _ => rfl

theorem mapTargets_mapTargets (f : α → β) (g : β → γ) (o : Operand α) :
    (o.mapTargets f).mapTargets g = o.mapTargets (g ∘ f) := by
  cases o with
  | table ts => simp [mapTargets]
  | _ => rfl

theorem ext_shape {o p : Operand α} (hs : o.shape = p.shape) (ht : o.targets = p.targets) :
    o = p := by
  cases o <;> cases p <;> simp_all [shape, mapTargets, targets]

theorem mapTargets_eq_self {f : α → α} {o : Operand α} (h : ∀ t ∈ o.targets, f t = t) :
    o.mapTargets f = o := by
  apply ext_shape (shape_mapTargets f o)
  rw [targets_mapTargets, List.map_congr_left h, List.map_id']

theorem eq_token_iff_shape {o : Operand α} {t : Token} : o = token t ↔ o.shape = token t := by
  cases o <;> simp [shape, mapTargets]

theorem tableLength_eq_of_shape {o : Operand α} {p : Operand β} (h : o.shape = p.shape) :
    o.tableLength = p.tableLength := by
  rw [← tableLength_mapTargets (fun _ => ()) o, ← tableLength_mapTargets (fun _ => ()) p]
  exact congrArg tableLength h

/-- Replacing targets succeeds if it does for each of them. -/
theorem mapTargetsM_eq_ok {f : α → Except ε β} {o : Operand α} {p : Operand β} :
    o.mapTargetsM f = .ok p ↔
      p.shape = o.shape ∧ List.Forall₂ (fun t u => f t = .ok u) o.targets p.targets := by
  cases o with
  | target t =>
    simp only [mapTargetsM, Result.map_eq_ok, targets]
    constructor
    · rintro ⟨u, hu, rfl⟩
      exact ⟨rfl, .cons hu .nil⟩
    · rintro ⟨hs, ht⟩
      cases p <;> simp_all [shape, mapTargets]
  | table ts =>
    simp only [mapTargetsM, Result.map_eq_ok, targets, Result.mapM_eq_ok]
    constructor
    · rintro ⟨us, hus, rfl⟩
      refine ⟨?_, hus⟩
      simp [shape, mapTargets, List.map_const', hus.length_eq]
    · rintro ⟨hs, ht⟩
      cases p <;> simp_all [shape, mapTargets]
  | _ =>
    constructor
    · intro h
      cases h
      exact ⟨rfl, .nil⟩
    · rintro ⟨hs, -⟩
      cases p <;> simp_all [mapTargetsM, shape, mapTargets]

theorem mapTargetsM_ok_of_forall {f : α → Except ε β} {g : α → β} {o : Operand α}
    (h : ∀ t ∈ o.targets, f t = .ok (g t)) : o.mapTargetsM f = .ok (o.mapTargets g) := by
  rw [mapTargetsM_eq_ok, targets_mapTargets, List.forall₂_map_right_iff, List.forall₂_same]
  exact ⟨shape_mapTargets g o, h⟩

/-- If every target can only be replaced by itself, so can the operand. -/
theorem eq_of_mapTargetsM {f : α → Except ε α} {o p : Operand α} (h : o.mapTargetsM f = .ok p)
    (hf : ∀ t ∈ o.targets, ∀ u, f t = .ok u → u = t) : p = o := by
  obtain ⟨hs, ht⟩ := mapTargetsM_eq_ok.mp h
  exact ext_shape hs (Result.eq_of_forall₂ ht hf)

end Operand

/-! ## Instructions -/

/-- The operand has the shape that opcodes of a kind ask for; a short variable number has to
fit one byte. -/
def OperandKind.admits {α : Type} : OperandKind → Operand α → Bool
  | .none, .none | .target8, .target _ | .target32, .target _ | .table, .table _ => true
  | .int8, .int8 _ | .int32, .int32 _ | .int64, .int64 _ => true
  | .float32, .float32 _ | .float64, .float64 _ | .var16, .var _ | .token, .token _ => true
  | .var8, .var index => decide (index.toNat < 256)
  | _, _ => false

theorem OperandKind.admits_shape {α : Type} (kind : OperandKind) (o : Operand α) :
    kind.admits o.shape = kind.admits o := by
  cases kind <;> cases o <;> rfl

namespace Instruction

variable {α β ε : Type}

/-- The operand fits the opcode. -/
def fits (i : Instruction α) : Bool := i.opcode.operandKind.admits i.operand

theorem fits_mapTargets (f : α → β) (i : Instruction α) : (i.mapTargets f).fits = i.fits := by
  unfold fits mapTargets
  rw [← OperandKind.admits_shape, Operand.shape_mapTargets, OperandKind.admits_shape]

theorem mapTargets_eq_self {f : α → α} {i : Instruction α} (h : ∀ t ∈ i.operand.targets, f t = t) :
    i.mapTargets f = i := by
  rw [mapTargets, Operand.mapTargets_eq_self h]

theorem isCallTo_eq_true {method : Token} {i : Instruction α} :
    i.isCallTo method = true ↔ i.opcode = .call ∧ i.operand = .token method := by
  unfold isCallTo
  split
  · next hop ho => simp [hop, ho]
  · next h =>
    constructor
    · intro hf
      cases hf
    · rintro ⟨hop, ho⟩
      exact absurd ho (h method hop)

/-- Whether the probe is called does not depend on where targets lie. -/
theorem isCallTo_eq_of_shape {i : Instruction α} {j : Instruction β} (hop : i.opcode = j.opcode)
    (hs : i.operand.shape = j.operand.shape) (method : Token) :
    i.isCallTo method = j.isCallTo method := by
  rw [Bool.eq_iff_iff, isCallTo_eq_true, isCallTo_eq_true, hop, Operand.eq_token_iff_shape, hs,
    ← Operand.eq_token_iff_shape]

theorem isCallTo_mapTargets (f : α → β) (i : Instruction α) (method : Token) :
    (i.mapTargets f).isCallTo method = i.isCallTo method :=
  isCallTo_eq_of_shape (i := i.mapTargets f) (j := i) rfl (Operand.shape_mapTargets f i.operand)
    method

theorem mapTargetsM_eq_ok {f : α → Except ε β} {i : Instruction α} {j : Instruction β} :
    i.mapTargetsM f = .ok j ↔
      j.offset = i.offset ∧ j.opcode = i.opcode ∧ j.operand.shape = i.operand.shape ∧
        List.Forall₂ (fun t u => f t = .ok u) i.operand.targets j.operand.targets := by
  unfold mapTargetsM
  rw [Result.map_eq_ok]
  constructor
  · rintro ⟨o, ho, rfl⟩
    exact ⟨rfl, rfl, Operand.mapTargetsM_eq_ok.mp ho⟩
  · rintro ⟨h1, h2, h3⟩
    obtain ⟨offset, opcode, operand⟩ := j
    simp only at h1 h2 h3
    subst h1 h2
    exact ⟨operand, Operand.mapTargetsM_eq_ok.mpr h3, rfl⟩

theorem mapTargetsM_ok_of_forall {f : α → Except ε β} {g : α → β} {i : Instruction α}
    (h : ∀ t ∈ i.operand.targets, f t = .ok (g t)) : i.mapTargetsM f = .ok (i.mapTargets g) := by
  unfold mapTargetsM
  rw [Operand.mapTargetsM_ok_of_forall h]
  rfl

theorem mapTargetsM_eq_self {f : α → Except ε α} {i : Instruction α}
    (h : ∀ t ∈ i.operand.targets, f t = .ok t) : i.mapTargetsM f = .ok i :=
  mapTargetsM_eq_ok.mpr ⟨rfl, rfl, rfl, List.forall₂_same.mpr h⟩

/-- If every target can only be replaced by itself, so can the instruction. -/
theorem eq_of_mapTargetsM {f : α → Except ε α} {i j : Instruction α}
    (h : i.mapTargetsM f = .ok j) (hf : ∀ t ∈ i.operand.targets, ∀ u, f t = .ok u → u = t) :
    j = i := by
  obtain ⟨o, ho, rfl⟩ := Result.map_eq_ok.mp h
  rw [Operand.eq_of_mapTargetsM ho hf]

theorem size_eq_of_shape {i : Instruction α} {j : Instruction β} (hop : i.opcode = j.opcode)
    (hs : i.operand.shape = j.operand.shape) : i.size = j.size := by
  unfold size
  rw [hop, Operand.tableLength_eq_of_shape hs]

end Instruction

end CilCoverage
