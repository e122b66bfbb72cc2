/-
  Clauses, position by position.

  Replacing positions succeeds if it does for each of them, and relates a clause
  to one of the same kind (`Clause.mapM_eq_ok`).
-/
import CilCoverage.Clause
import CilCoverage.Result
import Mathlib.Data.List.Forall2

namespace CilCoverage

namespace ClauseKind

variable {α β ε : Type}

/-- Handlers of one kind, with related filter starts. -/
def Rel (R : α → β → Prop) : ClauseKind α → ClauseKind β → Prop
  | .catchType t, .catchType u => t = u
  | .filter s, .filter t => R s t
  | .finallyBlock, .finallyBlock | .fault, .fault => True
  | _, _ => False

/-- Replaces the filter start. -/
def mapM (f : α → Except ε β) : ClauseKind α → Except ε (ClauseKind β)
  | .catchType type => .ok (.catchType type)
  | .filter start => (f start).map .filter
  | .finallyBlock => .ok .finallyBlock
  | .fault => .ok .fault

theorem mapM_eq_ok {f : α → Except ε β} {k : ClauseKind α} {l : ClauseKind β} :
    k.mapM f = .ok l ↔ k.Rel (fun x y => f x = .ok y) l := by
  cases k <;> cases l <;> simp [mapM, Rel, Result.map_eq_ok]

end ClauseKind

namespace Clause

variable {α β ε : Type}

/-- Every position of a clause. -/
def positions (c : Clause α) : List α :=
  (match c.kind with
    | .filter start => [start]
    | _ => []) ++ [c.tryStart, c.tryEnd, c.handlerStart, c.handlerEnd]

/-- The ranges do not end before they start. -/
def Ordered [LE α] (c : Clause α) : Prop :=
  c.tryStart ≤ c.tryEnd ∧ c.handlerStart ≤ c.handlerEnd

instance [LE α] [DecidableLE α] (c : Clause α) : Decidable c.Ordered :=
  inferInstanceAs (Decidable (_ ∧ _))

/-- Clauses of one kind, with related positions. -/
structure Rel (R : α → β → Prop) (c : Clause α) (d : Clause β) : Prop where
  kind : c.kind.Rel R d.kind
  tryStart : R c.tryStart d.tryStart
  tryEnd : R c.tryEnd d.tryEnd
  handlerStart : R c.handlerStart d.handlerStart
  handlerEnd : R c.handlerEnd d.handlerEnd

theorem Rel.imp {R S : α → β → Prop} (h : ∀ x y, R x y → S x y) {c : Clause α} {d : Clause β}
    (hR : c.Rel R d) : c.Rel S d := by
  refine ⟨?_, h _ _ hR.tryStart, h _ _ hR.tryEnd, h _ _ hR.handlerStart, h _ _ hR.handlerEnd⟩
  have hkind := hR.kind
  cases hc : c.kind <;> cases hd : d.kind <;> simp_all [ClauseKind.Rel]

/-- Ranges keep their order if positions do. -/
theorem Rel.ordered [LE α] [LE β] {R : α → β → Prop} {c : Clause α} {d : Clause β}
    (h : c.Rel R d) (hR : ∀ x x' y y', R x y → R x' y' → x ≤ x' → y ≤ y') (hc : c.Ordered) :
    d.Ordered :=
  ⟨hR _ _ _ _ h.tryStart h.tryEnd hc.1, hR _ _ _ _ h.handlerStart h.handlerEnd hc.2⟩

theorem Ordered.map [LE α] [LE β] {f : α → β} {c : Clause α}
    (hf : ∀ x ∈ c.positions, ∀ y ∈ c.positions, x ≤ y → f x ≤ f y) (hc : c.Ordered) :
    (c.map f).Ordered := by
  have hmem : ∀ x ∈ [c.tryStart, c.tryEnd, c.handlerStart, c.handlerEnd], x ∈ c.positions :=
    fun x hx => List.mem_append_right _ hx
  exact ⟨hf _ (hmem _ (by simp)) _ (hmem _ (by simp)) hc.1,
    hf _ (hmem _ (by simp)) _ (hmem _ (by simp)) hc.2⟩

theorem mapM_eq_bind (f : α → Except ε β) (c : Clause α) :
    c.mapM f = (do
      let kind ← c.kind.mapM f
      let tryStart ← f c.tryStart
      let tryEnd ← f c.tryEnd
      let handlerStart ← f c.handlerStart
      let handlerEnd ← f c.handlerEnd
      .ok ⟨kind, tryStart, tryEnd, handlerStart, handlerEnd⟩) := by
  unfold mapM
  cases c.kind <;> rfl

theorem mapM_eq_ok {f : α → Except ε β} {c : Clause α} {d : Clause β} :
    c.mapM f = .ok d ↔ c.Rel (fun x y => f x = .ok y) d := by
  rw [mapM_eq_bind]
  constructor
  · intro h
    obtain ⟨kind, hkind, h⟩ := Result.bind_eq_ok.mp h
    obtain ⟨tryStart, hts, h⟩ := Result.bind_eq_ok.mp h
    obtain ⟨tryEnd, hte, h⟩ := Result.bind_eq_ok.mp h
    obtain ⟨handlerStart, hhs, h⟩ := Result.bind_eq_ok.mp h
    obtain ⟨handlerEnd, hhe, h⟩ := Result.bind_eq_ok.mp h
    cases h
    exact ⟨ClauseKind.mapM_eq_ok.mp hkind, hts, hte, hhs, hhe⟩
  · rintro ⟨hkind, hts, hte, hhs, hhe⟩
    rw [ClauseKind.mapM_eq_ok.mpr hkind, hts, hte, hhs, hhe]
    rfl

/-- Replacing positions succeeds if it does for each of them. -/
theorem mapM_ok_of_forall {f : α → Except ε β} {g : α → β} {c : Clause α}
    (h : ∀ p ∈ c.positions, f p = .ok (g p)) : c.mapM f = .ok (c.map g) := by
  obtain ⟨kind, tryStart, tryEnd, handlerStart, handlerEnd⟩ := c
  rw [mapM_eq_ok]
  cases kind <;> simp_all [positions] <;> constructor <;> simp_all [map, ClauseKind.Rel]

theorem map_id (c : Clause α) : c.map id = c := by
  obtain ⟨kind, tryStart, tryEnd, handlerStart, handlerEnd⟩ := c
  cases kind <;> rfl

theorem mapM_map {γ : Type} (f : α → β) (g : β → Except ε γ) (c : Clause α) :
    (c.map f).mapM g = c.mapM (g ∘ f) := by
  obtain ⟨kind, tryStart, tryEnd, handlerStart, handlerEnd⟩ := c
  cases kind <;> rfl

/-- Positions that are replaced and taken back. -/
theorem mapM_map_eq_self {f : α → β} {g : β → Except ε α} {c : Clause α}
    (h : ∀ p ∈ c.positions, g (f p) = .ok p) : (c.map f).mapM g = .ok c := by
  have hid : c.mapM (g ∘ f) = .ok (c.map id) := mapM_ok_of_forall h
  rw [mapM_map, hid, map_id]

theorem map_map {γ : Type} (f : α → β) (g : β → γ) (c : Clause α) :
    (c.map f).map g = c.map (g ∘ f) := by
  obtain ⟨kind, tryStart, tryEnd, handlerStart, handlerEnd⟩ := c
  cases kind <;> rfl

theorem positions_map (f : α → β) (c : Clause α) :
    (c.map f).positions = c.positions.map f := by
  obtain ⟨kind, tryStart, tryEnd, handlerStart, handlerEnd⟩ := c
  cases kind <;> rfl

theorem map_eq_self {f : α → α} {c : Clause α} (h : ∀ p ∈ c.positions, f p = p) :
    c.map f = c := by
  obtain ⟨kind, tryStart, tryEnd, handlerStart, handlerEnd⟩ := c
  cases kind <;> simp_all [positions, map]

/-- Positions that are related by a function are mapped back by it. -/
theorem Rel.map_eq {f : β → α} {c : Clause α} {d : Clause β} (h : c.Rel (fun x y => f y = x) d) :
    d.map f = c := by
  obtain ⟨kind, tryStart, tryEnd, handlerStart, handlerEnd⟩ := c
  obtain ⟨kind', tryStart', tryEnd', handlerStart', handlerEnd'⟩ := d
  obtain ⟨hkind, rfl, rfl, rfl, rfl⟩ := h
  cases kind <;> cases kind' <;> simp_all [ClauseKind.Rel, map]

theorem kind_map_eq_filter {f : α → β} {c : Clause α} {y : β} :
    (c.map f).kind = .filter y ↔ ∃ x, c.kind = .filter x ∧ f x = y := by
  obtain ⟨kind, tryStart, tryEnd, handlerStart, handlerEnd⟩ := c
  cases kind <;> simp [map]

theorem kind_rel_map (c : Clause α) (f : α → β) :
    c.kind.Rel (fun _ _ => True) (c.map f).kind := by
  obtain ⟨kind, tryStart, tryEnd, handlerStart, handlerEnd⟩ := c
  cases kind <;> simp [map, ClauseKind.Rel]

/-- Handlers of one kind, with whatever positions. -/
def SameKind (c : Clause α) (d : Clause β) : Prop := c.kind.Rel (fun _ _ => True) d.kind

theorem Rel.sameKind {R : α → β → Prop} {c : Clause α} {d : Clause β} (h : c.Rel R d) :
    c.SameKind d :=
  (h.imp fun _ _ _ => trivial).kind

theorem SameKind.trans {γ : Type} {c : Clause α} {d : Clause β} {e : Clause γ}
    (h : c.SameKind d) (h' : d.SameKind e) : c.SameKind e := by
  unfold SameKind at *
  cases hc : c.kind <;> cases hd : d.kind <;> cases he : e.kind <;> simp_all [ClauseKind.Rel]

theorem mem_positions_of_kind {c : Clause α} {x : α} (h : c.kind = .filter x) :
    x ∈ c.positions := by
  simp [positions, h]

theorem Rel.positions {R : α → β → Prop} {c : Clause α} {d : Clause β} (h : c.Rel R d) :
    List.Forall₂ R c.positions d.positions := by
  obtain ⟨kind, tryStart, tryEnd, handlerStart, handlerEnd⟩ := c
  obtain ⟨kind', tryStart', tryEnd', handlerStart', handlerEnd'⟩ := d
  obtain ⟨hkind, hts, hte, hhs, hhe⟩ := h
  cases kind <;> cases kind' <;> simp_all [ClauseKind.Rel, Clause.positions]

end Clause

end CilCoverage
