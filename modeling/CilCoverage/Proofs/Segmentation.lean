/-
  Spans and decisions of a body.

  Points are located in ascending order, and of several at one instruction only
  the first is kept, so that spans follow each other without overlapping; none
  ends on a line before the one it starts on (`segment_spec`). Decisions lie
  within their span, in ascending order (`inSpan_spec`); statements are spans
  with sound decisions (`Statement.Sound`).
-/
import CilCoverage.Proofs.Lowering
import CilCoverage.Statement

namespace CilCoverage

open Code

/-! ## Spans -/

namespace Span

variable {α : Type} {is : List (Instruction α)}

theorem offset_le_trans (a b c : SequencePoint) (hab : decide (a.offset ≤ b.offset) = true)
    (hbc : decide (b.offset ≤ c.offset) = true) : decide (a.offset ≤ c.offset) = true := by
  rw [decide_eq_true_eq] at hab hbc ⊢
  exact Nat.le_trans hab hbc

theorem offset_le_total (a b : SequencePoint) :
    (decide (a.offset ≤ b.offset) || decide (b.offset ≤ a.offset)) = true := by
  rw [Bool.or_eq_true, decide_eq_true_eq, decide_eq_true_eq]
  exact Nat.le_total _ _

theorem pairwise_sortPoints (points : List SequencePoint) :
    (sortPoints points).Pairwise fun a b => a.offset ≤ b.offset :=
  (List.pairwise_mergeSort offset_le_trans offset_le_total points).imp of_decide_eq_true

/-- The lines of a visible point are in order. -/
def Upright (p : SequencePoint) : Prop := p.isHidden = false → p.startLine ≤ p.endLine

theorem of_locate {p : SequencePoint} {l : Nat × SequencePoint} (h : locate is p = .ok l) :
    l.2 = p ∧ LabelledBody.indexOf? is p.offset = some l.1 ∧ Upright p := by
  unfold locate at h
  split at h
  · cases h
  · next hupright =>
    split at h
    · next hindex =>
      cases h
      refine ⟨rfl, hindex, fun hvisible => ?_⟩
      simp only [hvisible, SequencePoint.isInverted, Bool.not_false, Bool.true_and,
        decide_eq_true_eq] at hupright
      exact UInt32.not_lt.mp hupright
    · cases h

theorem of_locateAll {ps : List SequencePoint} {ls : List (Nat × SequencePoint)}
    (h : locateAll is ps = (ls, none)) :
    List.Forall₂ (fun p l => locate is p = .ok l) ps ls := by
  induction ps generalizing ls with
  | nil =>
    cases h
    exact .nil
  | cons p ps ih =>
    rw [locateAll] at h
    split at h
    · cases h
    · next l hl =>
      obtain ⟨rfl, hnone⟩ := Prod.mk.inj h
      exact .cons hl (ih (Prod.ext rfl hnone))

/-- Located points ascend. -/
theorem pairwise_located (hascending : is.Pairwise fun i j => i.offset ≤ j.offset)
    {ps : List SequencePoint} {ls : List (Nat × SequencePoint)}
    (hps : ps.Pairwise fun a b => a.offset ≤ b.offset)
    (h : List.Forall₂ (fun p l => locate is p = .ok l) ps ls) :
    ls.Pairwise (fun a b => a.1 ≤ b.1) ∧ ∀ l ∈ ls, l.1 < is.length ∧ Upright l.2 := by
  induction h with
  | nil => exact ⟨.nil, by simp⟩
  | @cons p l ps ls hl htail ih =>
    obtain ⟨hp, hps⟩ := List.pairwise_cons.mp hps
    obtain ⟨hpairwise, hlt⟩ := ih hps
    obtain ⟨rfl, hindex, hupright⟩ := of_locate hl
    obtain ⟨i, hi, -⟩ := LabelledBody.exists_of_indexOf? hindex
    refine ⟨List.pairwise_cons.mpr ⟨?_, hpairwise⟩,
      List.forall_mem_cons.mpr ⟨⟨(List.getElem?_eq_some_iff.mp hi).1, hupright⟩, hlt⟩⟩
    intro m hm
    obtain ⟨q, hq, hqm⟩ := Result.exists_mem_left htail hm
    exact LabelledBody.indexOf?_mono hascending hindex (of_locate hqm).2.1 (hp q hq)

theorem firsts_go_spec {last : Nat} {ls : List (Nat × SequencePoint)}
    (h : ls.Pairwise fun a b => a.1 ≤ b.1) (hlast : ∀ l ∈ ls, last ≤ l.1) :
    (firsts.go last ls).Pairwise (fun a b => a.1 < b.1) ∧
      ∀ l ∈ firsts.go last ls, l ∈ ls ∧ last < l.1 := by
  induction ls generalizing last with
  | nil => exact ⟨.nil, by simp [firsts.go]⟩
  | cons l ls ih =>
    obtain ⟨hl, hls⟩ := List.pairwise_cons.mp h
    obtain ⟨hle, hrest⟩ := List.forall_mem_cons.mp hlast
    rw [firsts.go]
    split
    · obtain ⟨hpairwise, hmem⟩ := ih hls hrest
      exact ⟨hpairwise, fun m hm => ⟨List.mem_cons_of_mem _ (hmem m hm).1, (hmem m hm).2⟩⟩
    · next hne =>
      have hlt : last < l.1 := Nat.lt_of_le_of_ne hle fun heq => hne heq.symm
      obtain ⟨hpairwise, hmem⟩ := ih hls hl
      refine ⟨List.pairwise_cons.mpr ⟨fun m hm => (hmem m hm).2, hpairwise⟩,
        List.forall_mem_cons.mpr ⟨⟨List.mem_cons_self, hlt⟩, ?_⟩⟩
      intro m hm
      exact ⟨List.mem_cons_of_mem _ (hmem m hm).1, Nat.lt_trans hlt (hmem m hm).2⟩

/-- Of points in ascending order one is kept for each instruction. -/
theorem firsts_spec {ls : List (Nat × SequencePoint)} (h : ls.Pairwise fun a b => a.1 ≤ b.1) :
    (firsts ls).Pairwise (fun a b => a.1 < b.1) ∧ ∀ l ∈ firsts ls, l ∈ ls := by
  cases ls with
  | nil => exact ⟨.nil, by simp [firsts]⟩
  | cons l ls =>
    obtain ⟨hl, hls⟩ := List.pairwise_cons.mp h
    obtain ⟨hpairwise, hmem⟩ := firsts_go_spec hls hl
    refine ⟨List.pairwise_cons.mpr ⟨fun m hm => (hmem m hm).2, hpairwise⟩,
      List.forall_mem_cons.mpr ⟨List.mem_cons_self, ?_⟩⟩
    intro m hm
    exact List.mem_cons_of_mem _ (hmem m hm).1

/-- The span has an instruction and lies within a body of `count` instructions. -/
def Within (count : Nat) (s : Span) : Prop := s.start < s.stop ∧ s.stop ≤ count

/-- An instruction is in the span. -/
def Holds (s : Span) (k : Nat) : Prop := s.start ≤ k ∧ k < s.stop

instance (s : Span) (k : Nat) : Decidable (s.Holds k) := inferInstanceAs (Decidable (_ ∧ _))

/-- Where a span ends that points follow. -/
def stopBefore (count : Nat) (rest : List (Nat × SequencePoint)) : Nat :=
  (rest.head?.map Prod.fst).getD count

theorem ofPoints_cons (allowed : SequencePoint → Bool) (count : Nat) (l : Nat × SequencePoint)
    (rest : List (Nat × SequencePoint)) :
    ofPoints allowed count (l :: rest) =
      if l.2.isHidden || !allowed l.2 then ofPoints allowed count rest
      else ⟨l.2, l.1, stopBefore count rest⟩ :: ofPoints allowed count rest := by
  cases rest <;> rfl

/-- Spans do not overlap, and their lines are in order. -/
theorem ofPoints_spec {allowed : SequencePoint → Bool} {count : Nat}
    {ls : List (Nat × SequencePoint)} (h : ls.Pairwise fun a b => a.1 < b.1)
    (hls : ∀ l ∈ ls, l.1 < count ∧ Upright l.2) :
    (ofPoints allowed count ls).Pairwise (fun a b => a.stop ≤ b.start) ∧
      ∀ s ∈ ofPoints allowed count ls, s.Within count ∧ stopBefore count ls ≤ s.start ∧
        s.point.startLine ≤ s.point.endLine := by
  induction ls with
  | nil => exact ⟨.nil, by simp [ofPoints]⟩
  | cons l rest ih =>
    obtain ⟨hl, hrest⟩ := List.pairwise_cons.mp h
    obtain ⟨⟨hlcount, hupright⟩, hrestcount⟩ := List.forall_mem_cons.mp hls
    obtain ⟨hpairwise, hmem⟩ := ih hrest hrestcount
    have hstop : l.1 < stopBefore count rest ∧ stopBefore count rest ≤ count := by
      cases rest with
      | nil => exact ⟨hlcount, Nat.le_refl _⟩
      | cons m rest =>
        exact ⟨hl m List.mem_cons_self, Nat.le_of_lt (hrestcount m List.mem_cons_self).1⟩
    have hfirst : stopBefore count (l :: rest) = l.1 := rfl
    have hmem' : ∀ s ∈ ofPoints allowed count rest, s.Within count ∧ l.1 ≤ s.start ∧
        s.point.startLine ≤ s.point.endLine := by
      intro s hs
      obtain ⟨hwithin, hle, hlines⟩ := hmem s hs
      exact ⟨hwithin, by omega, hlines⟩
    rw [ofPoints_cons, hfirst]
    split
    · exact ⟨hpairwise, hmem'⟩
    · next hopens =>
      have hvisible : l.2.isHidden = false := by simp_all
      exact ⟨List.pairwise_cons.mpr ⟨fun s hs => (hmem s hs).2.1, hpairwise⟩,
        List.forall_mem_cons.mpr ⟨⟨hstop, Nat.le_refl _, hupright hvisible⟩, hmem'⟩⟩

/-- The spans of a body lie within it and do not overlap, and their lines are in order. -/
theorem segment_spec (hascending : is.Pairwise fun i j => i.offset ≤ j.offset)
    {points : List SequencePoint} {allowed : SequencePoint → Bool} {log : Log} {spans : List Span}
    (h : segment is points allowed = (log, .ok spans)) :
    spans.Pairwise (fun a b => a.stop ≤ b.start) ∧
      ∀ s ∈ spans, s.Within is.length ∧ s.point.startLine ≤ s.point.endLine := by
  unfold segment at h
  obtain ⟨-, h⟩ := Prod.mk.inj h
  split at h
  · cases h
  · next hnone =>
    cases h
    have hlocated := of_locateAll (Prod.ext rfl hnone :
      locateAll is (sortPoints points) = (_, none))
    obtain ⟨hpairwise, hlt⟩ := pairwise_located hascending (pairwise_sortPoints points) hlocated
    obtain ⟨hfirsts, hmem⟩ := firsts_spec hpairwise
    obtain ⟨hspans, hwithin⟩ := @ofPoints_spec allowed _ _ hfirsts
      fun l hl => hlt l (hmem l hl)
    exact ⟨hspans, fun s hs => ⟨(hwithin s hs).1, (hwithin s hs).2.2⟩⟩

end Span

/-! ## Decisions -/

namespace Decision

/-- The decision at an instruction of a body. -/
structure Sound (is : List (Instruction Nat)) (d : Decision) : Prop where
  next_lt : d.index + 1 < is.length
  instruction : ∃ i, is[d.index]? = some i ∧ i.opcode.isDecision = true ∧
    d.successors = successorsOf d.index i
  several : 1 < d.successors.length

theorem of_at? {count index : Nat} {i : Instruction Nat} {d : Decision}
    (h : at? count index i = .ok (some d)) :
    d.index = index ∧ index + 1 < count ∧ i.opcode.isDecision = true ∧
      d.successors = successorsOf index i ∧ 1 < d.successors.length := by
  unfold at? at h
  split at h
  · cases h
  · next hdecision =>
    split at h
    · cases h
    · dsimp only at h
      split at h
      · next hseveral =>
        cases h
        exact ⟨rfl, by omega, by simpa using hdecision, rfl, hseveral⟩
      · cases h

theorem listFrom_spec {is : List (Instruction Nat)} {index : Nat} {rest : List (Instruction Nat)}
    {ds : List Decision} (hrest : ∀ k i, rest[k]? = some i → is[index + k]? = some i)
    (h : listFrom is.length index rest = .ok ds) :
    ds.Pairwise (fun a b => a.index < b.index) ∧
      ∀ d ∈ ds, d.Sound is ∧ index ≤ d.index ∧ d.index < index + rest.length := by
  induction rest generalizing index ds with
  | nil =>
    cases h
    exact ⟨.nil, by simp⟩
  | cons i rest ih =>
    obtain ⟨found, hfound, h⟩ := Result.bind_eq_ok.mp h
    obtain ⟨more, hmore, h⟩ := Result.bind_eq_ok.mp h
    cases h
    have hi : is[index]? = some i := by simpa using hrest 0 i (by simp)
    obtain ⟨hpairwise, hmem⟩ := ih (fun k j hj => by
      have := hrest (k + 1) j (by simpa using hj)
      rwa [Nat.add_assoc, Nat.add_comm 1 k]) hmore
    have hmem' : ∀ d ∈ more,
        d.Sound is ∧ index ≤ d.index ∧ d.index < index + (i :: rest).length := by
      intro d hd
      obtain ⟨hsound, hle, hlt⟩ := hmem d hd
      rw [List.length_cons]
      exact ⟨hsound, by omega, by omega⟩
    cases found with
    | none => exact ⟨hpairwise, hmem'⟩
    | some d =>
      obtain ⟨hindex, hnext, hdecision, hsuccessors, hseveral⟩ := of_at? hfound
      have hsound : d.Sound is :=
        ⟨by omega, ⟨i, by rw [hindex, hi], hdecision, by rw [hindex, hsuccessors]⟩, hseveral⟩
      refine ⟨List.pairwise_cons.mpr ⟨?_, hpairwise⟩,
        List.forall_mem_cons.mpr ⟨⟨hsound, ?_⟩, hmem'⟩⟩
      · intro e he
        have := (hmem e he).2.1
        omega
      · rw [List.length_cons]
        omega

/-- The instructions of a span. -/
theorem getElem?_stretch {is : List (Instruction Nat)} {span : Span} {k : Nat}
    {i : Instruction Nat} :
    ((is.drop span.start).take (span.stop - span.start))[k]? = some i ↔
      span.start + k < span.stop ∧ is[span.start + k]? = some i := by
  rw [List.getElem?_take, List.getElem?_drop]
  split
  · next hlt => rw [and_iff_right (by omega)]
  · next hge => simp only [reduceCtorEq, false_iff, not_and]; omega

theorem length_stretch {is : List (Instruction Nat)} {span : Span}
    (hspan : span.Within is.length) :
    ((is.drop span.start).take (span.stop - span.start)).length = span.stop - span.start := by
  obtain ⟨hstart, hstop⟩ := hspan
  rw [List.length_take, List.length_drop]
  omega

theorem inSpan_spec {is : List (Instruction Nat)} {span : Span} {ds : List Decision}
    (hspan : span.Within is.length) (h : inSpan is span = .ok ds) :
    ds.Pairwise (fun a b => a.index < b.index) ∧
      ∀ d ∈ ds, d.Sound is ∧ span.start ≤ d.index ∧ d.index < span.stop := by
  have hlen := length_stretch hspan
  obtain ⟨hstart, hstop⟩ := hspan
  obtain ⟨hpairwise, hmem⟩ := listFrom_spec (fun k i hk => (getElem?_stretch.mp hk).2) h
  refine ⟨hpairwise, ?_⟩
  intro d hd
  obtain ⟨hsound, hle, hlt⟩ := hmem d hd
  exact ⟨hsound, hle, by omega⟩

end Decision

/-! ## Statements -/

namespace Statement

/-- The statement lies within a body, and so do its decisions within it, in ascending order. -/
structure Sound (is : List (Instruction Nat)) (s : Statement) : Prop where
  within : s.span.Within is.length
  lines : s.span.point.startLine ≤ s.span.point.endLine
  ascending : s.decisions.Pairwise fun a b => a.index < b.index
  decisions : ∀ d ∈ s.decisions,
    d.Sound is ∧ s.span.start ≤ d.index ∧ d.index < s.span.stop

theorem ofSpans_spec {branches : Bool} {is : List (Instruction Nat)} {spans : List Span}
    {statements : List Statement}
    (hspans : ∀ span ∈ spans, span.Within is.length ∧ span.point.startLine ≤ span.point.endLine)
    (h : ofSpans branches is spans = .ok statements) :
    statements.map Statement.span = spans ∧ ∀ s ∈ statements, s.Sound is := by
  replace h := Result.mapM_eq_ok.mp h
  induction h with
  | nil => exact ⟨rfl, by simp⟩
  | @cons span s spans statements hs _ ih =>
    obtain ⟨hspan, hspans⟩ := List.forall_mem_cons.mp hspans
    obtain ⟨hmap, hsound⟩ := ih hspans
    have hs : s.span = span ∧ s.Sound is := by
      split at hs
      · obtain ⟨ds, hds, rfl⟩ := Result.map_eq_ok.mp hs
        obtain ⟨hpairwise, hmem⟩ := Decision.inSpan_spec hspan.1 hds
        exact ⟨rfl, hspan.1, hspan.2, hpairwise, hmem⟩
      · cases hs
        exact ⟨rfl, hspan.1, hspan.2, .nil, by simp⟩
    exact ⟨by rw [List.map_cons, hs.1, hmap], List.forall_mem_cons.mpr ⟨hs.2, hsound⟩⟩

end Statement

end CilCoverage
