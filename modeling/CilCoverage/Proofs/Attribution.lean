/-
  Which statement an instruction belongs to.

  An instruction belongs to the last sequence point at or before it
  (`Governs`); of several points at one offset, to the one that was given
  first. Sorting keeps the order of points at one offset (`filter_sortPoints`),
  so the first of them in the sorted list is the first that was given. Hence
  the points that are kept are known without the list that they are kept in
  (`mem_kept_iff`), and a span holds exactly the instructions whose last kept
  point is its own (`exists_span_iff`).

  Where a point cannot be used, the first one in the sorted list is reported,
  that is, the one with the least offset (`Reports`).
-/
import CilCoverage.Proofs.Segmentation

namespace CilCoverage

namespace Span

variable {α : Type} {is : List (Instruction α)} {points : List SequencePoint}
  {allowed : SequencePoint → Bool}

/-! ## What is asked of spans -/

/-- A visible point ends on a line before the one it starts on. -/
def Inverted (p : SequencePoint) : Prop := p.isHidden = false ∧ p.endLine < p.startLine

instance (p : SequencePoint) : Decidable (Inverted p) := inferInstanceAs (Decidable (_ ∧ _))

/-- The point is inverted, or is not at an instruction. -/
def Faulty (is : List (Instruction α)) (p : SequencePoint) : Prop :=
  Inverted p ∨ ∀ i ∈ is, i.offset ≠ p.offset

instance (p : SequencePoint) : Decidable (Faulty is p) := inferInstanceAs (Decidable (_ ∨ _))

/-- What is reported of a point. Its lines are looked at first. -/
inductive Fault (is : List (Instruction α)) (p : SequencePoint) : SegmentError → Prop
  | invertedLines (h : Inverted p) : Fault is p (.invertedLines p.offset)
  | misaligned (hlines : ¬ Inverted p) (h : ∀ i ∈ is, i.offset ≠ p.offset) :
      Fault is p (.misaligned p.offset)

/-- The error is about the faulty point with the least offset, and of several with this offset
about the one that was given first. -/
def Reports (is : List (Instruction α)) (points : List SequencePoint) (e : SegmentError) : Prop :=
  ∃ p, points.find? (fun q => decide (q.offset = p.offset ∧ Faulty is q)) = some p ∧
    (∀ q ∈ points, Faulty is q → p.offset ≤ q.offset) ∧ Fault is p e

/-- The point that decides what the code at `offset` belongs to: the last one at or before it,
and of several at one offset the one that was given first. -/
structure Governs (points : List SequencePoint) (offset : Nat) (p : SequencePoint) : Prop where
  before : p.offset ≤ offset
  last : ∀ q ∈ points, q.offset ≤ offset → q.offset ≤ p.offset
  first : points.find? (fun q => q.offset == p.offset) = some p

/-- Every instruction is in the span of the point that it belongs to if this opens one, and in no
span if not. -/
structure Attributes (is : List (Instruction α)) (points : List SequencePoint)
    (allowed : SequencePoint → Bool) (spans : List Span) : Prop where
  within : ∀ s ∈ spans, s.Within is.length
  ascending : spans.Pairwise fun a b => a.start < b.start
  apart : spans.Pairwise fun a b => a.stop ≤ b.start
  covered : ∀ k i, is[k]? = some i → ((∃ s ∈ spans, s.Holds k) ↔
    ∃ p, Governs points i.offset p ∧ p.isHidden = false ∧ allowed p = true)
  carried : ∀ k i, is[k]? = some i → ∀ s ∈ spans, s.Holds k →
    Governs points i.offset s.point ∧ ∃ j, is[s.start]? = some j ∧ j.offset = s.point.offset

/-- One point at most decides what the code at an offset belongs to. -/
theorem Governs.unique {offset : Nat} {p q : SequencePoint} (hp : Governs points offset p)
    (hq : Governs points offset q) : p = q := by
  have hpq : p.offset ≤ q.offset := hq.last p (List.mem_of_find?_eq_some hp.first) hp.before
  have hqp : q.offset ≤ p.offset := hp.last q (List.mem_of_find?_eq_some hq.first) hq.before
  have hfirst := hp.first
  rw [Nat.le_antisymm hpq hqp, hq.first] at hfirst
  exact (Option.some.inj hfirst).symm

/-! ## Sorting -/

theorem perm_sortPoints (points : List SequencePoint) : (sortPoints points).Perm points :=
  List.mergeSort_perm points _

/-- Points at one offset keep their order. -/
theorem filter_sortPoints (points : List SequencePoint) (offset : Nat) :
    (sortPoints points).filter (fun q => q.offset == offset) =
      points.filter fun q => q.offset == offset := by
  have hsorted : (points.filter fun q => q.offset == offset).Pairwise
      fun a b => decide (a.offset ≤ b.offset) = true := by
    refine List.pairwise_of_forall_mem_list fun a ha b hb => ?_
    have ha := beq_iff_eq.mp (List.mem_filter.mp ha).2
    have hb := beq_iff_eq.mp (List.mem_filter.mp hb).2
    exact decide_eq_true (Nat.le_of_eq (ha.trans hb.symm))
  have hsublist := (List.sublist_mergeSort offset_le_trans offset_le_total hsorted
    List.filter_sublist).filter fun q => q.offset == offset
  rw [List.filter_filter] at hsublist
  simp only [Bool.and_self] at hsublist
  have hlength := ((perm_sortPoints points).filter fun q => q.offset == offset).length_eq
  exact (hsublist.eq_of_length hlength.symm).symm

/-- What is looked for at one offset is the same before and after sorting. -/
theorem find?_sortPoints {f : SequencePoint → Bool} {offset : Nat}
    (hf : ∀ q, f q = true → q.offset = offset) :
    (sortPoints points).find? f = points.find? f := by
  have hat : ∀ l : List SequencePoint,
      l.find? f = (l.filter fun q => q.offset == offset).find? f := by
    intro l
    rw [List.find?_filter]
    congr 1
    funext q
    cases hq : f q with
    | false => simp
    | true => simp [hf q hq]
  rw [hat, filter_sortPoints, ← hat]

/-! ## Points that cannot be used -/

theorem Fault.faulty {p : SequencePoint} {e : SegmentError} (h : Fault is p e) : Faulty is p := by
  cases h with
  | invertedLines h => exact Or.inl h
  | misaligned _ h => exact Or.inr h

theorem indexOf?_eq_none {offset : Nat} (h : LabelledBody.indexOf? is offset = none) :
    ∀ i ∈ is, i.offset ≠ offset := by
  intro i hi
  have hne := List.findIdx?_eq_none_iff.mp h i hi
  simpa using hne

theorem inverted_iff {p : SequencePoint} :
    (!p.isHidden && p.isInverted) = true ↔ Inverted p := by
  simp [Inverted, SequencePoint.isInverted]

theorem not_inverted_iff {p : SequencePoint} : ¬ Inverted p ↔ Upright p := by
  rw [Inverted, Upright, not_and, UInt32.not_lt]

theorem fault_of_locate {p : SequencePoint} {e : SegmentError} (h : locate is p = .error e) :
    Fault is p e := by
  unfold locate at h
  split at h
  · next hinverted =>
    cases h
    exact .invertedLines (inverted_iff.mp hinverted)
  · next hupright =>
    split at h
    · cases h
    · next hindex =>
      cases h
      exact .misaligned (fun hp => hupright (inverted_iff.mpr hp)) (indexOf?_eq_none hindex)

theorem not_faulty_of_locate {p : SequencePoint} {l : Nat × SequencePoint}
    (h : locate is p = .ok l) : ¬ Faulty is p := by
  obtain ⟨-, hindex, hupright⟩ := of_locate h
  obtain ⟨i, hi, hoffset⟩ := LabelledBody.exists_of_indexOf? hindex
  rintro (hinverted | hnone)
  · exact not_inverted_iff.mpr hupright hinverted
  · exact hnone i (List.mem_of_getElem? hi) hoffset

/-- The points before the one that fails can be used. -/
theorem of_locateAll_eq_some {ps : List SequencePoint} {e : SegmentError}
    (h : (locateAll is ps).2 = some e) : ∃ before p after, ps = before ++ p :: after ∧
      (∀ q ∈ before, ¬ Faulty is q) ∧ Fault is p e := by
  induction ps with
  | nil => cases h
  | cons p ps ih =>
    rw [locateAll] at h
    split at h
    · next hp =>
      cases h
      exact ⟨[], p, ps, rfl, by simp, fault_of_locate hp⟩
    · next hl =>
      obtain ⟨before, q, after, rfl, hbefore, hq⟩ := ih h
      exact ⟨p :: before, q, after, rfl,
        List.forall_mem_cons.mpr ⟨not_faulty_of_locate hl, hbefore⟩, hq⟩

theorem reports_of_locateAll {e : SegmentError}
    (h : (locateAll is (sortPoints points)).2 = some e) : Reports is points e := by
  obtain ⟨before, p, after, hsorted, hbefore, hfault⟩ := of_locateAll_eq_some h
  refine ⟨p, ?_, ?_, hfault⟩
  · rw [← find?_sortPoints (fun q hq => (of_decide_eq_true hq).1), hsorted,
      List.find?_eq_some_iff_append]
    refine ⟨decide_eq_true ⟨rfl, hfault.faulty⟩, before, after, rfl, fun q hq => ?_⟩
    simp [hbefore q hq]
  · intro q hq hfaulty
    have hpairwise := pairwise_sortPoints points
    rw [hsorted, List.pairwise_append, List.pairwise_cons] at hpairwise
    rw [← (perm_sortPoints points).mem_iff, hsorted, List.mem_append, List.mem_cons] at hq
    rcases hq with hq | rfl | hq
    · exact absurd hfaulty (hbefore q hq)
    · exact Nat.le_refl _
    · exact hpairwise.2.1.1 q hq

/-! ## Points that are kept -/

theorem find?_cons_eq_some {l m : Nat × SequencePoint} {ls : List (Nat × SequencePoint)} :
    (m :: ls).find? (fun n => n.1 == l.1) = some l ↔
      l = m ∨ l.1 ≠ m.1 ∧ ls.find? (fun n => n.1 == l.1) = some l := by
  by_cases heq : m.1 = l.1
  · simp [heq, eq_comm]
  · have hne : l ≠ m := fun h => heq (h ▸ rfl)
    simp [List.find?_cons_of_neg, heq, Ne.symm heq, hne]

theorem mem_firsts_go {last : Nat} {l : Nat × SequencePoint} {ls : List (Nat × SequencePoint)}
    (h : ls.Pairwise fun a b => a.1 ≤ b.1) (hlast : ∀ m ∈ ls, last ≤ m.1) :
    l ∈ firsts.go last ls ↔ l.1 ≠ last ∧ ls.find? (fun m => m.1 == l.1) = some l := by
  induction ls generalizing last with
  | nil => simp [firsts.go]
  | cons m ls ih =>
    obtain ⟨hm, hls⟩ := List.pairwise_cons.mp h
    obtain ⟨hle, hrest⟩ := List.forall_mem_cons.mp hlast
    rw [firsts.go, find?_cons_eq_some]
    split
    · next heq =>
      subst heq
      rw [ih hls hrest]
      constructor
      · exact fun hl => ⟨hl.1, Or.inr hl⟩
      · rintro ⟨hne, rfl | hl⟩
        · exact absurd rfl hne
        · exact hl
    · next hne =>
      -- what is found is not before `m`, and so not at the instruction before it
      rw [List.mem_cons, ih hls hm, iff_and_self]
      rintro (rfl | ⟨-, hl⟩) heq
      · exact hne heq
      · have hml := hm l (List.mem_of_find?_eq_some hl)
        omega

/-- Of points in ascending order, the first at each instruction is kept. -/
theorem mem_firsts {l : Nat × SequencePoint} {ls : List (Nat × SequencePoint)}
    (h : ls.Pairwise fun a b => a.1 ≤ b.1) :
    l ∈ firsts ls ↔ ls.find? (fun m => m.1 == l.1) = some l := by
  cases ls with
  | nil => simp [firsts]
  | cons m ls =>
    obtain ⟨hm, hls⟩ := List.pairwise_cons.mp h
    rw [firsts, List.mem_cons, mem_firsts_go hls hm, find?_cons_eq_some]

/-- A located point is the first at its instruction if it is the first at its offset. -/
theorem find?_located {ps : List SequencePoint} {ls : List (Nat × SequencePoint)}
    (h : List.Forall₂ (fun p l => locate is p = .ok l) ps ls) {l : Nat × SequencePoint}
    (hl : LabelledBody.indexOf? is l.2.offset = some l.1) :
    ls.find? (fun m => m.1 == l.1) = some l ↔
      ps.find? (fun q => q.offset == l.2.offset) = some l.2 := by
  induction h with
  | nil => simp
  | @cons p m ps ls hm _ ih =>
    obtain ⟨rfl, hindex, -⟩ := of_locate hm
    by_cases hoffset : m.2.offset = l.2.offset
    · have heq : m.1 = l.1 := by
        rw [hoffset, hl] at hindex
        exact (Option.some.inj hindex).symm
      simp [heq, hoffset, Prod.ext_iff]
    · have hne : m.1 ≠ l.1 := by
        obtain ⟨i, hi, hmo⟩ := LabelledBody.exists_of_indexOf? hindex
        obtain ⟨j, hj, hlo⟩ := LabelledBody.exists_of_indexOf? hl
        intro heq
        rw [heq, hj] at hi
        obtain rfl := Option.some.inj hi
        exact hoffset (hmo.symm.trans hlo)
      simpa [hne, hoffset] using ih

/-- The points that are kept are those that were given first at their offset, each with the index
of its instruction. -/
theorem mem_kept_iff (hascending : is.Pairwise fun i j => i.offset ≤ j.offset)
    {ls : List (Nat × SequencePoint)}
    (h : List.Forall₂ (fun p l => locate is p = .ok l) (sortPoints points) ls)
    {l : Nat × SequencePoint} :
    l ∈ firsts ls ↔ LabelledBody.indexOf? is l.2.offset = some l.1 ∧
      points.find? (fun q => q.offset == l.2.offset) = some l.2 := by
  have hindex : ∀ m ∈ ls, LabelledBody.indexOf? is m.2.offset = some m.1 := by
    intro m hm
    obtain ⟨p, -, hp⟩ := Result.exists_mem_left h hm
    obtain ⟨rfl, hindex, -⟩ := of_locate hp
    exact hindex
  have hsorted : (sortPoints points).find? (fun q => q.offset == l.2.offset) =
      points.find? fun q => q.offset == l.2.offset :=
    find?_sortPoints fun q hq => beq_iff_eq.mp hq
  rw [mem_firsts (pairwise_located hascending (pairwise_sortPoints points) h).1, ← hsorted]
  constructor
  · intro hl
    have hat := hindex l (List.mem_of_find?_eq_some hl)
    exact ⟨hat, (find?_located h hat).mp hl⟩
  · rintro ⟨hat, hl⟩
    exact (find?_located h hat).mpr hl

/-! ## The instructions of a span -/

theorem mem_ofPoints {count : Nat} {ls : List (Nat × SequencePoint)} {s : Span} :
    s ∈ ofPoints allowed count ls ↔ ∃ before rest, ls = before ++ (s.start, s.point) :: rest ∧
      s.point.isHidden = false ∧ allowed s.point = true ∧ s.stop = stopBefore count rest := by
  induction ls with
  | nil => simp [ofPoints]
  | cons l ls ih =>
    rw [ofPoints_cons]
    constructor
    · intro hs
      have hcases : (l.2.isHidden = false ∧ allowed l.2 = true ∧
          s = ⟨l.2, l.1, stopBefore count ls⟩) ∨ s ∈ ofPoints allowed count ls := by
        split at hs
        · exact Or.inr hs
        · next hopens =>
          simp only [Bool.or_eq_true, Bool.not_eq_true', not_or, Bool.not_eq_true,
            Bool.not_eq_false] at hopens
          exact (List.mem_cons.mp hs).imp_left fun heq => ⟨hopens.1, hopens.2, heq⟩
      rcases hcases with ⟨hvisible, hallowed, rfl⟩ | hs
      · exact ⟨[], ls, rfl, hvisible, hallowed, rfl⟩
      · obtain ⟨before, rest, rfl, hrest⟩ := ih.mp hs
        exact ⟨l :: before, rest, rfl, hrest⟩
    · rintro ⟨before, rest, hsplit, hvisible, hallowed, hstop⟩
      rcases List.cons_eq_append_iff.mp hsplit with ⟨-, hsplit⟩ | ⟨before', -, rfl⟩
      · obtain ⟨rfl, rfl⟩ := List.cons.inj hsplit
        rw [if_neg (by simp [hvisible, hallowed]), ← hstop]
        exact List.mem_cons_self
      · have hs := ih.mpr ⟨before', rest, rfl, hvisible, hallowed, hstop⟩
        split
        · exact hs
        · exact List.mem_cons_of_mem _ hs

theorem lt_stopBefore_iff {count k : Nat} {rest : List (Nat × SequencePoint)}
    (h : rest.Pairwise fun a b => a.1 < b.1) (hk : k < count) :
    k < stopBefore count rest ↔ ∀ m ∈ rest, k < m.1 := by
  cases rest with
  | nil => simp [stopBefore, hk]
  | cons n rest =>
    have hle := (List.pairwise_cons.mp h).1
    rw [List.forall_mem_cons]
    exact ⟨fun hlt => ⟨hlt, fun m hm => Nat.lt_trans hlt (hle m hm)⟩, fun hlt => hlt.1⟩

/-- A span holds the instructions whose last kept point is its own. -/
theorem exists_span_iff {count j k : Nat} {p : SequencePoint} {ls : List (Nat × SequencePoint)}
    (h : ls.Pairwise fun a b => a.1 < b.1) (hk : k < count) :
    (∃ s ∈ ofPoints allowed count ls, s.Holds k ∧ s.start = j ∧ s.point = p) ↔
      (p.isHidden = false ∧ allowed p = true) ∧
        (j, p) ∈ ls ∧ j ≤ k ∧ ∀ m ∈ ls, m.1 ≤ k → m.1 ≤ j := by
  constructor
  · rintro ⟨s, hs, ⟨hstart, hlt⟩, rfl, rfl⟩
    obtain ⟨before, rest, rfl, hvisible, hallowed, hstop⟩ := mem_ofPoints.mp hs
    rw [List.pairwise_append, List.pairwise_cons] at h
    obtain ⟨-, ⟨-, hrest⟩, hbefore⟩ := h
    rw [hstop, lt_stopBefore_iff hrest hk] at hlt
    refine ⟨⟨hvisible, hallowed⟩, by simp, hstart, fun m hm hmk => ?_⟩
    rcases List.mem_append.mp hm with hm | hm
    · exact Nat.le_of_lt (hbefore m hm _ List.mem_cons_self)
    · rcases List.mem_cons.mp hm with rfl | hm
      · exact Nat.le_refl _
      · exact absurd hmk (Nat.not_le_of_lt (hlt m hm))
  · rintro ⟨⟨hvisible, hallowed⟩, hmem, hj, hlast⟩
    obtain ⟨before, rest, rfl⟩ := List.append_of_mem hmem
    have hafter := List.pairwise_cons.mp (List.pairwise_append.mp h).2.1
    refine ⟨⟨p, j, stopBefore count rest⟩, ?_, ⟨hj, ?_⟩, rfl, rfl⟩
    · exact mem_ofPoints.mpr ⟨before, rest, rfl, hvisible, hallowed, rfl⟩
    · rw [lt_stopBefore_iff hafter.2 hk]
      intro m hm
      by_contra hmk
      have hmj := hlast m (by simp [hm]) (Nat.le_of_not_lt hmk)
      exact absurd (hafter.1 m hm) (Nat.not_lt.mpr hmj)

/-- Indices and offsets are in the same order. -/
theorem indexOf?_le_iff (hascending : is.Pairwise fun i j => i.offset < j.offset) {j k offset : Nat}
    {i : Instruction α} (hj : LabelledBody.indexOf? is offset = some j) (hi : is[k]? = some i) :
    j ≤ k ↔ offset ≤ i.offset := by
  obtain ⟨i', hi', rfl⟩ := LabelledBody.exists_of_indexOf? hj
  obtain ⟨hjlt, rfl⟩ := List.getElem?_eq_some_iff.mp hi'
  obtain ⟨hklt, rfl⟩ := List.getElem?_eq_some_iff.mp hi
  rw [List.pairwise_iff_getElem] at hascending
  rcases Nat.lt_trichotomy j k with hlt | rfl | hgt
  · exact iff_of_true (Nat.le_of_lt hlt) (Nat.le_of_lt (hascending j k hjlt hklt hlt))
  · simp
  · exact iff_of_false (Nat.not_le.mpr hgt) (Nat.not_le.mpr (hascending k j hklt hjlt hgt))

/-- The last kept point at or before an instruction is the point that the instruction belongs
to. -/
theorem last_kept_iff_governs (hascending : is.Pairwise fun i j => i.offset < j.offset)
    {ls : List (Nat × SequencePoint)}
    (h : List.Forall₂ (fun p l => locate is p = .ok l) (sortPoints points) ls)
    {j k : Nat} {p : SequencePoint} {i : Instruction α} (hi : is[k]? = some i)
    (hj : LabelledBody.indexOf? is p.offset = some j) :
    ((j, p) ∈ firsts ls ∧ j ≤ k ∧ ∀ m ∈ firsts ls, m.1 ≤ k → m.1 ≤ j) ↔
      Governs points i.offset p := by
  have hmono : is.Pairwise fun i j => i.offset ≤ j.offset := hascending.imp Nat.le_of_lt
  constructor
  · rintro ⟨hmem, hjk, hlast⟩
    refine ⟨(indexOf?_le_iff hascending hj hi).mp hjk, fun q hq hqi => ?_,
      ((mem_kept_iff hmono h).mp hmem).2⟩
    -- the first point at the offset of `q` is kept
    obtain ⟨first, hfirst⟩ : ∃ first, points.find? (fun r => r.offset == q.offset) = some first :=
      Option.isSome_iff_exists.mp (List.find?_isSome.mpr ⟨q, hq, beq_self_eq_true _⟩)
    have hoffset : first.offset = q.offset := by simpa using List.find?_some hfirst
    rw [← hoffset] at hfirst hqi ⊢
    obtain ⟨l, -, hl⟩ := Result.exists_mem_right h
      ((perm_sortPoints points).mem_iff.mpr (List.mem_of_find?_eq_some hfirst))
    obtain ⟨rfl, hat, -⟩ := of_locate hl
    have hlj := hlast l ((mem_kept_iff hmono h).mpr ⟨hat, hfirst⟩)
      ((indexOf?_le_iff hascending hat hi).mpr hqi)
    obtain ⟨i', hi', hpoint⟩ := LabelledBody.exists_of_indexOf? hj
    rw [← hpoint]
    exact (indexOf?_le_iff hascending hat hi').mp hlj
  · intro hgoverns
    refine ⟨(mem_kept_iff hmono h).mpr ⟨hj, hgoverns.first⟩,
      (indexOf?_le_iff hascending hj hi).mpr hgoverns.before, fun m hm hmk => ?_⟩
    obtain ⟨hat, hfirst⟩ := (mem_kept_iff hmono h).mp hm
    have hle := hgoverns.last m.2 (List.mem_of_find?_eq_some hfirst)
      ((indexOf?_le_iff hascending hat hi).mp hmk)
    exact LabelledBody.indexOf?_mono hmono hat hj hle

section Located

variable (hascending : is.Pairwise fun i j => i.offset < j.offset)
  {ls : List (Nat × SequencePoint)}
  (h : List.Forall₂ (fun p l => locate is p = .ok l) (sortPoints points) ls)

include hascending h

/-- A point has a span that holds an instruction if the instruction belongs to it and it opens
one. -/
theorem exists_span_iff_governs {j k : Nat} {p : SequencePoint} {i : Instruction α}
    (hi : is[k]? = some i) (hj : LabelledBody.indexOf? is p.offset = some j) :
    (∃ s ∈ ofPoints allowed is.length (firsts ls), s.Holds k ∧ s.start = j ∧ s.point = p) ↔
      (p.isHidden = false ∧ allowed p = true) ∧ Governs points i.offset p := by
  have hlocated := (pairwise_located (hascending.imp Nat.le_of_lt) (pairwise_sortPoints points) h).1
  rw [exists_span_iff (firsts_spec hlocated).1 (List.getElem?_eq_some_iff.mp hi).1,
    last_kept_iff_governs hascending h hi hj]

theorem indexOf?_start {s : Span} (hs : s ∈ ofPoints allowed is.length (firsts ls)) :
    LabelledBody.indexOf? is s.point.offset = some s.start := by
  obtain ⟨before, rest, hsplit, -⟩ := mem_ofPoints.mp hs
  have hkept : (s.start, s.point) ∈ firsts ls := by simp [hsplit]
  exact ((mem_kept_iff (hascending.imp Nat.le_of_lt) h).mp hkept).1

theorem attributes_ofPoints (allowed : SequencePoint → Bool) :
    Attributes is points allowed (ofPoints allowed is.length (firsts ls)) := by
  obtain ⟨hlocated, hlt⟩ :=
    pairwise_located (hascending.imp Nat.le_of_lt) (pairwise_sortPoints points) h
  obtain ⟨hfirsts, hmem⟩ := firsts_spec hlocated
  obtain ⟨hapart, hspans⟩ := @ofPoints_spec allowed _ _ hfirsts fun l hl => hlt l (hmem l hl)
  have hgoverns : ∀ {k i s}, is[k]? = some i → s ∈ ofPoints allowed is.length (firsts ls) →
      s.Holds k → (s.point.isHidden = false ∧ allowed s.point = true) ∧
        Governs points i.offset s.point := fun hi hs hk =>
    (exists_span_iff_governs hascending h hi (indexOf?_start hascending h hs)).mp
      ⟨_, hs, hk, rfl, rfl⟩
  constructor
  case within => exact fun s hs => (hspans s hs).1
  case ascending =>
    exact hapart.imp_of_mem fun ha _ hab => Nat.lt_of_lt_of_le (hspans _ ha).1.1 hab
  case apart => exact hapart
  case covered =>
    intro k i hi
    constructor
    · rintro ⟨s, hs, hk⟩
      obtain ⟨hopens, hgoverns⟩ := hgoverns hi hs hk
      exact ⟨s.point, hgoverns, hopens⟩
    · rintro ⟨p, hgoverns, hopens⟩
      obtain ⟨l, -, hl⟩ := Result.exists_mem_right h
        ((perm_sortPoints points).mem_iff.mpr (List.mem_of_find?_eq_some hgoverns.first))
      obtain ⟨rfl, hat, -⟩ := of_locate hl
      obtain ⟨s, hs, hk, -⟩ :=
        (exists_span_iff_governs hascending h hi hat).mpr ⟨hopens, hgoverns⟩
      exact ⟨s, hs, hk⟩
  case carried =>
    intro k i hi s hs hk
    exact ⟨(hgoverns hi hs hk).2,
      LabelledBody.exists_of_indexOf? (indexOf?_start hascending h hs)⟩

end Located

theorem Reports.exists_faulty {e : SegmentError} (h : Reports is points e) :
    ∃ p ∈ points, Faulty is p := by
  obtain ⟨p, hfirst, -, hfault⟩ := h
  exact ⟨p, List.mem_of_find?_eq_some hfirst, hfault.faulty⟩

/-- Segmenting fails exactly if some point is inverted or not at an instruction, and reports the
first such point; otherwise every instruction is in the span of the point that it belongs to. -/
theorem segment_attributes {is : List (Instruction α)}
    (hascending : is.Pairwise fun i j => i.offset < j.offset) (points : List SequencePoint)
    (allowed : SequencePoint → Bool) :
    let result := (segment is points allowed).2
    ((∃ e, result = .error e) ↔ ∃ p ∈ points, Inverted p ∨ ∀ i ∈ is, i.offset ≠ p.offset) ∧
      (∀ e, result = .error e → Reports is points e) ∧
      ∀ spans, result = .ok spans → Attributes is points allowed spans := by
  intro result
  cases hlocated : (locateAll is (sortPoints points)).2 with
  | some e =>
    have hresult : result = .error e := by simp only [result, segment, hlocated]
    have hreports : Reports is points e := reports_of_locateAll hlocated
    rw [hresult]
    refine ⟨iff_of_true ⟨e, rfl⟩ hreports.exists_faulty, fun e' he' => ?_, fun spans hspans => ?_⟩
    · exact Except.error.inj he' ▸ hreports
    · cases hspans
  | none =>
    have hpoints := of_locateAll (Prod.ext rfl hlocated :
      locateAll is (sortPoints points) = (_, none))
    have hresult : result =
        .ok (ofPoints allowed is.length (firsts (locateAll is (sortPoints points)).1)) := by
      simp only [result, segment, hlocated]
    rw [hresult]
    refine ⟨iff_of_false ?_ ?_, fun e he => ?_, fun spans hspans => ?_⟩
    · rintro ⟨e, he⟩
      cases he
    · rintro ⟨p, hp, hfaulty⟩
      obtain ⟨l, -, hl⟩ := Result.exists_mem_right hpoints
        ((perm_sortPoints points).mem_iff.mpr hp)
      exact not_faulty_of_locate hl hfaulty
    · cases he
    · obtain rfl := Except.ok.inj hspans
      exact attributes_ofPoints hascending hpoints allowed

/-- Instructions of which the second one is a branch of two bytes. -/
def fiveInstructions : List (Instruction Nat) :=
  [⟨0, .ldarg0, .none⟩, ⟨1, .brtrueS, .target 4⟩, ⟨3, .nop, .none⟩, ⟨4, .nop, .none⟩,
   ⟨5, .ret, .none⟩]

def pointAt (offset : Nat) (document : String) (startLine endLine : UInt32) : SequencePoint :=
  ⟨offset, document, startLine, 1, endLine, 9⟩

/-- In no order: a point in another document, two points at the branch, and a hidden one. -/
def mixedPoints : List SequencePoint :=
  [pointAt 3 "b.cs" 5 5, pointAt 1 "a.cs" 4 4, pointAt 0 "a.cs" 1 2, pointAt 1 "a.cs" 7 8,
   pointAt 4 "a.cs" SequencePoint.hiddenLine 0, pointAt 5 "a.cs" 6 6]

/-- The same, with a point between two instructions and one at the branch that is inverted. -/
def faultyPoints : List SequencePoint :=
  [pointAt 2 "a.cs" 3 3, pointAt 1 "a.cs" 8 7] ++ mixedPoints

theorem segment_attributes_mixed :
    let allowed : SequencePoint → Bool := fun p => p.document == "a.cs"
    let spans : List Span := [⟨pointAt 0 "a.cs" 1 2, 0, 1⟩, ⟨pointAt 1 "a.cs" 4 4, 1, 2⟩,
      ⟨pointAt 5 "a.cs" 6 6, 4, 5⟩]
    fiveInstructions.Pairwise (fun i j => i.offset < j.offset) ∧
      (segment fiveInstructions mixedPoints allowed).2 = .ok spans ∧
      Attributes fiveInstructions mixedPoints allowed spans ∧
      (segment fiveInstructions faultyPoints allowed).2 = .error (.invertedLines 1) ∧
      Reports fiveInstructions faultyPoints (.invertedLines 1) := by
  intro allowed spans
  have hascending : fiveInstructions.Pairwise fun i j => i.offset < j.offset := by decide
  have hmixed : sortPoints mixedPoints = [pointAt 0 "a.cs" 1 2, pointAt 1 "a.cs" 4 4,
      pointAt 1 "a.cs" 7 8, pointAt 3 "b.cs" 5 5, pointAt 4 "a.cs" SequencePoint.hiddenLine 0,
      pointAt 5 "a.cs" 6 6] := by
    simp [sortPoints, mixedPoints, pointAt, List.mergeSort, List.MergeSort.Internal.splitInTwo]
  have hfaulty : sortPoints faultyPoints = [pointAt 0 "a.cs" 1 2, pointAt 1 "a.cs" 8 7,
      pointAt 1 "a.cs" 4 4, pointAt 1 "a.cs" 7 8, pointAt 2 "a.cs" 3 3, pointAt 3 "b.cs" 5 5,
      pointAt 4 "a.cs" SequencePoint.hiddenLine 0, pointAt 5 "a.cs" 6 6] := by
    simp [sortPoints, faultyPoints, mixedPoints, pointAt, List.mergeSort,
      List.MergeSort.Internal.splitInTwo]
  have hspans : (segment fiveInstructions mixedPoints allowed).2 = .ok spans := by
    rw [segment, hmixed]
    decide
  have herror : (segment fiveInstructions faultyPoints allowed).2 =
      .error (.invertedLines 1) := by
    rw [segment, hfaulty]
    decide
  exact ⟨hascending, hspans,
    (segment_attributes hascending mixedPoints allowed).2.2 spans hspans, herror,
    (segment_attributes hascending faultyPoints allowed).2.1 _ herror⟩

end Span

end CilCoverage
