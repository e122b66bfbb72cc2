/-
  The counts of a summary as a measure of files.

  What is counted as lines are the lines in at least one of the ranges
  (`countLines_eq`), so neither their order nor how they overlap matters. A
  file is counted by what is read of each of its statements (`ofFile_eq`), and
  this does not depend on any order (`ofFiles_reordered`). Counts grow with
  what is covered (`ofFiles_le`): with the points that are hit, and from one
  policy to the other. Put together: `counts_measure`.
-/
import CilCoverage.Proofs.Hits.Sums
import CilCoverage.Proofs.Summary.Counting
import Mathlib.Data.Finset.Union
import Mathlib.Order.Interval.Finset.Nat

namespace CilCoverage

/-! ## Lines -/

/-- The lines that are in at least one range. -/
def linesIn (ranges : List LineRange) : Finset Nat :=
  ranges.toFinset.biUnion fun r => Finset.Icc r.1 r.2

theorem mem_linesIn {ranges : List LineRange} {line : Nat} :
    line ∈ linesIn ranges ↔ ∃ r ∈ ranges, r.1 ≤ line ∧ line ≤ r.2 := by
  simp [linesIn]

theorem linesIn_perm {ranges ranges' : List LineRange} (h : ranges.Perm ranges') :
    linesIn ranges = linesIn ranges' := by
  ext line
  simp only [mem_linesIn, h.mem_iff]

/-- The lines from `reached` on are those of the first range, and those of the other ranges that
come after it. -/
theorem filter_linesIn_cons {reached : Nat} {r : LineRange} {rest : List LineRange}
    (hfirst : ∀ r' ∈ rest, r.1 ≤ r'.1) :
    (linesIn (r :: rest)).filter (reached ≤ ·) =
      Finset.Icc (max reached r.1) r.2 ∪ (linesIn rest).filter (max reached (r.2 + 1) ≤ ·) := by
  ext line
  simp only [Finset.mem_filter, Finset.mem_union, Finset.mem_Icc, mem_linesIn, List.mem_cons,
    exists_eq_or_imp]
  constructor
  · rintro ⟨hin | ⟨r', hr', hin⟩, hreached⟩
    · exact .inl (by omega)
    · -- A line of a later range that is not after the first range is in it.
      have := hfirst r' hr'
      by_cases hlast : line ≤ r.2
      · exact .inl (by omega)
      · exact .inr ⟨⟨r', hr', hin⟩, by omega⟩
  · rintro (hin | ⟨hin, hafter⟩)
    · exact ⟨.inl (by omega), by omega⟩
    · exact ⟨.inr hin, by omega⟩

theorem countLinesFrom_eq (reached : Nat) {ranges : List LineRange}
    (h : ranges.Pairwise fun a b => a.1 ≤ b.1) :
    countLinesFrom reached ranges = ((linesIn ranges).filter (reached ≤ ·)).card := by
  induction ranges generalizing reached with
  | nil => rfl
  | cons r rest ih =>
    obtain ⟨hfirst, hrest⟩ := List.pairwise_cons.mp h
    have hapart : Disjoint (Finset.Icc (max reached r.1) r.2)
        ((linesIn rest).filter (max reached (r.2 + 1) ≤ ·)) := by
      rw [Finset.disjoint_left]
      intro line hin hafter
      have := (Finset.mem_Icc.mp hin).2
      have := (Finset.mem_filter.mp hafter).2
      omega
    rw [countLinesFrom, ih _ hrest, filter_linesIn_cons hfirst, Finset.card_union_of_disjoint hapart,
      Nat.card_Icc]

theorem countLines_eq (ranges : List LineRange) : countLines ranges = (linesIn ranges).card := by
  have hsorted : (ranges.mergeSort fun a b => decide (a.1 ≤ b.1)).Pairwise fun a b =>
      decide (a.1 ≤ b.1) = true := by
    refine List.pairwise_mergeSort (fun a b c hab hbc => ?_) (fun a b => ?_) ranges
    · simp only [decide_eq_true_eq] at hab hbc ⊢
      exact Nat.le_trans hab hbc
    · simpa using Nat.le_total a.1 b.1
  simp only [decide_eq_true_eq] at hsorted
  rw [countLines, countLinesFrom_eq 0 hsorted, linesIn_perm (List.mergeSort_perm _ _)]
  simp

theorem countLines_perm {ranges ranges' : List LineRange} (h : ranges.Perm ranges') :
    countLines ranges = countLines ranges' := by
  rw [countLines_eq, countLines_eq, linesIn_perm h]

theorem countLines_le {ranges ranges' : List LineRange} (h : ∀ r ∈ ranges, r ∈ ranges') :
    countLines ranges ≤ countLines ranges' := by
  rw [countLines_eq, countLines_eq]
  refine Finset.card_le_card fun line hline => ?_
  obtain ⟨r, hr, hin⟩ := mem_linesIn.mp hline
  exact mem_linesIn.mpr ⟨r, h r hr, hin⟩

/-- The lines from where a statement starts to where it ends, or its first line alone. -/
def Sequence.lines (s : Sequence) : Finset Nat :=
  Finset.Icc s.startLine.toNat (max s.startLine.toNat s.endLine.toNat)

/-- The lines of at least one statement. -/
def linesOf (sequences : List Sequence) : Finset Nat := sequences.toFinset.biUnion Sequence.lines

theorem countLines_lineRange (sequences : List Sequence) :
    countLines (sequences.map Sequence.lineRange) = (linesOf sequences).card := by
  have hsame : linesIn (sequences.map Sequence.lineRange) = linesOf sequences := by
    ext line
    simp [mem_linesIn, linesOf, Sequence.lines, Sequence.lineRange]
  rw [countLines_eq, hsame]

/-! ## Order -/

/-- The elements of a list in some order, each with a related one in its place. -/
def ReorderedBy {α : Type} (related : α → α → Prop) (xs zs : List α) : Prop :=
  ∃ ys, xs.Perm ys ∧ List.Forall₂ related ys zs

theorem ReorderedBy.map_perm {α β : Type} {related : α → α → Prop} {xs zs : List α}
    (h : ReorderedBy related xs zs) {f : α → β} (hf : ∀ x z, related x z → f x = f z) :
    (xs.map f).Perm (zs.map f) := by
  obtain ⟨ys, hperm, hrelated⟩ := h
  have heq : ys.map f = zs.map f := by
    clear hperm
    induction hrelated with
    | nil => rfl
    | cons hxz _ ih => rw [List.map_cons, List.map_cons, hf _ _ hxz, ih]
  exact heq ▸ hperm.map f

/-- The same statement but for the order of its conditions. -/
def Sequence.Reordered (s t : Sequence) : Prop :=
  t = { s with conditions := t.conditions } ∧ s.conditions.Perm t.conditions

/-- The same file but for the order of its statements and of their conditions. -/
def SourceFile.Reordered (f g : SourceFile) : Prop :=
  f.path = g.path ∧ ReorderedBy Sequence.Reordered f.sequences g.sequences

namespace Tally

/-- What counting reads of a statement. -/
structure Reading where
  lineRange : LineRange
  covered : Bool
  branches : Count

section Readings

variable {policy : HitPolicy} {hits : Hits}

/-- What counting reads of a statement. -/
def reading (policy : HitPolicy) (hits : Hits) (s : Sequence) : Reading :=
  ⟨s.lineRange, policy.covers hits s,
    ⟨s.branches.length, s.branches.countP fun b => hits.isHit b.hitId⟩⟩

/-- The count of what was read. -/
def ofReadings (rs : List Reading) : Tally :=
  let covered := rs.filter (·.covered)
  { statements := ⟨rs.length, covered.length⟩
    lines := ⟨countLines (rs.map (·.lineRange)), countLines (covered.map (·.lineRange))⟩
    branches := ⟨(rs.map (·.branches.total)).sum, (rs.map (·.branches.covered)).sum⟩ }

theorem ofFile_eq (f : SourceFile) :
    ofFile policy hits f = ofReadings (f.sequences.map (reading policy hits)) := by
  simp only [ofFile, ofReadings, List.filter_map, List.map_map, List.length_map,
    List.length_flatMap, List.countP_flatMap]
  rfl

theorem ofReadings_perm {rs rs' : List Reading} (h : rs.Perm rs') :
    ofReadings rs = ofReadings rs' := by
  have hcovered := h.filter (·.covered)
  simp only [ofReadings, h.length_eq, hcovered.length_eq, countLines_perm (h.map _),
    countLines_perm (hcovered.map _), (h.map _).sum_eq]

theorem reading_reordered {s t : Sequence} (h : s.Reordered t) :
    reading policy hits s = reading policy hits t := by
  obtain ⟨hrest, hconditions⟩ := h
  have hbranches : s.branches.Perm t.branches := hconditions.flatMap_right _
  have hcovers : policy.covers hits s = policy.covers hits t := by
    have hid : s.hitId = t.hitId := by rw [hrest]
    cases policy with
    | independent => simp only [HitPolicy.covers, hid]
    | branchImpliesSequence => simp only [HitPolicy.covers, hid, hbranches.any_eq]
  have hrange : s.lineRange = t.lineRange := by rw [hrest]; rfl
  simp only [reading, hcovers, hrange, hbranches.length_eq, hbranches.countP_eq]

/-- No order matters: of the files, of their statements, or of the conditions in these. -/
theorem ofFiles_reordered {fs gs : List SourceFile} (h : ReorderedBy SourceFile.Reordered fs gs) :
    ofFiles policy hits fs = ofFiles policy hits gs := by
  refine sum_perm (h.map_perm fun f g hfile => ?_)
  rw [ofFile_eq, ofFile_eq]
  exact ofReadings_perm (hfile.2.map_perm fun _ _ => reading_reordered)

end Readings

end Tally

/-! ## Growth -/

/-- No more are covered than there are. -/
def Count.Bounded (c : Count) : Prop := c.covered ≤ c.total

/-- There are as many, and at least as many of them are covered. -/
def Count.Grows (c d : Count) : Prop := c.total = d.total ∧ c.covered ≤ d.covered

theorem Count.Bounded.add {c d : Count} (h : c.Bounded) (h' : d.Bounded) : (c.add d).Bounded :=
  Nat.add_le_add h h'

theorem Count.Grows.add {c d c' d' : Count} (h : c.Grows d) (h' : c'.Grows d') :
    (c.add c').Grows (d.add d') :=
  ⟨congrArg₂ (· + ·) h.1 h'.1, Nat.add_le_add h.2 h'.2⟩

theorem Count.Grows.antisymm {c d : Count} (h : c.Grows d) (h' : d.Grows c) : c = d := by
  obtain ⟨_, _⟩ := c
  obtain ⟨_, _⟩ := d
  rw [mk.injEq]
  exact ⟨h.1, Nat.le_antisymm h.2 h'.2⟩

namespace Tally

/-- No more is covered than there is, of statements, of lines and of branches. -/
structure Bounded (t : Tally) : Prop where
  statements : t.statements.Bounded
  lines : t.lines.Bounded
  branches : t.branches.Bounded

/-- At least as much is covered of as many statements, lines and branches. -/
structure Grows (t u : Tally) : Prop where
  statements : t.statements.Grows u.statements
  lines : t.lines.Grows u.lines
  branches : t.branches.Grows u.branches

theorem Bounded.add {t u : Tally} (h : t.Bounded) (h' : u.Bounded) : (t.add u).Bounded :=
  ⟨h.statements.add h'.statements, h.lines.add h'.lines, h.branches.add h'.branches⟩

theorem Grows.add {t u t' u' : Tally} (h : t.Grows u) (h' : t'.Grows u') :
    (t.add t').Grows (u.add u') :=
  ⟨h.statements.add h'.statements, h.lines.add h'.lines, h.branches.add h'.branches⟩

theorem Grows.antisymm {t u : Tally} (h : t.Grows u) (h' : u.Grows t) : t = u := by
  obtain ⟨_, _, _⟩ := t
  obtain ⟨_, _, _⟩ := u
  rw [mk.injEq]
  exact ⟨h.statements.antisymm h'.statements, h.lines.antisymm h'.lines,
    h.branches.antisymm h'.branches⟩

theorem ofFiles_cons {policy : HitPolicy} {hits : Hits} (f : SourceFile) (fs : List SourceFile) :
    ofFiles policy hits (f :: fs) = (ofFile policy hits f).add (ofFiles policy hits fs) :=
  sum_cons _ _

theorem ofFile_bounded (policy : HitPolicy) (hits : Hits) (f : SourceFile) :
    (ofFile policy hits f).Bounded where
  statements := List.length_filter_le _ _
  lines := countLines_le fun _ h => (List.filter_sublist.map _).mem h
  branches := List.countP_le_length

theorem ofFiles_bounded (policy : HitPolicy) (hits : Hits) (fs : List SourceFile) :
    (ofFiles policy hits fs).Bounded := by
  induction fs with
  | nil => exact ⟨Nat.le_refl _, Nat.le_refl _, Nat.le_refl _⟩
  | cons f fs ih =>
    rw [ofFiles_cons]
    exact (ofFile_bounded policy hits f).add ih

section Growth

variable {policy policy' : HitPolicy} {hits hits' : Hits}

theorem ofFile_grows (hcovers : ∀ s, policy.covers hits s = true → policy'.covers hits' s = true)
    (hhit : ∀ id, hits.isHit id = true → hits'.isHit id = true) (f : SourceFile) :
    (ofFile policy hits f).Grows (ofFile policy' hits' f) := by
  have hmore : (f.sequences.filter (policy.covers hits)).Sublist
      (f.sequences.filter (policy'.covers hits')) := List.monotone_filter_right _ hcovers
  exact {
    statements := ⟨rfl, hmore.length_le⟩
    lines := ⟨rfl, countLines_le fun _ h => (hmore.map _).mem h⟩
    branches := ⟨rfl, List.countP_mono_left fun b _ => hhit b.hitId⟩ }

/-- Counts grow with the statements that count as covered and the points that are hit. -/
theorem ofFiles_grows (hcovers : ∀ s, policy.covers hits s = true → policy'.covers hits' s = true)
    (hhit : ∀ id, hits.isHit id = true → hits'.isHit id = true) (fs : List SourceFile) :
    (ofFiles policy hits fs).Grows (ofFiles policy' hits' fs) := by
  induction fs with
  | nil => exact ⟨⟨rfl, Nat.le_refl _⟩, ⟨rfl, Nat.le_refl _⟩, ⟨rfl, Nat.le_refl _⟩⟩
  | cons f fs ih =>
    rw [ofFiles_cons, ofFiles_cons]
    exact (ofFile_grows hcovers hhit f).add ih

theorem covers_of_hits (hhit : ∀ id, hits.isHit id = true → hits'.isHit id = true)
    (s : Sequence) (h : policy.covers hits s = true) : policy.covers hits' s = true := by
  cases policy with
  | independent =>
    simp only [HitPolicy.covers, Bool.or_false] at h ⊢
    exact hhit _ h
  | branchImpliesSequence =>
    simp only [HitPolicy.covers, Bool.or_eq_true, List.any_eq_true] at h ⊢
    exact h.imp (hhit _) fun ⟨b, hb, hit⟩ => ⟨b, hb, hhit _ hit⟩

theorem covers_of_independent {s : Sequence} (h : HitPolicy.independent.covers hits s = true) :
    HitPolicy.branchImpliesSequence.covers hits s = true := by
  simp only [HitPolicy.covers, Bool.or_false] at h
  simp only [HitPolicy.covers, h, Bool.true_or]

theorem ofFiles_grows_of_hits (h : ∀ id, 0 < hits.count id → 0 < hits'.count id)
    (fs : List SourceFile) : (ofFiles policy hits fs).Grows (ofFiles policy hits' fs) := by
  have hhit : ∀ id, hits.isHit id = true → hits'.isHit id = true := by
    simpa only [Hits.isHit, decide_eq_true_eq] using h
  exact ofFiles_grows (covers_of_hits hhit) hhit fs

end Growth

theorem branches_ofFiles (policy policy' : HitPolicy) (hits : Hits) (fs : List SourceFile) :
    (ofFiles policy hits fs).branches = (ofFiles policy' hits fs).branches := by
  induction fs with
  | nil => rfl
  | cons f fs ih =>
    rw [ofFiles_cons, ofFiles_cons]
    exact congrArg (Count.add (ofFile policy hits f).branches) ih

theorem lines_ofFiles (policy : HitPolicy) (hits : Hits) (fs : List SourceFile) :
    (ofFiles policy hits fs).lines =
      ⟨(fs.map fun f => (linesOf f.sequences).card).sum,
        (fs.map fun f => (linesOf (f.sequences.filter (policy.covers hits))).card).sum⟩ := by
  induction fs with
  | nil => rfl
  | cons f fs ih =>
    have hfile : (ofFile policy hits f).lines =
        ⟨(linesOf f.sequences).card, (linesOf (f.sequences.filter (policy.covers hits))).card⟩ := by
      rw [← countLines_lineRange, ← countLines_lineRange]
      rfl
    rw [ofFiles_cons, add, hfile, ih]
    rfl

end Tally

/-! ## Summaries -/

namespace Summary

/-- The counts of a summary are a measure of files. They are bounded, add up over files and depend
on no order; lines are counted once for each file, from the ranges of its statements. They grow
with the points that were hit, and do not depend on how often these were. Where a branch counts for
its statement they are at least those where it does not, and the same for branches. -/
theorem counts_measure (threshold : Threshold) (policy : HitPolicy) (hits : Hits)
    (files : List SourceFile) :
    let counts (policy : HitPolicy) (hits : Hits) (files : List SourceFile) : Tally :=
      (ofFiles threshold policy hits files).tally
    (counts policy hits files).Bounded ∧
      (∀ more, counts policy hits (files ++ more) =
        (counts policy hits files).add (counts policy hits more)) ∧
      (∀ files', ReorderedBy SourceFile.Reordered files files' →
        counts policy hits files' = counts policy hits files) ∧
      (counts policy hits files).lines =
        ⟨(files.map fun f => (linesOf f.sequences).card).sum,
          (files.map fun f => (linesOf (f.sequences.filter (policy.covers hits))).card).sum⟩ ∧
      (∀ hits', (∀ id, 0 < hits.count id → 0 < hits'.count id) →
        (counts policy hits files).Grows (counts policy hits' files)) ∧
      (∀ hits', (∀ id, 0 < hits.count id ↔ 0 < hits'.count id) →
        counts policy hits' files = counts policy hits files) ∧
      (counts .independent hits files).Grows (counts .branchImpliesSequence hits files) ∧
      (counts .independent hits files).branches =
        (counts .branchImpliesSequence hits files).branches := by
  simp only [tally_ofFiles]
  refine ⟨Tally.ofFiles_bounded policy hits files, Tally.ofFiles_append files,
    fun files' h => (Tally.ofFiles_reordered h).symm, Tally.lines_ofFiles policy hits files,
    fun hits' h => Tally.ofFiles_grows_of_hits h files, fun hits' h => ?_, ?_,
    Tally.branches_ofFiles _ _ hits files⟩
  · have hmore : (Tally.ofFiles policy hits files).Grows (Tally.ofFiles policy hits' files) :=
      Tally.ofFiles_grows_of_hits (fun id => (h id).mp) files
    exact Tally.Grows.antisymm (Tally.ofFiles_grows_of_hits (fun id => (h id).mpr) files) hmore
  · exact Tally.ofFiles_grows (fun _ => Tally.covers_of_independent) (fun _ => id) files

/-- A statement of some lines, with conditions that have branches of these ids. -/
def spanning (hitId : HitId) (first last : UInt32) (conditions : List (List HitId)) : Sequence :=
  ⟨hitId, 0, first, 1, last, 2, ⟨"T", "M", "T::M"⟩, "IL_0000: nop",
    conditions.map fun ids =>
      ⟨4, "IL_0004: switch", ids.map fun id => ⟨id, 0, false, "IL_0000: nop"⟩⟩⟩

/-- Two statements with a line in common, and a file with one of its own. -/
def overlapping : List SourceFile :=
  [⟨"A.cs", [spanning 1 1 3 [], spanning 2 3 5 [[3, 4], [5, 6]]]⟩, ⟨"B.cs", [spanning 7 3 2 []]⟩]

/-- The same, with the files, the statements and the conditions in another order. -/
def overlappingReordered : List SourceFile :=
  [⟨"B.cs", [spanning 7 3 2 []]⟩, ⟨"A.cs", [spanning 2 3 5 [[5, 6], [3, 4]], spanning 1 1 3 []]⟩]

theorem reordered_overlapping :
    ReorderedBy SourceFile.Reordered overlapping overlappingReordered := by
  have hsame : ∀ s : Sequence, s.Reordered s := fun _ => ⟨rfl, .refl _⟩
  have hswapped : (spanning 2 3 5 [[3, 4], [5, 6]]).Reordered (spanning 2 3 5 [[5, 6], [3, 4]]) :=
    ⟨rfl, .swap ..⟩
  refine ⟨overlapping.reverse, .swap .., .cons ⟨rfl, _, .refl _, .cons (hsame _) .nil⟩
    (.cons ⟨rfl, [spanning 2 3 5 [[3, 4], [5, 6]], spanning 1 1 3 []], .swap .., ?_⟩ .nil)⟩
  exact .cons hswapped (.cons (hsame _) .nil)

theorem counts_measure_overlapping :
    let hits : Hits := .ofList [(1, 1), (4, 2)]
    let counts (policy : HitPolicy) (hits : Hits) (files : List SourceFile) : Tally :=
      (ofFiles .standard policy hits files).tally
    counts .independent hits overlappingReordered = counts .independent hits overlapping ∧
      (counts .independent hits overlapping).lines = ⟨6, 3⟩ ∧
      (counts .branchImpliesSequence hits overlapping).lines = ⟨6, 5⟩ ∧
      (counts .independent hits overlapping).Grows
        (counts .independent (hits.add 2 1) overlapping) ∧
      counts .independent (hits.add 4 9) overlapping = counts .independent hits overlapping := by
  intro hits counts
  obtain ⟨-, -, horder, hlines, hmore, hsame, -⟩ :=
    counts_measure .standard .independent hits overlapping
  obtain ⟨-, -, -, hlines', -⟩ := counts_measure .standard .branchImpliesSequence hits overlapping
  refine ⟨horder _ reordered_overlapping, ?_, ?_, hmore _ fun id h => ?_, hsame _ fun id => ?_⟩
  · rw [hlines]
    decide +kernel
  · rw [hlines']
    decide +kernel
  · rw [Hits.count_add]
    split
    · decide +kernel
    · exact h
  · rw [Hits.count_add]
    split
    · next hid =>
      rw [hid]
      decide +kernel
    · rfl

end Summary

end CilCoverage
