/-
  Sums of hit counts.

  A count is a sum that stops at the greatest 64-bit number, so that in what
  order counts are added, and whether some of them are added up before, makes
  no difference to it: merging hit counts gives every id the sum of all that
  was merged (`toNat_count_mergeAll`), up to that number.
-/
import CilCoverage.Hits
import Mathlib.Algebra.BigOperators.Group.List.Basic
import Mathlib.Algebra.GroupWithZero.Nat

namespace CilCoverage.Hits

/-- The greatest count that is not above `n`. -/
def saturate (n : Nat) : Nat := min n (UInt64.size - 1)

theorem saturate_add_left (a b : Nat) : saturate (saturate a + b) = saturate (a + b) := by
  unfold saturate
  omega

theorem saturate_add_right (a b : Nat) : saturate (a + saturate b) = saturate (a + b) := by
  unfold saturate
  omega

theorem saturate_of_lt {n : Nat} (h : n < UInt64.size) : saturate n = n := by
  unfold saturate
  omega

theorem saturate_toNat (n : UInt64) : saturate n.toNat = n.toNat :=
  saturate_of_lt n.toNat_lt

theorem toNat_sum (a b : UInt64) : (sum a b).toNat = saturate (a.toNat + b.toNat) := by
  have hlt : saturate (a.toNat + b.toNat) < UInt64.size := by
    unfold saturate
    have : 0 < UInt64.size := by decide
    omega
  exact UInt64.toNat_ofNat_of_lt hlt

theorem sum_zero (a : UInt64) : sum a 0 = a := by
  rw [← UInt64.toNat_inj, toNat_sum]
  exact saturate_toNat a

theorem zero_sum (a : UInt64) : sum 0 a = a := by
  rw [← UInt64.toNat_inj, toNat_sum]
  exact (congrArg saturate (Nat.zero_add _)).trans (saturate_toNat a)

theorem sum_ne_zero (a : UInt64) {n : UInt64} (h : n ≠ 0) : sum a n ≠ 0 := by
  intro hzero
  have hsum : saturate (a.toNat + n.toNat) = 0 := by rw [← toNat_sum, hzero]; rfl
  have hn : n.toNat ≠ 0 := fun hn => h (UInt64.toNat_inj.mp hn)
  have hsize : 1 < UInt64.size := by decide
  unfold saturate at hsum
  omega

/-! ## Entries -/

/-- Only ids that were hit have an entry. -/
def Positive (h : Hits) : Prop := ∀ c ∈ h.toList, c.2 ≠ 0

theorem positive_empty : empty.Positive := by
  intro c hc
  cases hc

@[simp] theorem count_empty (id : HitId) : empty.count id = 0 := rfl

theorem mem_toList_iff {h : Hits} {id : HitId} {n : UInt64} :
    (id, n) ∈ h.toList ↔ h.counts.find? id = some n :=
  OrderedMap.mem_entries_iff

/-- Hit counts without entries for ids that were not hit are determined by the counts. -/
theorem ext_count {h g : Hits} (hh : h.Positive) (hg : g.Positive)
    (heq : ∀ id, h.count id = g.count id) : h = g := by
  have hsome : ∀ {h : Hits}, h.Positive → ∀ id n,
      h.counts.find? id = some n ↔ h.count id = n ∧ n ≠ 0 := by
    intro h hpos id n
    unfold count
    cases hf : h.counts.find? id with
    | none => exact ⟨nofun, fun h => absurd h.1.symm h.2⟩
    | some m =>
      have hm := hpos _ (mem_toList_iff.mpr hf)
      simp only [Option.some.injEq, Option.getD_some]
      exact ⟨fun h => ⟨h, h ▸ hm⟩, And.left⟩
  have hcounts : h.counts = g.counts := by
    refine OrderedMap.ext_find? fun id => Option.ext fun n => ?_
    rw [hsome hh, hsome hg, heq]
  cases h
  cases g
  exact congrArg mk hcounts

/-! ## Adding -/

theorem count_add (h : Hits) (id : HitId) (n : UInt64) (j : HitId) :
    (h.add id n).count j = if j = id then sum (h.count id) n else h.count j := by
  unfold add
  split
  · next hn =>
    subst hn
    split
    · next hj => rw [sum_zero, hj]
    · rfl
  · split
    · next hj =>
      subst hj
      rw [count, OrderedMap.find?_upsert_self]
      rfl
    · next hj => rw [count, OrderedMap.find?_upsert_ne _ _ hj, count]

theorem positive_add {h : Hits} (hpos : h.Positive) (id : HitId) (n : UInt64) :
    (h.add id n).Positive := by
  unfold add
  split
  · exact hpos
  · next hn =>
    intro c hc
    obtain ⟨j, m⟩ := c
    have hf := mem_toList_iff.mp hc
    by_cases hj : j = id
    · subst hj
      rw [OrderedMap.find?_upsert_self] at hf
      cases hf
      exact sum_ne_zero _ hn
    · rw [OrderedMap.find?_upsert_ne _ _ hj] at hf
      exact hpos _ (mem_toList_iff.mpr hf)

theorem positive_addAll {h : Hits} (hpos : h.Positive) (counts : List (HitId × UInt64)) :
    (h.addAll counts).Positive := by
  induction counts generalizing h with
  | nil => exact hpos
  | cons c rest ih => exact ih (positive_add hpos c.1 c.2)

/-- The sum of the counts of an id in a list. -/
def total (counts : List (HitId × UInt64)) (id : HitId) : Nat :=
  (counts.map fun c => if c.1 = id then c.2.toNat else 0).sum

theorem toNat_count_addAll (h : Hits) (counts : List (HitId × UInt64)) (id : HitId) :
    ((h.addAll counts).count id).toNat = saturate ((h.count id).toNat + total counts id) := by
  induction counts generalizing h with
  | nil => exact (saturate_toNat _).symm
  | cons c rest ih =>
    have hstep : (h.addAll (c :: rest)).count id = ((h.add c.1 c.2).addAll rest).count id := rfl
    rw [hstep, ih, count_add]
    by_cases hid : id = c.1
    · rw [if_pos hid, toNat_sum, saturate_add_left, total, total, List.map_cons, List.sum_cons,
        if_pos hid.symm, hid, Nat.add_assoc]
    · rw [if_neg hid, total, total, List.map_cons, List.sum_cons,
        if_neg fun h => hid h.symm, Nat.zero_add]

theorem total_of_sorted {l : List (HitId × UInt64)}
    (h : l.Pairwise fun a b => compare a.1 b.1 = .lt) (id : HitId) :
    total l id = ((OrderedMap.findList? id l).getD 0).toNat := by
  induction l with
  | nil => rfl
  | cons c rest ih =>
    obtain ⟨hc, hrest⟩ := List.pairwise_cons.mp h
    have ih := ih hrest
    rw [total, List.map_cons, List.sum_cons, OrderedMap.findList?]
    rw [total] at ih
    by_cases hid : c.1 = id
    · -- no other entry has this id
      have hnone : OrderedMap.findList? id rest = none := by
        refine OrderedMap.findList?_eq_none fun e he => ?_
        rw [← hid, hc e he]
        decide
      rw [ih, hnone, if_pos hid, if_pos (by rw [hid]; exact Std.ReflCmp.compare_self)]
      rfl
    · rw [ih, if_neg hid, Nat.zero_add,
        if_neg fun hk => hid (Std.LawfulEqOrd.eq_of_compare hk).symm]

theorem total_toList (h : Hits) (id : HitId) : total h.toList id = (h.count id).toNat :=
  total_of_sorted h.counts.sorted id

/-! ## Merging -/

theorem toNat_count_merge (h other : Hits) (id : HitId) :
    ((h.merge other).count id).toNat = saturate ((h.count id).toNat + (other.count id).toNat) := by
  rw [merge, toNat_count_addAll, total_toList]

theorem positive_merge {h : Hits} (hpos : h.Positive) (other : Hits) :
    (h.merge other).Positive :=
  positive_addAll hpos other.toList

theorem toNat_count_mergeAll (hits : List Hits) (id : HitId) :
    ((mergeAll hits).count id).toNat = saturate (hits.map fun h => (h.count id).toNat).sum := by
  have hfold : ∀ start : Hits, ((hits.foldl merge start).count id).toNat =
      saturate ((start.count id).toNat + (hits.map fun h => (h.count id).toNat).sum) := by
    intro start
    induction hits generalizing start with
    | nil => exact (saturate_toNat _).symm
    | cons h rest ih =>
      rw [List.foldl_cons, ih, toNat_count_merge, saturate_add_left, List.map_cons, List.sum_cons,
        Nat.add_assoc]
  rw [mergeAll, hfold, count_empty]
  exact congrArg saturate (Nat.zero_add _)

theorem positive_mergeAll (hits : List Hits) : (mergeAll hits).Positive := by
  have hfold : ∀ start : Hits, start.Positive → (hits.foldl merge start).Positive := by
    intro start hpos
    induction hits generalizing start with
    | nil => exact hpos
    | cons h rest ih => exact ih _ (positive_merge hpos h)
  exact hfold empty positive_empty

end CilCoverage.Hits
