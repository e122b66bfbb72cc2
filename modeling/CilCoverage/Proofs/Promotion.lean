/-
  Promotion makes as few branches long as possible.

  A round makes exactly those short branches long that are out of reach in the
  present layout (`promote_eq`). The more branches are long, the further every
  branch is from its target (`isShort_distance_of_subset`), so what is out of reach
  is long in every layout that suffices and has these branches long and maybe
  others (`farIndices_subset`). Hence the rounds stay below all sets of branches
  that suffice (`exists_rounds`), and each of them but the last makes a branch
  long (`Rounds.le_promoted`).
-/
import CilCoverage.Proofs.Relinking
import Mathlib.Algebra.Order.BigOperators.Group.List
import Mathlib.Algebra.Order.Group.Nat
import Mathlib.Data.Finset.Card

namespace CilCoverage

/-- Where blocks get longer, so does what lies between two of their beginnings. -/
theorem begins_add_begins_le {ms ns : List Nat} (h : List.Forall₂ (· ≤ ·) ms ns) {a b : Nat}
    (hab : a ≤ b) : begins ms b + begins ns a ≤ begins ms a + begins ns b := by
  obtain ⟨n, rfl⟩ := Nat.exists_eq_add_of_le hab
  have hbetween : ((ms.drop a).take n).sum ≤ ((ns.drop a).take n).sum :=
    (List.forall₂_take n (List.forall₂_drop a h)).sum_le_sum
  simp only [begins, List.take_add, List.sum_append]
  omega

namespace Layout

open Code

variable {is js : List (Instruction Nat)} {long other : Finset Nat} {k : Nat}

/-! ## Layouts by their long branches -/

/-- The instructions with those at some indices made long. -/
def lengthenAt (long : Finset Nat) (is : List (Instruction Nat)) : List (Instruction Nat) :=
  is.mapIdx fun k i => if k ∈ long then lengthen i else i

/-- The indices of the short branches. -/
def shortIndices (is : List (Instruction Nat)) : Finset Nat :=
  {k ∈ Finset.range is.length | is[k]?.any isShortBranch = true}

/-- From the end of the instruction `k` to the instruction `t`. -/
def distance (is : List (Instruction Nat)) (k t : Nat) : Int :=
  (position is t : Int) - position is (k + 1)

/-- In the layout where exactly these branches are long, all other short branches reach their
targets. -/
def Suffices (is : List (Instruction Nat)) (long : Finset Nat) : Prop :=
  ∀ k i t, is[k]? = some i → isShortBranch i = true → k ∉ long → t ∈ i.operand.targets →
    isShort (distance (lengthenAt long is) k t) = true

theorem lengthen_of_none {i : Instruction Nat} (h : i.opcode.longForm? = none) :
    lengthen i = i := by
  rw [lengthen, h]
  rfl

theorem isShortBranch_lengthen (i : Instruction Nat) : isShortBranch (lengthen i) = false := by
  by_contra hshort
  rw [Bool.not_eq_false, isShortBranch_iff] at hshort
  cases hlong : i.opcode.longForm? with
  | none =>
    rw [lengthen_of_none hlong] at hshort
    obtain ⟨long, hsome⟩ := OpCode.exists_longForm? hshort
    rw [hlong] at hsome
    cases hsome
  | some long =>
    rw [lengthen, hlong] at hshort
    have hkind : long.operandKind = .target8 := hshort
    rw [operandKind_longForm? hlong] at hkind
    cases hkind

theorem lengthen_lengthen (i : Instruction Nat) : lengthen (lengthen i) = lengthen i := by
  refine lengthen_of_none ?_
  by_contra hsome
  obtain ⟨long, hlong⟩ := Option.ne_none_iff_exists'.mp hsome
  have hshort := isShortBranch_iff.mpr (OpCode.operandKind_of_longForm? hlong)
  rw [isShortBranch_lengthen] at hshort
  cases hshort

theorem getElem?_lengthenAt (long : Finset Nat) (is : List (Instruction Nat)) (k : Nat) :
    (lengthenAt long is)[k]? = is[k]?.map fun i => if k ∈ long then lengthen i else i :=
  List.getElem?_mapIdx

theorem lengthenAt_empty (is : List (Instruction Nat)) : lengthenAt ∅ is = is := by
  apply List.ext_getElem?
  intro k
  simp [getElem?_lengthenAt]

theorem lengthenAt_lengthenAt (is : List (Instruction Nat)) (long other : Finset Nat) :
    lengthenAt other (lengthenAt long is) = lengthenAt (long ∪ other) is := by
  apply List.ext_getElem?
  intro k
  rw [getElem?_lengthenAt, getElem?_lengthenAt, getElem?_lengthenAt, Option.map_map]
  congr 1
  funext i
  by_cases hlong : k ∈ long <;> by_cases hother : k ∈ other <;>
    simp [hlong, hother, lengthen_lengthen]

theorem mem_shortIndices :
    k ∈ shortIndices is ↔ ∃ i, is[k]? = some i ∧ isShortBranch i = true := by
  rw [shortIndices, Finset.mem_filter, Finset.mem_range, Option.any_eq_true]
  constructor
  · exact fun h => h.2
  · rintro ⟨i, hi, hshort⟩
    exact ⟨(List.getElem?_eq_some_iff.mp hi).1, i, hi, hshort⟩

theorem shortIndices_concat (is : List (Instruction Nat)) (i : Instruction Nat) :
    shortIndices (is ++ [i]) =
      if isShortBranch i then insert is.length (shortIndices is) else shortIndices is := by
  ext k
  rw [mem_shortIndices]
  rcases Nat.lt_trichotomy k is.length with hlt | rfl | hgt
  · rw [List.getElem?_append_left hlt, ← mem_shortIndices]
    split
    · rw [Finset.mem_insert]
      exact ⟨Or.inr, fun h => h.resolve_left (Nat.ne_of_lt hlt)⟩
    · rfl
  · have hnot : is.length ∉ shortIndices is := by
      rw [mem_shortIndices]
      simp
    by_cases hshort : isShortBranch i = true <;> simp [hshort, hnot]
  · have hnone : (is ++ [i])[k]? = none := by
      rw [List.getElem?_eq_none_iff, List.length_append, List.length_singleton]
      omega
    have hnot : k ∉ shortIndices is := by
      rw [mem_shortIndices, List.getElem?_eq_none (Nat.le_of_lt hgt)]
      simp
    rw [hnone]
    split <;> simp [hnot, Nat.ne_of_gt hgt]

theorem card_shortIndices (is : List (Instruction Nat)) :
    (shortIndices is).card = shortBranches is := by
  induction is using List.reverseRecOn with
  | nil => rfl
  | append_singleton is i ih =>
    have hnot : is.length ∉ shortIndices is := by
      rw [mem_shortIndices]
      simp
    rw [shortIndices_concat, shortBranches, List.countP_append, List.countP_singleton]
    split
    · rw [Finset.card_insert_of_notMem hnot, ih]
      rfl
    · rw [ih]
      rfl

/-- A branch that was made long is not short any more. -/
theorem shortIndices_lengthenAt (is : List (Instruction Nat)) (long : Finset Nat) :
    shortIndices (lengthenAt long is) = shortIndices is \ long := by
  ext k
  rw [Finset.mem_sdiff, mem_shortIndices, mem_shortIndices, getElem?_lengthenAt]
  by_cases hlong : k ∈ long
  · simp [hlong, isShortBranch_lengthen]
  · simp [hlong]

theorem card_add_shortBranches (h : long ⊆ shortIndices is) :
    shortBranches (lengthenAt long is) + long.card = shortBranches is := by
  rw [← card_shortIndices, ← card_shortIndices, shortIndices_lengthenAt,
    Finset.card_sdiff_add_card_eq_card h]

theorem stretched_lengthen (i : Instruction Nat) : Stretched i (lengthen i) := by
  refine ⟨rfl, rfl, ?_⟩
  cases hlong : i.opcode.longForm? with
  | none => exact Or.inl (by rw [lengthen_of_none hlong])
  | some long => exact Or.inr (by rw [lengthen, hlong]; rfl)

theorem stretched_lengthenAt (long : Finset Nat) (is : List (Instruction Nat)) :
    List.Forall₂ Stretched is (lengthenAt long is) := by
  rw [List.forall₂_iff_get]
  refine ⟨by simp [lengthenAt], fun k h₁ h₂ => ?_⟩
  rw [List.get_eq_getElem, List.get_eq_getElem]
  simp only [lengthenAt, List.getElem_mapIdx]
  split
  · exact stretched_lengthen _
  · exact .refl _

/-! ## Distances -/

theorem size_lengthenAt (hsub : long ⊆ other) (is : List (Instruction Nat)) :
    List.Forall₂ (· ≤ ·) ((lengthenAt long is).map Instruction.size)
      ((lengthenAt other is).map Instruction.size) := by
  rw [List.forall₂_map_left_iff, List.forall₂_map_right_iff, List.forall₂_iff_get]
  refine ⟨by simp [lengthenAt], fun k h₁ h₂ => ?_⟩
  rw [List.get_eq_getElem, List.get_eq_getElem]
  simp only [lengthenAt, List.getElem_mapIdx]
  by_cases hlong : k ∈ long
  · rw [if_pos hlong, if_pos (hsub hlong)]
  · rw [if_neg hlong]
    split
    · exact (stretched_lengthen _).size_le.1
    · exact Nat.le_refl _

theorem isShort_iff {d : Int} : isShort d = true ↔ -128 ≤ d ∧ d ≤ 127 := decide_eq_true_iff

/-- What is in reach is so where fewer branches are long. -/
theorem isShort_distance_of_subset (hsub : long ⊆ other) {k t : Nat}
    (h : isShort (distance (lengthenAt other is) k t) = true) :
    isShort (distance (lengthenAt long is) k t) = true := by
  have hsizes := size_lengthenAt hsub is
  rw [isShort_iff, distance] at h ⊢
  rcases Nat.le_total t (k + 1) with hback | hforth
  · have hgrow := begins_add_begins_le hsizes hback
    have hle : position (lengthenAt long is) t ≤ position (lengthenAt long is) (k + 1) :=
      position_mono hback
    unfold position at h hle ⊢
    omega
  · have hgrow := begins_add_begins_le hsizes hforth
    have hle : position (lengthenAt long is) (k + 1) ≤ position (lengthenAt long is) t :=
      position_mono hforth
    unfold position at h hle ⊢
    omega

/-! ## One round -/

/-- The short branches that do not reach their targets. -/
def farIndices (is : List (Instruction Nat)) : Finset Nat :=
  {k ∈ shortIndices is |
    is[k]?.any fun i => i.operand.targets.any fun t => !isShort (distance is k t)}

theorem mem_farIndices : k ∈ farIndices is ↔ ∃ i, is[k]? = some i ∧ isShortBranch i = true ∧
    ∃ t ∈ i.operand.targets, isShort (distance is k t) = false := by
  rw [farIndices, Finset.mem_filter, mem_shortIndices, Option.any_eq_true]
  constructor
  · rintro ⟨⟨i, hi, hshort⟩, j, hj, hany⟩
    obtain rfl : i = j := Option.some.inj (hi.symm.trans hj)
    obtain ⟨t, ht, hfar⟩ := List.any_eq_true.mp hany
    exact ⟨i, hi, hshort, t, ht, by simpa using hfar⟩
  · rintro ⟨i, hi, hshort, t, ht, hfar⟩
    exact ⟨⟨i, hi, hshort⟩, i, hi, List.any_eq_true.mpr ⟨t, ht, by simp [hfar]⟩⟩

theorem farIndices_subset_shortIndices (is : List (Instruction Nat)) :
    farIndices is ⊆ shortIndices is := Finset.filter_subset _ _

theorem mem_farIndices_lengthenAt : k ∈ farIndices (lengthenAt long is) ↔
    ∃ i, is[k]? = some i ∧ isShortBranch i = true ∧ k ∉ long ∧
      ∃ t ∈ i.operand.targets, isShort (distance (lengthenAt long is) k t) = false := by
  rw [mem_farIndices, getElem?_lengthenAt]
  by_cases hlong : k ∈ long
  · simp [hlong, isShortBranch_lengthen]
  · simp [hlong]

/-- The long branches suffice exactly if nothing is out of reach. -/
theorem suffices_iff : Suffices is long ↔ farIndices (lengthenAt long is) = ∅ := by
  rw [Finset.eq_empty_iff_forall_notMem]
  constructor
  · intro h k hk
    obtain ⟨i, hi, hshort, hlong, t, ht, hfar⟩ := mem_farIndices_lengthenAt.mp hk
    rw [h k i t hi hshort hlong ht] at hfar
    cases hfar
  · intro h k i t hi hshort hlong ht
    by_contra hfar
    exact h k (mem_farIndices_lengthenAt.mpr
      ⟨i, hi, hshort, hlong, t, ht, Bool.eq_false_iff.mpr hfar⟩)

/-- What is out of reach is long wherever enough branches are, these among them. -/
theorem farIndices_subset (h : Suffices is other) (hsub : long ⊆ other) :
    farIndices (lengthenAt long is) ⊆ other := by
  intro k hk
  obtain ⟨i, hi, hshort, -, t, ht, hfar⟩ := mem_farIndices_lengthenAt.mp hk
  by_contra hother
  rw [isShort_distance_of_subset hsub (h k i t hi hshort hother ht)] at hfar
  cases hfar

theorem promotion?_of_not_short {starts : Array Nat} {offset : Nat} {i : Instruction Nat}
    (h : isShortBranch i = false) : promotion? starts offset i = .ok none := by
  unfold promotion?
  rw [h]

theorem promotion?_eq {i : Instruction Nat} (hi : is[k]? = some i) (hfits : i.fits = true)
    (htargets : ∀ t ∈ i.operand.targets, t ≤ is.length) :
    promotion? (offsets is).toArray (position is k) i =
      .ok (if k ∈ farIndices is then i.opcode.longForm? else none) := by
  by_cases hshort : isShortBranch i = true
  · obtain ⟨t, ho⟩ := exists_target hfits hshort
    obtain ⟨long, hlong⟩ := OpCode.exists_longForm? (isShortBranch_iff.mp hshort)
    have ht : t ∈ i.operand.targets := by simp [ho, Operand.targets]
    have hnext : position is (k + 1) = position is k + i.size := position_succ hi
    have hdistance : (position is t : Int) - (position is k + i.size : Nat) = distance is k t := by
      rw [distance, hnext]
    have hfar : k ∈ farIndices is ↔ isShort (distance is k t) = false := by
      rw [mem_farIndices]
      constructor
      · rintro ⟨j, hj, -, u, hu, hfar⟩
        obtain rfl : i = j := Option.some.inj (hi.symm.trans hj)
        obtain rfl : u = t := by simpa [ho, Operand.targets] using hu
        exact hfar
      · exact fun hfar => ⟨i, hi, hshort, t, ht, hfar⟩
    unfold promotion?
    rw [hshort, ho]
    dsimp only
    rw [starts_getElem? (htargets t ht)]
    dsimp only
    rw [hdistance, hlong]
    by_cases hreach : isShort (distance is k t) = true
    · have hnear : k ∉ farIndices is := by
        rw [hfar, hreach]
        decide
      rw [if_pos hreach, if_neg hnear]
    · rw [if_neg hreach, if_pos (hfar.mpr (Bool.eq_false_iff.mpr hreach))]
  · have hnear : k ∉ farIndices is := by
      rw [mem_farIndices]
      rintro ⟨j, hj, hshort', -⟩
      obtain rfl : i = j := Option.some.inj (hi.symm.trans hj)
      exact hshort hshort'
    rw [if_neg hnear, promotion?_of_not_short (Bool.eq_false_iff.mpr hshort)]

/-- A round makes long what `promotion?` tells, each branch at its own offset. -/
theorem getElem?_promote {starts : Array Nat} {offset : Nat} {r : List (Instruction Nat) × Nat}
    (h : promote starts offset is = .ok r) {i : Instruction Nat} (hi : is[k]? = some i) :
    ∃ long, promotion? starts (offset + position is k) i = .ok long ∧
      r.1[k]? = some { i with opcode := long.getD i.opcode } := by
  induction is generalizing offset r k with
  | nil => cases hi
  | cons j rest ih =>
    obtain ⟨long, hlong, h⟩ := Result.bind_eq_ok.mp h
    obtain ⟨s, hs, h⟩ := Result.bind_eq_ok.mp h
    have hr : r.1 = { j with opcode := long.getD j.opcode } :: s.1 := by
      cases long <;> cases h <;> rfl
    cases k with
    | zero =>
      obtain rfl : j = i := by simpa using hi
      exact ⟨long, by rwa [position_zero, Nat.add_zero], by rw [hr]; rfl⟩
    | succ k =>
      obtain ⟨long', hlong', hk⟩ := ih hs (by simpa using hi)
      refine ⟨long', ?_, by rw [hr, List.getElem?_cons_succ, hk]⟩
      rw [position, List.map_cons, begins_cons_succ, ← Nat.add_assoc]
      exact hlong'

/-- A round makes exactly those short branches long that are out of reach. -/
theorem promote_eq (hfits : ∀ i ∈ is, i.fits = true)
    (htargets : ∀ i ∈ is, ∀ t ∈ i.operand.targets, t ≤ is.length) :
    promote (offsets is).toArray 0 is =
      .ok (lengthenAt (farIndices is) is, (farIndices is).card) := by
  obtain ⟨⟨js, n⟩, hround⟩ : ∃ r, promote (offsets is).toArray 0 is = .ok r :=
    promote_ok 0 fun i hi t ht => by
      have := htargets i hi t ht
      rw [List.size_toArray, length_offsets]
      omega
  have hinstructions : js = lengthenAt (farIndices is) is := by
    apply List.ext_getElem?
    intro k
    rw [getElem?_lengthenAt]
    cases hi : is[k]? with
    | none =>
      have hlen : is.length = js.length := (stretched_promote hround).length_eq
      rw [List.getElem?_eq_none_iff, hlen] at hi
      exact List.getElem?_eq_none hi
    | some i =>
      obtain ⟨long, hlong, hk⟩ := getElem?_promote hround hi
      have hmem := List.mem_of_getElem? hi
      rw [Nat.zero_add, promotion?_eq hi (hfits i hmem) (htargets i hmem)] at hlong
      cases hlong
      rw [hk, Option.map_some]
      split <;> rfl
  have hcount : shortBranches js + n = shortBranches is := shortBranches_promote hround
  have hcard := card_add_shortBranches (farIndices_subset_shortIndices is)
  rw [hround, hinstructions]
  rw [hinstructions] at hcount
  congr 2
  omega

/-! ## All rounds -/

/-- The loop ends after so many rounds, the last of which makes no branch long. -/
inductive Rounds : Nat → List (Instruction Nat) → List (Instruction Nat) × Nat → Prop
  | last {is js : List (Instruction Nat)} (h : promote (offsets is).toArray 0 is = .ok (js, 0)) :
      Rounds 1 is (js, 0)
  | again {is longer js : List (Instruction Nat)} {rounds count promoted : Nat}
      (h : promote (offsets is).toArray 0 is = .ok (longer, count + 1))
      (hrest : Rounds rounds longer (js, promoted)) :
      Rounds (rounds + 1) is (js, promoted + (count + 1))

namespace Rounds

variable {rounds : Nat} {r : List (Instruction Nat) × Nat}

theorem settle_eq (h : Rounds rounds is r) : settle is = .ok r := by
  induction h with
  | last h => exact settle_of_zero h
  | again h _ ih =>
    rw [settle_of_succ h, ih]
    rfl

/-- Each round but the last makes a branch long. -/
theorem le_promoted (h : Rounds rounds is r) : rounds ≤ r.2 + 1 := by
  induction h with
  | last => exact Nat.le_refl _
  | again _ _ ih =>
    dsimp only at ih ⊢
    omega

end Rounds

/-- The rounds that are left once some branches are long: they end with the least sufficient
choice among those that make these branches long. -/
theorem exists_rounds (hfits : ∀ i ∈ is, i.fits = true)
    (htargets : ∀ i ∈ is, ∀ t ∈ i.operand.targets, t ≤ is.length) (before : Finset Nat)
    (hbefore : before ⊆ shortIndices is) :
    ∃ long rounds promoted, before ⊆ long ∧ long ⊆ shortIndices is ∧
      Rounds rounds (lengthenAt before is) (lengthenAt long is, promoted) ∧
      promoted + before.card = long.card ∧ Suffices is long ∧
      ∀ other, before ⊆ other → Suffices is other → long ⊆ other := by
  have hstretched := stretched_lengthenAt before is
  have hround : promote (offsets (lengthenAt before is)).toArray 0 (lengthenAt before is) =
      .ok (lengthenAt (before ∪ farIndices (lengthenAt before is)) is,
        (farIndices (lengthenAt before is)).card) := by
    rw [promote_eq (Stretched.forall_fits hstretched hfits), lengthenAt_lengthenAt]
    rw [← hstretched.length_eq]
    exact Stretched.forall_targets hstretched htargets
  have hfar : farIndices (lengthenAt before is) ⊆ shortIndices is \ before := by
    rw [← shortIndices_lengthenAt]
    exact farIndices_subset_shortIndices _
  generalize hnew : farIndices (lengthenAt before is) = new at hround hfar
  rcases new.eq_empty_or_nonempty with rfl | hne
  · rw [Finset.union_empty, Finset.card_empty] at hround
    exact ⟨before, 1, 0, subset_rfl, hbefore, .last hround, Nat.zero_add _,
      suffices_iff.mpr hnew, fun other hsub _ => hsub⟩
  · obtain ⟨count, hcount⟩ := Nat.exists_eq_succ_of_ne_zero (Finset.card_ne_zero.mpr hne)
    have hdisjoint : Disjoint before new := (Finset.subset_sdiff.mp hfar).2.symm
    have hcard : (before ∪ new).card = before.card + new.card :=
      Finset.card_union_of_disjoint hdisjoint
    have hunion : before ∪ new ⊆ shortIndices is :=
      Finset.union_subset hbefore (Finset.subset_sdiff.mp hfar).1
    have hlt : (shortIndices is).card - (before ∪ new).card <
        (shortIndices is).card - before.card := by
      have := Finset.card_le_card hunion
      omega
    obtain ⟨long, rounds, promoted, hsub, hlong, hrounds, hpromoted, hsuffices, hleast⟩ :=
      exists_rounds hfits htargets (before ∪ new) hunion
    rw [hcount] at hround
    refine ⟨long, rounds + 1, promoted + (count + 1), Finset.union_subset_left hsub, hlong,
      .again hround hrounds, by omega, hsuffices, fun other hother h => ?_⟩
    exact hleast other (Finset.union_subset hother (hnew ▸ farIndices_subset h hother)) h
termination_by (shortIndices is).card - before.card

theorem settled_of_suffices (h : Suffices is long)
    (htargets : ∀ i ∈ is, ∀ t ∈ i.operand.targets, t ≤ is.length) :
    Settled (lengthenAt long is) := by
  intro k j hj hshort t ht
  rw [getElem?_lengthenAt, Option.map_eq_some_iff] at hj
  obtain ⟨i, hi, rfl⟩ := hj
  by_cases hlong : k ∈ long
  · rw [if_pos hlong, isShortBranch_lengthen] at hshort
    cases hshort
  · rw [if_neg hlong] at hshort ht ⊢
    have hle : t ≤ (lengthenAt long is).length := by
      rw [← (stretched_lengthenAt long is).length_eq]
      exact htargets i (List.mem_of_getElem? hi) t ht
    have hk : (lengthenAt long is)[k]? = some i := by
      rw [getElem?_lengthenAt, hi, Option.map_some, if_neg hlong]
    refine ⟨position (lengthenAt long is) t, starts_getElem? hle, ?_⟩
    rw [← position_succ hk]
    exact h k i t hi hshort hlong ht

end Layout

namespace LabelledBody

open Code Layout

/-- The body is laid out in so many rounds, and of its short branches exactly those at the indices
`long` are made long, which is the least choice that suffices. -/
structure PromotesLeast (body : LabelledBody) (long : Finset Nat) (rounds : Nat) : Prop where
  subset : long ⊆ shortIndices body.instructions
  run : Rounds rounds body.instructions (lengthenAt long body.instructions, long.card)
  rounds_le : rounds ≤ shortBranches body.instructions + 1
  settle : settle body.instructions = .ok (lengthenAt long body.instructions, long.card)
  /-- The code is written. Only clauses out of range can still keep the body from being laid
  out. -/
  relink : ∃ code, encode (laidOut (lengthenAt long body.instructions)) = .ok code ∧
    body.relink =
      (body.clauses.mapM (locateClause (offsets (lengthenAt long body.instructions)).toArray)).map
        (⟨code, ·, long.card⟩)
  reach : Suffices body.instructions long
  least : ∀ other ⊆ shortIndices body.instructions, Suffices body.instructions other →
    long ⊆ other

/-- Laying out a body takes at most one round more than there are short branches, and makes the
fewest of them long. -/
theorem relink_promotes_least {body : LabelledBody}
    (hfits : ∀ i ∈ body.instructions, i.fits = true)
    (htargets : ∀ i ∈ body.instructions, ∀ t ∈ i.operand.targets,
      t ≤ body.instructions.length) :
    ∃ long rounds, PromotesLeast body long rounds := by
  obtain ⟨long, rounds, promoted, -, hlong, hrounds, hpromoted, hsuffices, hleast⟩ :=
    exists_rounds hfits htargets ∅ (Finset.empty_subset _)
  rw [Finset.card_empty, Nat.add_zero] at hpromoted
  rw [lengthenAt_empty, hpromoted] at hrounds
  have hstretched := stretched_lengthenAt long body.instructions
  have htargets' := Stretched.forall_targets hstretched htargets
  rw [hstretched.length_eq] at htargets'
  refine ⟨long, rounds, ?_⟩
  exact {
    subset := hlong
    run := hrounds
    rounds_le := by
      have hle : rounds ≤ long.card + 1 := hrounds.le_promoted
      have hcard := Finset.card_le_card hlong
      rw [card_shortIndices] at hcard
      omega
    settle := hrounds.settle_eq
    relink := relink_of_settle hrounds.settle_eq (Stretched.forall_fits hstretched hfits)
      (settled_of_suffices hsuffices htargets) htargets'
    reach := hsuffices
    least := fun other _ h => hleast other (Finset.empty_subset _) h }

/-- A branch across a jump table that is one byte too far, and a branch back across both that is
so once the first one is long. -/
def cascadingBody : LabelledBody where
  instructions :=
    [⟨0, .nop, .none⟩, ⟨1, .brS, .target 5⟩, ⟨3, .switch, .table (List.replicate 29 0)⟩,
     ⟨124, .brS, .target 0⟩, ⟨126, .ldcI4, .int32 7⟩, ⟨131, .ret, .none⟩]
  clauses := []

/-- The bound on the rounds is met: each of the two branches takes a round of its own. -/
theorem relink_promotes_least_cascading :
    let is := cascadingBody.instructions
    (∀ i ∈ is, i.fits = true) ∧ (∀ i ∈ is, ∀ t ∈ i.operand.targets, t ≤ is.length) ∧
      shortBranches is = 2 ∧ Rounds 3 is (lengthenAt {1, 3} is, 2) ∧
      ∃ long rounds, PromotesLeast cascadingBody long rounds := by
  intro is
  have hfits : ∀ i ∈ is, i.fits = true := by decide
  have htargets : ∀ i ∈ is, ∀ t ∈ i.operand.targets, t ≤ is.length := by decide
  have hfirst : promote (offsets is).toArray 0 is = .ok (lengthenAt {1} is, 1) := by
    decide +kernel
  have hsecond : promote (offsets (lengthenAt {1} is)).toArray 0 (lengthenAt {1} is) =
      .ok (lengthenAt {1, 3} is, 1) := by decide +kernel
  have hthird : promote (offsets (lengthenAt {1, 3} is)).toArray 0 (lengthenAt {1, 3} is) =
      .ok (lengthenAt {1, 3} is, 0) := by decide +kernel
  exact ⟨hfits, htargets, rfl, .again hfirst (.again hsecond (.last hthird)),
    relink_promotes_least hfits htargets⟩

end LabelledBody

end CilCoverage
