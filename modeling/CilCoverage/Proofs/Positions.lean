/-
  Positions in blocks that are laid end to end.

  `begins` tells where a block begins, from the lengths of those before it. A
  position in the whole is the beginning of a block and a position in it
  (`getElem?_flatten_begins`, `exists_begins_add`).
-/
import CilCoverage.LabelledBody
import Mathlib.Algebra.BigOperators.Group.List.Basic
import Mathlib.Algebra.GroupWithZero.Nat

namespace CilCoverage

/-- The beginning of block `k`, when blocks of these lengths are laid end to end from zero. -/
def begins (ns : List Nat) (k : Nat) : Nat := (ns.take k).sum

@[simp] theorem begins_zero (ns : List Nat) : begins ns 0 = 0 := by
  simp [begins]

@[simp] theorem begins_cons_succ (n : Nat) (ns : List Nat) (k : Nat) :
    begins (n :: ns) (k + 1) = n + begins ns k := by
  simp [begins]

theorem begins_succ {ns : List Nat} {k : Nat} (h : k < ns.length) :
    begins ns (k + 1) = begins ns k + ns[k] := by
  unfold begins
  rw [List.take_succ_eq_append_getElem h, List.sum_append, List.sum_singleton]

theorem begins_length (ns : List Nat) : begins ns ns.length = ns.sum := by
  simp [begins]

theorem begins_mono {ns : List Nat} {j k : Nat} (h : j ≤ k) : begins ns j ≤ begins ns k := by
  induction ns generalizing j k with
  | nil => simp [begins]
  | cons n ns ih =>
    cases j with
    | zero => simp
    | succ j =>
      cases k with
      | zero => omega
      | succ k =>
        have := ih (j := j) (k := k) (by omega)
        simp only [begins_cons_succ]
        omega

theorem begins_le_sum (ns : List Nat) (k : Nat) : begins ns k ≤ ns.sum := by
  rcases Nat.le_total k ns.length with h | h
  · rw [← begins_length]
    exact begins_mono h
  · have hall : begins ns k = ns.sum := by rw [begins, List.take_of_length_le h]
    exact Nat.le_of_eq hall

/-- Blocks do not overlap. -/
theorem begins_add_le {ns : List Nat} {j k : Nat} (hj : j < ns.length) (h : j < k) :
    begins ns j + ns[j] ≤ begins ns k := by
  rw [← begins_succ hj]
  exact begins_mono h

theorem begins_lt {ns : List Nat} (hpos : ∀ n ∈ ns, 0 < n) {j k : Nat} (h : j < k)
    (hk : k ≤ ns.length) : begins ns j < begins ns k := by
  have hj : j < ns.length := by omega
  have h1 := begins_add_le hj h
  have h2 := hpos _ (List.getElem_mem hj)
  omega

theorem begins_inj {ns : List Nat} (hpos : ∀ n ∈ ns, 0 < n) {j k : Nat} (hj : j ≤ ns.length)
    (hk : k ≤ ns.length) (h : begins ns j = begins ns k) : j = k := by
  rcases Nat.lt_trichotomy j k with hlt | heq | hgt
  · have := begins_lt hpos hlt hk
    omega
  · exact heq
  · have := begins_lt hpos hgt hj
    omega

theorem exists_begins_add {ns : List Nat} {q : Nat} (h : q < ns.sum) :
    ∃ i k, ∃ hi : i < ns.length, k < ns[i] ∧ q = begins ns i + k := by
  induction ns generalizing q with
  | nil => simp at h
  | cons n ns ih =>
    by_cases hq : q < n
    · exact ⟨0, q, by simp, by simpa using hq, by simp⟩
    · have hsum : q - n < ns.sum := by
        rw [List.sum_cons] at h
        omega
      obtain ⟨i, k, hi, hk, heq⟩ := ih hsum
      refine ⟨i + 1, k, by simpa using hi, by simpa using hk, ?_⟩
      rw [begins_cons_succ]
      omega

theorem getElem?_prefixSums_begins {start k : Nat} {ns : List Nat} (h : k ≤ ns.length) :
    (prefixSums start ns)[k]? = some (start + begins ns k) := by
  have hfold := @List.foldl_assoc Nat (· + ·) _ (ns.take k) start 0
  rw [getElem?_prefixSums start ns k h, begins, List.sum_eq_foldl, ← hfold, Nat.add_zero]

/-! ## Blocks of a list -/

variable {α : Type}

theorem sum_map_length (bs : List (List α)) : (bs.map List.length).sum = bs.flatten.length :=
  List.length_flatten.symm

theorem getElem?_flatten_begins {bs : List (List α)} {b : List α} {i k : Nat}
    (hb : bs[i]? = some b) (hk : k < b.length) :
    bs.flatten[begins (bs.map List.length) i + k]? = b[k]? := by
  obtain ⟨hi, hbi⟩ := List.getElem?_eq_some_iff.mp hb
  rw [← List.getElem?_drop, begins, List.drop_sum_flatten, List.drop_eq_getElem_cons hi, hbi,
    List.flatten_cons, List.getElem?_append_left hk]

end CilCoverage
