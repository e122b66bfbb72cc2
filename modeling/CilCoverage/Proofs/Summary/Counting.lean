/-
  Counting files.

  Tallies are added like numbers, so a sum of tallies does not depend on their
  order (`sum_perm`), and neither does what is counted in files
  (`ofFiles_perm`). Files can be counted group by group (`ofFiles_flatMap`).
-/
import CilCoverage.Summary
import Mathlib.Data.List.Perm.Basic

namespace CilCoverage

/-! ## Sums -/

namespace Tally

theorem add_assoc (a b c : Tally) : (a.add b).add c = a.add (b.add c) := by
  simp only [add, Count.add, Nat.add_assoc]

theorem add_comm (a b : Tally) : a.add b = b.add a := by
  simp only [add, Count.add, Nat.add_comm]

@[simp] theorem zero_add (a : Tally) : zero.add a = a := by
  simp only [add, zero, Count.add, Nat.zero_add]

@[simp] theorem add_zero (a : Tally) : a.add zero = a := by
  rw [add_comm, zero_add]

instance : Std.Commutative Tally.add := ⟨add_comm⟩

instance : Std.Associative Tally.add := ⟨add_assoc⟩

/-- The sum of several counts. -/
def sum (ts : List Tally) : Tally := ts.foldl add zero

@[simp] theorem sum_nil : sum [] = zero := rfl

@[simp] theorem sum_cons (t : Tally) (ts : List Tally) : sum (t :: ts) = t.add (sum ts) := by
  rw [sum, List.foldl_cons, add_comm, List.foldl_assoc]
  rfl

theorem sum_append (ts us : List Tally) : sum (ts ++ us) = (sum ts).add (sum us) := by
  induction ts with
  | nil => simp
  | cons t ts ih => rw [List.cons_append, sum_cons, sum_cons, ih, add_assoc]

theorem sum_perm {ts us : List Tally} (h : ts.Perm us) : sum ts = sum us := h.foldl_eq zero

/-! ## Files -/

section Files

variable {policy : HitPolicy} {hits : Hits}

@[simp] theorem ofFiles_nil : ofFiles policy hits [] = zero := rfl

theorem ofFiles_append (fs gs : List SourceFile) :
    ofFiles policy hits (fs ++ gs) = (ofFiles policy hits fs).add (ofFiles policy hits gs) := by
  unfold ofFiles
  rw [List.map_append]
  exact sum_append _ _

theorem ofFiles_perm {fs gs : List SourceFile} (h : fs.Perm gs) :
    ofFiles policy hits fs = ofFiles policy hits gs :=
  sum_perm (h.map _)

/-- Files can be counted group by group. -/
theorem ofFiles_flatMap {α : Type} (f : α → List SourceFile) (xs : List α) :
    ofFiles policy hits (xs.flatMap f) = sum (xs.map fun x => ofFiles policy hits (f x)) := by
  induction xs with
  | nil => rfl
  | cons x xs ih => rw [List.flatMap_cons, ofFiles_append, ih, List.map_cons, sum_cons]

end Files

end Tally

/-! ## Counts of a summary -/

namespace Summary

/-- What a summary counts. -/
def tally (s : Summary) : Tally := ⟨s.statements.count, s.lines.count, s.branches.count⟩

theorem tally_ofFiles (threshold : Threshold) (policy : HitPolicy) (hits : Hits)
    (files : List SourceFile) :
    (ofFiles threshold policy hits files).tally = Tally.ofFiles policy hits files := rfl

end Summary

end CilCoverage
