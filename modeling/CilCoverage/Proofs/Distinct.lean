/-
  The distinct elements of a list.

  `List.eraseDups` keeps the first of several equal elements, so a list that
  grows at its end keeps what it has (`eraseDups_snoc`). What is left is in the
  list once (`nodup_eraseDups`), and there are as many of them as the list has
  distinct elements (`length_eraseDups`). Taken for distinct keys, the elements
  of a list are the same ones in another order (`flatMap_filter_perm`).
-/
import Mathlib.Data.Finset.Card
import Mathlib.Data.List.Induction
import Mathlib.Data.List.Perm.Basic

namespace CilCoverage

variable {α : Type} [BEq α] [LawfulBEq α]

theorem eraseDups_snoc [DecidableEq α] (l : List α) (a : α) :
    (l ++ [a]).eraseDups = if a ∈ l then l.eraseDups else l.eraseDups ++ [a] := by
  rw [List.eraseDups_append]
  split
  · next hmem => simp [List.removeAll, hmem]
  · next hnew => simp [List.removeAll, hnew, List.eraseDups_cons]

theorem nodup_eraseDups (l : List α) : l.eraseDups.Nodup := by
  classical
  induction l using List.reverseRecOn with
  | nil => simp
  | append_singleton l a ih =>
    rw [eraseDups_snoc]
    split
    · exact ih
    · next hnew =>
      rw [List.nodup_append]
      refine ⟨ih, by simp, ?_⟩
      intro b hb c hc
      rw [List.mem_singleton] at hc
      rintro rfl
      exact hnew (List.mem_eraseDups.mp (hc ▸ hb))

theorem toFinset_eraseDups [DecidableEq α] (l : List α) :
    l.eraseDups.toFinset = l.toFinset := by
  ext a
  rw [List.mem_toFinset, List.mem_toFinset, List.mem_eraseDups]

theorem length_eraseDups [DecidableEq α] (l : List α) :
    l.eraseDups.length = l.toFinset.card := by
  rw [← toFinset_eraseDups, List.toFinset_card_of_nodup (nodup_eraseDups l)]

omit [BEq α] [LawfulBEq α] in
/-- Groups that no element belongs to twice hold together what belongs to any of them. -/
theorem flatMap_filter_perm {κ : Type} (belongs : κ → α → Bool)
    (hunique : ∀ j k x, belongs j x = true → belongs k x = true → j = k) {ks : List κ}
    (hnodup : ks.Nodup) (xs : List α) :
    (ks.flatMap fun k => xs.filter (belongs k)).Perm
      (xs.filter fun x => ks.any fun k => belongs k x) := by
  induction ks with
  | nil => simp
  | cons k ks ih =>
    obtain ⟨hk, hnodup⟩ := List.nodup_cons.mp hnodup
    have hfirst : ((xs.filter fun x => (k :: ks).any fun k => belongs k x).filter (belongs k)) =
        xs.filter (belongs k) := by
      rw [List.filter_filter]
      exact List.filter_congr fun x _ => by rw [List.any_cons]; cases belongs k x <;> rfl
    have hrest : ((xs.filter fun x => (k :: ks).any fun k => belongs k x).filter
        fun x => !belongs k x) = xs.filter fun x => ks.any fun k => belongs k x := by
      rw [List.filter_filter]
      refine List.filter_congr fun x _ => ?_
      rw [List.any_cons]
      cases hx : belongs k x with
      | false => simp
      | true =>
        have hnone : (ks.any fun k => belongs k x) = false := by
          rw [List.any_eq_false]
          intro j hj hjx
          exact hk (hunique k j x hx hjx ▸ hj)
        rw [hnone]
        rfl
    have hparts := List.filter_append_perm (belongs k)
      (xs.filter fun x => (k :: ks).any fun k => belongs k x)
    rw [hfirst, hrest] at hparts
    exact ((ih hnodup).append_left _).trans hparts

end CilCoverage
