/-
  The computed stack depth is the greatest depth on a walk.

  What the worklist keeps true is `Explores`: every recorded depth is reached by
  a walk, every start has its depth, and an instruction that is no longer
  pending was followed, so that all it leads to has a depth as well. One step
  keeps it (`Explores.step`), and so does a whole run (`Explores.of_follow`).
  With nothing left to follow, the recorded depths are those of all walks
  (`Finished.knows_iff`). In the other direction, a step fails only at an
  instruction at which a walk goes wrong (`Explores.exists_step`).
-/
import CilCoverage.Proofs.Stack.Walks
import Mathlib.Order.Bounds.Basic

namespace CilCoverage.StackDepth

/-! ## Reaching instructions -/

namespace Walk

/-- The depth before an instruction is recorded. -/
def Knows (w : Walk) (index depth : Nat) : Prop := w.depths[index]? = some (some depth)

/-- Reaches instructions, each with its depth. -/
def visits (w : Walk) (reached : List (Nat × Nat)) : Option Walk :=
  reached.foldlM (fun w s => w.visit s.1 s.2) w

/-- What changes when instructions are reached: their depths are recorded, and those that had
none are pending. -/
structure Grows (w v : Walk) (reached : List (Nat × Nat)) : Prop where
  length : v.depths.length = w.depths.length
  knows : ∀ {index depth}, v.Knows index depth ↔ w.Knows index depth ∨ (index, depth) ∈ reached
  fresh : ∀ {index depth}, v.Knows index depth → w.Knows index depth ∨ index ∈ v.pending
  kept : ∀ {index}, index ∈ w.pending → index ∈ v.pending
  pending : ∀ {index}, index ∈ v.pending →
    index ∈ w.pending ∨ ∃ depth, (index, depth) ∈ reached

theorem Knows.lt {w : Walk} {index depth : Nat} (h : w.Knows index depth) :
    index < w.depths.length :=
  (List.getElem?_eq_some_iff.mp h).1

theorem Knows.unique {w : Walk} {index depth depth' : Nat} (h : w.Knows index depth)
    (h' : w.Knows index depth') : depth = depth' :=
  Option.some.inj (Option.some.inj (h.symm.trans h'))

theorem not_knows_start {count index depth : Nat} : ¬ (start count).Knows index depth := by
  intro h
  obtain ⟨hlt, hslot⟩ := List.getElem?_eq_some_iff.mp h
  simp [start] at hslot

theorem length_start (count : Nat) : (start count).depths.length = count :=
  List.length_replicate

theorem Grows.refl (w : Walk) : Grows w w [] where
  length := rfl
  knows := by simp
  fresh := Or.inl
  kept := id
  pending := Or.inl

theorem Grows.trans {w u v : Walk} {r s : List (Nat × Nat)} (h : Grows w u r)
    (h' : Grows u v s) : Grows w v (r ++ s) where
  length := h'.length.trans h.length
  knows := by
    intro index depth
    rw [h'.knows, h.knows, List.mem_append, or_assoc]
  fresh := by
    intro index depth hv
    rcases h'.fresh hv with hu | hpending
    · exact (h.fresh hu).imp_right h'.kept
    · exact Or.inr hpending
  kept hw := h'.kept (h.kept hw)
  pending := by
    intro index hv
    rcases h'.pending hv with hu | ⟨depth, hs⟩
    · refine (h.pending hu).imp_right ?_
      rintro ⟨depth, hr⟩
      exact ⟨depth, List.mem_append_left _ hr⟩
    · exact Or.inr ⟨depth, List.mem_append_right _ hs⟩

theorem grows_visit {w v : Walk} {index depth : Nat} (h : w.visit index depth = some v) :
    Grows w v [(index, depth)] := by
  unfold visit at h
  split at h
  · cases h
  · next hnone =>
    cases h
    obtain ⟨hlt, hslot⟩ := List.getElem?_eq_some_iff.mp hnone
    refine ⟨by simp, ?_, ?_, List.mem_cons_of_mem _, ?_⟩
    · intro k d
      simp only [Knows, List.getElem?_set, List.mem_singleton, Prod.mk.injEq]
      by_cases hk : index = k
      · subst hk
        simp [hlt, hslot, eq_comm]
      · simp [hk, Ne.symm hk]
    · intro k d hk
      by_cases hki : index = k
      · subst hki
        exact Or.inr List.mem_cons_self
      · rw [Knows, List.getElem?_set_ne hki] at hk
        exact Or.inl hk
    · intro k hk
      rcases List.mem_cons.mp hk with rfl | hk
      · exact Or.inr ⟨depth, List.mem_singleton_self _⟩
      · exact Or.inl hk
  · next known hknown =>
    split at h
    · next heq =>
      cases h
      subst heq
      refine ⟨rfl, ?_, Or.inl, id, Or.inl⟩
      intro k d
      refine ⟨Or.inl, ?_⟩
      rintro (hk | hk)
      · exact hk
      · cases List.mem_singleton.mp hk
        exact hknown
    · cases h

theorem grows_visits {w v : Walk} {reached : List (Nat × Nat)}
    (h : w.visits reached = some v) : Grows w v reached := by
  induction reached generalizing w with
  | nil => exact Option.some.inj h ▸ Grows.refl w
  | cons s rest ih =>
    obtain ⟨u, hu, hv⟩ := Option.bind_eq_some_iff.mp h
    exact (grows_visit hu).trans (ih hv)

theorem visitAll_eq_visits (w : Walk) (depth : Nat) (indices : List Nat) :
    w.visitAll depth indices = w.visits (indices.map (·, depth)) := by
  induction indices generalizing w with
  | nil => rfl
  | cons index rest ih =>
    exact congrArg (Option.bind _) (funext fun u => ih u)

/-- Reaching an instruction fails only where there is none or where it has another depth. -/
theorem exists_visit {w : Walk} {index depth : Nat} (hlt : index < w.depths.length)
    (hagree : ∀ known, w.Knows index known → known = depth) :
    ∃ v, w.visit index depth = some v := by
  unfold visit
  split
  · next hnone =>
    rw [List.getElem?_eq_none_iff] at hnone
    omega
  · exact ⟨_, rfl⟩
  · next known hknown =>
    rw [if_pos (hagree known hknown)]
    exact ⟨_, rfl⟩

end Walk

open Walk

variable {body : LabelledBody} {callEffect : Token → Option StackEffect}

theorem exists_visits (hsound : Sound body callEffect) {reached : List (Nat × Nat)} {w : Walk}
    (hlen : w.depths.length = body.instructions.length)
    (hw : ∀ {index depth}, w.Knows index depth → Reached body callEffect index depth)
    (hreached : ∀ s ∈ reached, Reached body callEffect s.1 s.2) :
    ∃ v, w.visits reached = some v := by
  induction reached generalizing w with
  | nil => exact ⟨w, rfl⟩
  | cons s rest ih =>
    have hs := hreached s List.mem_cons_self
    obtain ⟨u, hu⟩ := exists_visit (hlen ▸ hsound.inRange hs)
      fun known hknown => hsound.agree (hw hknown) hs
    have hgrows := grows_visit hu
    obtain ⟨v, hv⟩ := ih (hgrows.length.trans hlen)
      (fun hk => (hgrows.knows.mp hk).elim hw fun hmem => by
        cases List.mem_singleton.mp hmem
        exact hs)
      fun s' hs' => hreached s' (List.mem_cons_of_mem _ hs')
    exact ⟨v, Option.bind_eq_some_iff.mpr ⟨u, hu, hv⟩⟩

theorem starts_iff {index depth : Nat} :
    Starts body index depth ↔ (index, depth) ∈ (0, 0) :: body.clauses.flatMap handlerStarts := by
  rw [List.mem_cons, List.mem_flatMap]
  constructor
  · rintro (_ | ⟨hc, ⟨type, hk⟩ | ⟨start, hk⟩⟩ | ⟨hc, hk⟩ | ⟨hc, hk | hk⟩)
    · exact Or.inl rfl
    all_goals exact Or.inr ⟨_, hc, by simp [handlerStarts, hk]⟩
  · rintro (heq | ⟨c, hc, hmem⟩)
    · cases heq
      exact .entry
    · unfold handlerStarts at hmem
      split at hmem
      · next type hk =>
        cases List.mem_singleton.mp hmem
        exact .handler hc (Or.inl ⟨type, hk⟩)
      · next start hk =>
        rcases List.mem_cons.mp hmem with heq | hmem
        · cases heq
          exact .filter hc hk
        · cases List.mem_singleton.mp hmem
          exact .handler hc (Or.inr ⟨start, hk⟩)
      · next hk =>
        cases List.mem_singleton.mp hmem
        exact .cleanup hc (Or.inl hk)
      · next hk =>
        cases List.mem_singleton.mp hmem
        exact .cleanup hc (Or.inr hk)

theorem mem_nextIndices {index next : Nat} {i : Instruction Nat} :
    next ∈ nextIndices body.instructions.length index i ↔ Leads body index i next := by
  rw [nextIndices, List.mem_append, Leads]
  apply or_congr_right
  split
  · next h => simp_all
  · next h =>
    simp only [Bool.and_eq_true, decide_eq_true_eq, not_and] at h
    simp only [List.not_mem_nil, false_iff, not_and]
    intro hfall hlt
    exact absurd hlt (h hfall)

/-! ## One step -/

/-- What a step does: it takes a recorded depth over one instruction, to all that the
instruction leads to. -/
theorem step_eq_some {index before after : Nat} {w v : Walk}
    (h : step body.instructions callEffect index w = some (before, after, v)) :
    ∃ i e, w.Knows index before ∧ Passes body callEffect index before i e ∧
      after = e.after before ∧
      w.visits ((nextIndices body.instructions.length index i).map (·, e.onward i before)) =
        some v := by
  obtain ⟨i, hi, h⟩ := Option.bind_eq_some_iff.mp h
  obtain ⟨slot, hslot, h⟩ := Option.bind_eq_some_iff.mp h
  obtain ⟨depth, hdepth, h⟩ := Option.bind_eq_some_iff.mp h
  obtain ⟨e, he, h⟩ := Option.bind_eq_some_iff.mp h
  split at h
  · cases h
  · next henough =>
    obtain ⟨u, hu, h⟩ := Option.bind_eq_some_iff.mp h
    cases h
    subst hdepth
    rw [visitAll_eq_visits] at hu
    exact ⟨i, e, hslot, ⟨hi, he, by omega⟩, rfl, hu⟩

theorem step_of_visits {index before : Nat} {w v : Walk} {i : Instruction Nat} {e : StackEffect}
    (hw : w.Knows index before) (hp : Passes body callEffect index before i e)
    (hv : w.visits ((nextIndices body.instructions.length index i).map (·, e.onward i before)) =
      some v) :
    step body.instructions callEffect index w = some (before, e.after before, v) := by
  rw [← visitAll_eq_visits] at hv
  have hslot : w.depths[index]? = some (some before) := hw
  have hfits : ¬ before < e.pop := by
    have := hp.enough
    omega
  simp only [StackEffect.onward, StackEffect.after] at hv
  simp [step, hp.instruction, hslot, hp.effect, hfits, hv, StackEffect.after]

/-- The instruction at `index` was followed: its depths count, and what it leads to has a
depth. -/
def Followed (body : LabelledBody) (callEffect : Token → Option StackEffect) (w : Walk)
    (deepest index depth : Nat) : Prop :=
  ∃ i e, Passes body callEffect index depth i e ∧ depth ≤ deepest ∧ e.after depth ≤ deepest ∧
    ∀ next, Leads body index i next → w.Knows next (e.onward i depth)

/-- The invariant of the worklist. -/
structure Explores (body : LabelledBody) (callEffect : Token → Option StackEffect) (w : Walk)
    (deepest : Nat) : Prop where
  length : w.depths.length = body.instructions.length
  reached : ∀ {index depth}, w.Knows index depth → Reached body callEffect index depth
  starts : ∀ {index depth}, Starts body index depth → w.Knows index depth
  pending : ∀ index ∈ w.pending, ∃ depth, w.Knows index depth
  followed : ∀ {index depth}, w.Knows index depth →
    index ∈ w.pending ∨ Followed body callEffect w deepest index depth
  attained : deepest = 0 ∨ Occurs body callEffect deepest

theorem Followed.mono {w v : Walk} {deepest deepest' index depth : Nat}
    (h : Followed body callEffect w deepest index depth) (hle : deepest ≤ deepest')
    (hknows : ∀ {index depth}, w.Knows index depth → v.Knows index depth) :
    Followed body callEffect v deepest' index depth := by
  obtain ⟨i, e, hp, hbefore, hafter, hnext⟩ := h
  exact ⟨i, e, hp, by omega, by omega, fun next hn => hknows (hnext next hn)⟩

namespace Explores

variable {w v : Walk} {depths : List (Option Nat)} {deepest index : Nat} {rest : List Nat}

/-- The greatest depth so far, when one more instruction is followed. -/
theorem attained_max (h : Explores body callEffect w deepest) {before : Nat}
    {i : Instruction Nat} {e : StackEffect} (hr : Reached body callEffect index before)
    (hp : Passes body callEffect index before i e) :
    max deepest (max before (e.after before)) = 0 ∨
      Occurs body callEffect (max deepest (max before (e.after before))) := by
  have hbefore : Occurs body callEffect before :=
    .before hr (List.getElem?_eq_some_iff.mp hp.instruction).1
  have hafter : Occurs body callEffect (e.after before) := .after hr hp
  rcases Nat.le_total (max before (e.after before)) deepest with hle | hle
  · rw [Nat.max_eq_left hle]
    exact h.attained
  · rw [Nat.max_eq_right hle]
    right
    rcases Nat.le_total (e.after before) before with hle | hle
    · rwa [Nat.max_eq_left hle]
    · rwa [Nat.max_eq_right hle]

/-- Following a pending instruction keeps the invariant. -/
protected theorem step (h : Explores body callEffect ⟨depths, index :: rest⟩ deepest)
    {before after : Nat}
    (hstep : step body.instructions callEffect index ⟨depths, rest⟩ =
      some (before, after, v)) :
    Explores body callEffect v (max deepest (max before after)) := by
  obtain ⟨i, e, hknows, hp, rfl, hvisits⟩ := step_eq_some hstep
  have hr : Reached body callEffect index before := h.reached hknows
  have hgrows := grows_visits hvisits
  have hnew : ∀ {k d}, (k, d) ∈ (nextIndices body.instructions.length index i).map
      (·, e.onward i before) ↔ Leads body index i k ∧ d = e.onward i before := by
    intro k d
    simp only [List.mem_map, mem_nextIndices, Prod.mk.injEq]
    constructor
    · rintro ⟨next, hn, rfl, rfl⟩
      exact ⟨hn, rfl⟩
    · rintro ⟨hn, rfl⟩
      exact ⟨k, hn, rfl, rfl⟩
  have hmono : ∀ {k d}, (⟨depths, rest⟩ : Walk).Knows k d → v.Knows k d :=
    fun hk => hgrows.knows.mpr (Or.inl hk)
  refine ⟨hgrows.length.trans h.length, ?_, fun hs => hmono (h.starts hs), ?_, ?_,
    h.attained_max hr hp⟩
  · intro k d hk
    rcases hgrows.knows.mp hk with hk | hk
    · exact h.reached hk
    · obtain ⟨hn, rfl⟩ := hnew.mp hk
      exact .step hr hp hn
  · intro k hk
    rcases hgrows.pending hk with hk | ⟨d, hd⟩
    · obtain ⟨d, hd⟩ := h.pending k (List.mem_cons_of_mem _ hk)
      exact ⟨d, hmono hd⟩
    · exact ⟨d, hgrows.knows.mpr (Or.inr hd)⟩
  · intro k d hk
    rcases hgrows.fresh hk with hold | hpending
    · rcases h.followed hold with hmem | hfollowed
      · rcases List.mem_cons.mp hmem with rfl | hmem
        · -- the instruction that was followed just now
          obtain rfl : d = before := Knows.unique hold hknows
          refine Or.inr ⟨i, e, hp, by omega, by omega, ?_⟩
          intro next hn
          exact hgrows.knows.mpr (Or.inr (hnew.mpr ⟨hn, rfl⟩))
        · exact Or.inl (hgrows.kept hmem)
      · exact Or.inr (hfollowed.mono (Nat.le_max_left _ _) hmono)
    · exact Or.inl hpending

/-- A pending instruction can be followed if no walk goes wrong. -/
theorem exists_step (h : Explores body callEffect ⟨depths, index :: rest⟩ deepest)
    (hsound : Sound body callEffect) :
    ∃ r, step body.instructions callEffect index ⟨depths, rest⟩ = some r := by
  obtain ⟨before, hknows⟩ := h.pending index List.mem_cons_self
  have hr : Reached body callEffect index before := h.reached hknows
  obtain ⟨i, e, hp⟩ := hsound.passes hr
  have hall : ∀ s ∈ (nextIndices body.instructions.length index i).map (·, e.onward i before),
      Reached body callEffect s.1 s.2 := by
    intro s hs
    obtain ⟨next, hn, rfl⟩ := List.mem_map.mp hs
    exact .step hr hp (mem_nextIndices.mp hn)
  obtain ⟨v, hv⟩ := exists_visits (w := ⟨depths, rest⟩) hsound h.length h.reached hall
  exact ⟨_, step_of_visits hknows hp hv⟩

end Explores

/-! ## Whole runs -/

/-- The worklist when nothing is left to follow. -/
structure Finished (body : LabelledBody) (callEffect : Token → Option StackEffect) (w : Walk)
    (deepest : Nat) : Prop extends Explores body callEffect w deepest where
  done : w.pending = []

theorem follow_of_pending_eq_nil {w : Walk} (deepest : Nat) (h : w.pending = []) :
    follow body.instructions callEffect deepest w = some deepest := by
  unfold follow
  split
  · rfl
  · next hp =>
    rw [h] at hp
    cases hp

theorem follow_of_pending_eq_cons {w : Walk} {index : Nat} {rest : List Nat} (deepest : Nat)
    (h : w.pending = index :: rest) :
    follow body.instructions callEffect deepest w =
      (step body.instructions callEffect index ⟨w.depths, rest⟩).bind fun r =>
        follow body.instructions callEffect (max deepest (max r.1 r.2.1)) r.2.2 := by
  rw [follow.eq_def]
  split
  · next hp =>
    rw [h] at hp
    cases hp
  · next index' rest' hp =>
    obtain ⟨rfl, rfl⟩ := List.cons.inj (h.symm.trans hp)
    split
    · next hstep => simp only [hstep, Option.bind_none]
    · next hstep => simp only [hstep, Option.bind_some]

theorem Explores.of_follow {w : Walk} {deepest m : Nat}
    (h : Explores body callEffect w deepest)
    (hm : follow body.instructions callEffect deepest w = some m) :
    ∃ v, Finished body callEffect v m := by
  -- along the recursion of `follow`; every turn of it is a step
  induction deepest, w using follow.induct body.instructions callEffect with
  | case1 deepest w hp =>
    rw [follow_of_pending_eq_nil deepest hp] at hm
    cases hm
    exact ⟨w, h, hp⟩
  | case2 deepest w index rest hp hstep =>
    rw [follow_of_pending_eq_cons deepest hp, hstep] at hm
    cases hm
  | case3 deepest w index rest hp before after v hstep _ ih =>
    rw [follow_of_pending_eq_cons deepest hp, hstep] at hm
    obtain ⟨depths, pending⟩ := w
    obtain rfl : pending = index :: rest := hp
    exact ih (Explores.step h hstep) hm

theorem Explores.exists_follow {w : Walk} {deepest : Nat}
    (h : Explores body callEffect w deepest) (hsound : Sound body callEffect) :
    ∃ m, follow body.instructions callEffect deepest w = some m := by
  induction deepest, w using follow.induct body.instructions callEffect with
  | case1 deepest w hp => exact ⟨deepest, follow_of_pending_eq_nil deepest hp⟩
  | case2 deepest w index rest hp hstep =>
    obtain ⟨depths, pending⟩ := w
    obtain rfl : pending = index :: rest := hp
    obtain ⟨r, hr⟩ := Explores.exists_step h hsound
    rw [hstep] at hr
    cases hr
  | case3 deepest w index rest hp before after v hstep _ ih =>
    rw [follow_of_pending_eq_cons deepest hp, hstep]
    obtain ⟨depths, pending⟩ := w
    obtain rfl : pending = index :: rest := hp
    exact ih (Explores.step h hstep)

namespace Finished

variable {w : Walk} {m : Nat} (h : Finished body callEffect w m)
include h

theorem all_followed {index depth : Nat} (hk : w.Knows index depth) :
    Followed body callEffect w m index depth := by
  rcases h.followed hk with hmem | hfollowed
  · rw [h.done] at hmem
    cases hmem
  · exact hfollowed

/-- The recorded depths are those of all walks. -/
theorem knows_iff {index depth : Nat} :
    w.Knows index depth ↔ Reached body callEffect index depth := by
  refine ⟨h.reached, ?_⟩
  intro hr
  -- along the walk: where it is, a depth is recorded, so the instruction there was followed
  induction hr with
  | start hs => exact h.starts hs
  | step _ hp hn ih =>
    obtain ⟨i, e, hp', -, -, hnext⟩ := h.all_followed ih
    obtain ⟨rfl, rfl⟩ := hp.unique hp'.instruction hp'.effect
    exact hnext _ hn

protected theorem sound : Sound body callEffect where
  inRange hr := h.length ▸ (h.knows_iff.mpr hr).lt
  known := by
    intro index depth i hr hi
    obtain ⟨j, e, hp, -⟩ := h.all_followed (h.knows_iff.mpr hr)
    obtain rfl : i = j := Option.some.inj (hi.symm.trans hp.instruction)
    rw [hp.effect]
    rfl
  enough := by
    intro index depth i e hr hi he
    obtain ⟨j, e', hp, -⟩ := h.all_followed (h.knows_iff.mpr hr)
    obtain ⟨-, rfl⟩ := hp.unique hi he
    exact hp.enough
  agree hr hr' := Knows.unique (h.knows_iff.mpr hr) (h.knows_iff.mpr hr')

theorem occurs_le {n : Nat} (hn : Occurs body callEffect n) : n ≤ m := by
  cases hn with
  | before hr hi =>
    obtain ⟨i, e, -, hbefore, -⟩ := h.all_followed (h.knows_iff.mpr hr)
    exact hbefore
  | after hr hp =>
    obtain ⟨i, e, hp', -, hafter, -⟩ := h.all_followed (h.knows_iff.mpr hr)
    obtain ⟨rfl, rfl⟩ := hp.unique hp'.instruction hp'.effect
    exact hafter

theorem isGreatest (hne : body.instructions ≠ []) :
    IsGreatest {n | Occurs body callEffect n} m := by
  refine ⟨?_, fun n hn => h.occurs_le hn⟩
  rcases h.attained with rfl | hm
  · exact .before (.start .entry) (List.length_pos_iff.mpr hne)
  · exact hm

end Finished

/-! ## The computed depth -/

/-- The worklist before anything is followed. -/
theorem explores_start {w : Walk}
    (h : (Walk.start body.instructions.length).visits
      ((0, 0) :: body.clauses.flatMap handlerStarts) = some w) :
    Explores body callEffect w 0 := by
  have hgrows := grows_visits h
  have hknows : ∀ {index depth}, w.Knows index depth ↔ Starts body index depth := by
    intro index depth
    rw [hgrows.knows, starts_iff, or_iff_right not_knows_start]
  refine ⟨?_, fun hk => .start (hknows.mp hk), hknows.mpr, ?_, ?_, Or.inl rfl⟩
  · rw [hgrows.length, length_start]
  · intro index hpending
    rcases hgrows.pending hpending with hpending | ⟨depth, hs⟩
    · cases hpending
    · exact ⟨depth, hgrows.knows.mpr (Or.inr hs)⟩
  · intro index depth hk
    exact Or.inl ((hgrows.fresh hk).resolve_left not_knows_start)

theorem maxStack?_of_ne_nil (hne : body.instructions ≠ []) {m : Nat} :
    maxStack? body.instructions body.clauses callEffect = some m ↔
      m < UInt16.size ∧ ∃ w, (Walk.start body.instructions.length).visits
          ((0, 0) :: body.clauses.flatMap handlerStarts) = some w ∧
        follow body.instructions callEffect 0 w = some m := by
  rw [maxStack?, if_neg (by simpa using hne)]
  simp only [Option.bind_eq_bind, Option.bind_eq_some_iff]
  constructor
  · rintro ⟨w, hw, deepest, hdeepest, h⟩
    split at h
    · next hlt =>
      cases h
      exact ⟨hlt, w, hw, hdeepest⟩
    · cases h
  · rintro ⟨hlt, w, hw, hm⟩
    exact ⟨w, hw, m, hm, if_pos hlt⟩

/-- A computed depth is that of a finished worklist. -/
theorem finished_of_maxStack? (hne : body.instructions ≠ []) {m : Nat}
    (h : maxStack? body.instructions body.clauses callEffect = some m) :
    m < UInt16.size ∧ ∃ w, Finished body callEffect w m := by
  obtain ⟨hlt, w, hw, hm⟩ := (maxStack?_of_ne_nil hne).mp h
  exact ⟨hlt, (explores_start hw).of_follow hm⟩

theorem lt_of_maxStack? {m : Nat}
    (h : maxStack? body.instructions body.clauses callEffect = some m) : m < UInt16.size := by
  by_cases hne : body.instructions = []
  · have hzero : m = 0 := by simpa [maxStack?, hne, eq_comm] using h
    rw [hzero]
    decide
  · exact (finished_of_maxStack? hne h).1

/-- A computed depth is enough, also when more is told about calls. -/
theorem bounds_of_maxStack? {more : Token → Option StackEffect} {m : Nat}
    (h : maxStack? body.instructions body.clauses callEffect = some m)
    (hext : Extends more callEffect) : Bounds body more m := by
  intro n hn
  have hne : body.instructions ≠ [] := by
    intro hnil
    cases hn with
    | before _ hi =>
      rw [hnil] at hi
      cases hi
    | after _ hp =>
      have hi := hp.instruction
      rw [hnil] at hi
      cases hi
  obtain ⟨-, w, hfinished⟩ := finished_of_maxStack? hne h
  exact hfinished.occurs_le (hfinished.sound.occurs_of_extends hext hn)

theorem exists_finished (hsound : Sound body callEffect) :
    ∃ w w' m, (Walk.start body.instructions.length).visits
        ((0, 0) :: body.clauses.flatMap handlerStarts) = some w ∧
      follow body.instructions callEffect 0 w = some m ∧ Finished body callEffect w' m := by
  obtain ⟨w, hw⟩ := exists_visits (w := Walk.start body.instructions.length) hsound
    (length_start _) (fun hk => absurd hk not_knows_start)
    (fun s hs => .start (starts_iff.mpr hs))
  have hexplores : Explores body callEffect w 0 := explores_start hw
  obtain ⟨m, hm⟩ := hexplores.exists_follow hsound
  obtain ⟨w', hfinished⟩ := hexplores.of_follow hm
  exact ⟨w, w', m, hw, hm, hfinished⟩

/-- If no walk goes wrong, the greatest depth is computed unless it is too large. -/
theorem Sound.exists_maxStack? (hsound : Sound body callEffect) (hne : body.instructions ≠ [])
    {bound : Nat} (hbound : Bounds body callEffect bound) (hlt : bound < UInt16.size) :
    ∃ m, maxStack? body.instructions body.clauses callEffect = some m ∧
      IsGreatest {n | Occurs body callEffect n} m := by
  obtain ⟨w, w', m, hw, hm, hfinished⟩ := exists_finished hsound
  have hgreatest : IsGreatest {n | Occurs body callEffect n} m := hfinished.isGreatest hne
  have hle : m ≤ bound := hbound m hgreatest.1
  exact ⟨m, (maxStack?_of_ne_nil hne).mpr ⟨Nat.lt_of_le_of_lt hle hlt, w, hw, hm⟩, hgreatest⟩

/-- The computed stack depth is exact: there is one if no walk goes wrong and no depth is too
large, and it is the greatest depth that occurs. -/
theorem maxStack?_eq_some_iff (body : LabelledBody) (callEffect : Token → Option StackEffect)
    (m : Nat) :
    maxStack? body.instructions body.clauses callEffect = some m ↔
      body.instructions = [] ∧ m = 0 ∨
        body.instructions ≠ [] ∧ Sound body callEffect ∧
          IsGreatest {n | Occurs body callEffect n} m ∧ m ≤ 65535 := by
  by_cases hne : body.instructions = []
  · simp [maxStack?, hne, eq_comm]
  rw [and_iff_right hne, or_iff_right fun h => hne h.1]
  constructor
  · intro h
    obtain ⟨hlt, w, hfinished⟩ := finished_of_maxStack? hne h
    have hsize : UInt16.size = 65536 := rfl
    exact ⟨hfinished.sound, hfinished.isGreatest hne, by omega⟩
  · rintro ⟨hsound, hgreatest, hle⟩
    obtain ⟨w, w', m', hw, hm, hfinished⟩ := exists_finished hsound
    obtain rfl : m' = m := IsGreatest.unique (hfinished.isGreatest hne) hgreatest
    exact (maxStack?_of_ne_nil hne).mpr ⟨Nat.lt_succ_of_le hle, w, hw, hm⟩

end CilCoverage.StackDepth
