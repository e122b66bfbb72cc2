/-
  The shards of the counters.

  Every id is counted in the shard that it belongs to (`Lawful`), so no id is
  met twice when the shards are read one after the other: together they give
  every id its count (`count_snapshot`), and each id is one entry (`nodup_ids`).
-/
import CilCoverage.Counters
import CilCoverage.Proofs.Hits.Sums
import Mathlib.Data.List.Dedup
import Mathlib.Data.List.Nodup

namespace CilCoverage.Counters

/-- The ids of a shard belong to it. -/
def Lawful (c : Counters) : Prop :=
  ∀ i : Fin shardCount, ∀ e ∈ c.shards[i].entries, shardIndex e.1 = i

/-- The entry of an id. -/
def entryOf? (c : Counters) (id : HitId) : Option UInt64 := (c.shardOf id).find? id

variable {c more : Counters} {id : HitId}

theorem count_eq (c : Counters) (id : HitId) : c.count id = (c.entryOf? id).getD 0 := rfl

theorem shardOf_zero (id : HitId) : zero.shardOf id = .empty := by
  simp [shardOf, zero]

@[simp] theorem entryOf?_zero (id : HitId) : zero.entryOf? id = none := by
  rw [entryOf?, shardOf_zero]
  rfl

@[simp] theorem count_zero (id : HitId) : zero.count id = 0 := by
  rw [count_eq, entryOf?_zero]
  rfl

theorem lawful_zero : zero.Lawful := by
  intro i e he
  have hempty : zero.shards[i] = .empty := by simp [zero]
  rw [hempty] at he
  cases he

/-! ## Counting a hit -/

/-- One more hit of an id was counted. -/
structure Counts (c : Counters) (id : HitId) (more : Counters) : Prop where
  lawful : c.Lawful → more.Lawful
  entryOf?_eq : ∀ j, more.entryOf? j = if j = id then some (c.count id + 1) else c.entryOf? j

theorem Counts.count_eq (h : c.Counts id more) (j : HitId) :
    more.count j = if j = id then c.count id + 1 else c.count j := by
  rw [Counters.count_eq, h.entryOf?_eq]
  split
  · rfl
  · exact (Counters.count_eq c j).symm

theorem shards_setShard (c : Counters) (id : HitId) (s : Shard) (i : Fin shardCount) :
    (c.setShard id s).shards[i] = if i = shardIndex id then s else c.shards[i] := by
  unfold setShard
  split
  · next h => rw [h]; exact Vector.getElem_set_self (shardIndex id).isLt
  · next h =>
    exact Vector.getElem_set_ne (shardIndex id).isLt i.isLt fun heq => h (Fin.ext heq.symm)

theorem counts_setShard {f : Option UInt64 → UInt64} (hf : f (c.entryOf? id) = c.count id + 1) :
    c.Counts id (c.setShard id ((c.shardOf id).upsert id f)) where
  lawful := fun h i e he => by
    rw [shards_setShard] at he
    split at he
    · next hi =>
      obtain ⟨j, n⟩ := e
      by_cases hj : j = id
      · rw [hj, hi]
      · have hentry := OrderedMap.mem_entries_iff.mp he
        rw [OrderedMap.find?_upsert_ne _ _ hj] at hentry
        exact (h _ _ (OrderedMap.mem_entries_iff.mpr hentry)).trans hi.symm
    · exact h i e he
  entryOf?_eq := fun j => by
    unfold entryOf? shardOf
    rw [shards_setShard]
    by_cases hj : j = id
    · rw [hj, if_pos rfl, if_pos rfl, OrderedMap.find?_upsert_self]
      exact congrArg some hf
    · rw [if_neg hj]
      split
      · next hi =>
        rw [OrderedMap.find?_upsert_ne _ _ hj]
        exact congrArg (fun i : Fin shardCount => c.shards[i].find? j) hi.symm
      · rfl

theorem counts_insert (c : Counters) (id : HitId) : c.Counts id (c.insert id) :=
  counts_setShard rfl

theorem counts_bump? (h : c.bump? id = some more) : c.Counts id more := by
  obtain ⟨n, hn, rfl⟩ := Option.map_eq_some_iff.mp h
  refine counts_setShard (f := fun _ => n + 1) ?_
  show n + 1 = c.count id + 1
  rw [count_eq, entryOf?, hn]
  rfl

theorem counts_increment (c : Counters) (id : HitId) : c.Counts id (c.increment id) := by
  unfold increment
  cases h : c.bump? id with
  | none => exact counts_insert c id
  | some more => exact counts_bump? h

theorem lawful_incrementTimes (h : c.Lawful) (id : HitId) (times : Nat) :
    (c.incrementTimes id times).Lawful := by
  induction times with
  | zero => exact h
  | succ times ih => exact (counts_increment (c.incrementTimes id times) id).lawful ih

theorem count_incrementTimes (c : Counters) (id : HitId) (times : Nat) (j : HitId) :
    (c.incrementTimes id times).count j =
      if j = id then c.count j + UInt64.ofNat times else c.count j := by
  induction times with
  | zero => simp [incrementTimes, Nat.repeat]
  | succ times ih =>
    have hstep := (counts_increment (c.incrementTimes id times) id).count_eq j
    rw [incrementTimes, Nat.repeat, ← incrementTimes, hstep]
    by_cases hj : j = id
    · subst hj
      rw [if_pos rfl, if_pos rfl, ih, if_pos rfl, UInt64.ofNat_add, UInt64.add_assoc]
      rfl
    · rw [if_neg hj, ih, if_neg hj, if_neg hj]

/-! ## Reading the shards -/

/-- A shard adds the counts of the ids that belong to it. -/
theorem count_addAll (h : c.Lawful) (hits : Hits) (i : Fin shardCount) (id : HitId) :
    (hits.addAll c.shards[i].entries).count id =
      if shardIndex id = i then Hits.sum (hits.count id) (c.count id) else hits.count id := by
  apply UInt64.toNat_inj.mp
  rw [Hits.toNat_count_addAll, Hits.total_of_sorted c.shards[i].sorted]
  split
  · next hi =>
    subst hi
    rw [Hits.toNat_sum]
    rfl
  · next hi =>
    have hnone : OrderedMap.findList? id c.shards[i].entries = none := by
      refine OrderedMap.findList?_eq_none fun e he heq => hi ?_
      rw [Std.LawfulEqOrd.eq_of_compare heq]
      exact h i e he
    rw [hnone]
    exact Hits.saturate_toNat _

theorem positive_snapshot (c : Counters) : c.snapshot.Positive := by
  have hall : c.snapshot = Hits.empty.addAll (c.shards.toList.flatMap (·.entries)) := by
    unfold snapshot Hits.addAll
    rw [List.foldl_flatMap]
  rw [hall]
  exact Hits.positive_addAll Hits.positive_empty _

/-- The first shards have the counts of the ids that belong to them. -/
theorem count_snapshotTake (h : c.Lawful) (id : HitId) {n : Nat} (hn : n ≤ shardCount) :
    ((c.shards.toList.take n).foldl (fun hits shard => hits.addAll shard.entries)
      Hits.empty).count id = if (shardIndex id).val < n then c.count id else 0 := by
  induction n with
  | zero => rfl
  | succ n ih =>
    have hlength : n < c.shards.toList.length := by rw [Vector.length_toList]; omega
    have hget : c.shards.toList[n] = c.shards[(⟨n, hn⟩ : Fin shardCount)] :=
      Vector.getElem_toList hlength
    rw [List.take_succ_eq_append_getElem hlength, List.foldl_append, List.foldl_cons,
      List.foldl_nil, hget, count_addAll h, ih (by omega)]
    by_cases hi : shardIndex id = ⟨n, hn⟩
    · have hval : (shardIndex id).val = n := congrArg Fin.val hi
      rw [if_pos hi, if_neg (by omega), if_pos (by omega), Hits.zero_sum]
    · have hval : (shardIndex id).val ≠ n := fun heq => hi (Fin.ext heq)
      rw [if_neg hi]
      by_cases hlt : (shardIndex id).val < n
      · rw [if_pos hlt, if_pos (by omega)]
      · rw [if_neg hlt, if_neg (by omega)]

theorem count_snapshot (h : c.Lawful) (id : HitId) : c.snapshot.count id = c.count id := by
  have hlength : c.shards.toList.length ≤ shardCount := Nat.le_of_eq Vector.length_toList
  have hall := count_snapshotTake h id (Nat.le_refl shardCount)
  rwa [List.take_of_length_le hlength, if_pos (shardIndex id).isLt] at hall

/-! ## Counted ids -/

/-- The ids that were counted, by their shards. -/
def ids (c : Counters) : List HitId := c.shards.toList.flatMap fun shard => shard.keys

theorem length_ids (c : Counters) : c.ids.length = c.size := by
  unfold ids size OrderedMap.keys
  rw [← List.map_flatMap, List.length_map]

theorem mem_keys_iff (h : c.Lawful) {i : Fin shardCount} :
    id ∈ c.shards[i].keys ↔ shardIndex id = i ∧ (c.entryOf? id).isSome = true := by
  unfold OrderedMap.keys
  constructor
  · intro hid
    obtain ⟨e, he, rfl⟩ := List.mem_map.mp hid
    have hi := h i e he
    subst hi
    rw [entryOf?, shardOf, OrderedMap.mem_entries_iff.mp he]
    exact ⟨rfl, rfl⟩
  · rintro ⟨rfl, hentry⟩
    obtain ⟨n, hn⟩ := Option.isSome_iff_exists.mp hentry
    exact List.mem_map.mpr ⟨_, OrderedMap.mem_entries_iff.mpr hn, rfl⟩

theorem mem_ids_iff (h : c.Lawful) : id ∈ c.ids ↔ (c.entryOf? id).isSome = true := by
  unfold ids
  rw [List.mem_flatMap]
  constructor
  · rintro ⟨shard, hshard, hid⟩
    obtain ⟨i, hi, rfl⟩ := Vector.getElem_of_mem (Vector.mem_toList_iff.mp hshard)
    exact ((mem_keys_iff h (i := ⟨i, hi⟩)).mp hid).2
  · intro hentry
    refine ⟨c.shards[shardIndex id], Vector.mem_toList_iff.mpr (Vector.getElem_mem _), ?_⟩
    exact (mem_keys_iff h).mpr ⟨rfl, hentry⟩

theorem nodup_ids (h : c.Lawful) : c.ids.Nodup := by
  unfold ids
  refine List.nodup_flatMap.mpr ⟨fun shard _ => OrderedMap.nodup_keys shard, ?_⟩
  rw [List.pairwise_iff_getElem]
  intro i j hi hj hlt id hidi hidj
  rw [Vector.length_toList] at hi hj
  have hshardi := ((mem_keys_iff h (i := ⟨i, hi⟩)).mp hidi).1
  have hshardj := ((mem_keys_iff h (i := ⟨j, hj⟩)).mp hidj).1
  have : i = j := congrArg Fin.val (hshardi.symm.trans hshardj)
  omega

end CilCoverage.Counters
