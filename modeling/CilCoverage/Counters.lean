/-
  Counters that many threads add to at once.

  Ids are spread over shards, each with a lock of its own. An increment takes
  one or two steps, each under the lock of one shard: `bump` counts an id that
  was seen before, `insert` one that was not. Counts wrap around at 64 bits.
-/
import CilCoverage.Hits

namespace CilCoverage

/-- Counts of the ids of one shard. -/
abbrev Shard := OrderedMap HitId UInt64

/-- Number of shards. -/
def shardCount : Nat := 64

/-- Hit counts by shard. -/
structure Counters where
  shards : Vector Shard shardCount

namespace Counters

/-- Nothing was counted. -/
def zero : Counters := ⟨Vector.replicate shardCount .empty⟩

/-- The shard of an id. -/
def shardIndex (id : HitId) : Fin shardCount := ⟨id.toNat % shardCount, Nat.mod_lt _ (by decide)⟩

/-- The shard that an id belongs to. -/
def shardOf (c : Counters) (id : HitId) : Shard := c.shards[shardIndex id]

/-- Replaces the shard that an id belongs to. -/
def setShard (c : Counters) (id : HitId) (s : Shard) : Counters :=
  ⟨c.shards.set (shardIndex id) s (shardIndex id).isLt⟩

/-- Adds one to the count of an id that was seen before; nothing if it was not. -/
def bump? (c : Counters) (id : HitId) : Option Counters :=
  let shard := c.shardOf id
  (shard.find? id).map fun n => c.setShard id (shard.insert id (n + 1))

/-- Adds one to the count of an id, which starts at zero if the id was not seen before. -/
def insert (c : Counters) (id : HitId) : Counters :=
  c.setShard id ((c.shardOf id).upsert id fun before => before.getD 0 + 1)

/-- Counts a hit. -/
def increment (c : Counters) (id : HitId) : Counters := (c.bump? id).getD (c.insert id)

/-- Counts a number of hits. -/
def incrementTimes (c : Counters) (id : HitId) (times : Nat) : Counters :=
  times.repeat (·.increment id) c

/-- The count of an id. -/
def count (c : Counters) (id : HitId) : UInt64 := ((c.shardOf id).find? id).getD 0

/-- All counts; the shards are read one after the other. -/
def snapshot (c : Counters) : Hits :=
  c.shards.toList.foldl (fun hits shard => hits.addAll shard.entries) .empty

/-- Number of ids that were counted. -/
def size (c : Counters) : Nat := (c.shards.toList.flatMap (·.entries)).length

end Counters

end CilCoverage
