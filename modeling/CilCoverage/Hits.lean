/-
  Hit counts.

  Counts are sums that stop at the greatest 64-bit number. Only ids that were
  hit have an entry.
-/
import CilCoverage.HitIds
import CilCoverage.OrderedMap

namespace CilCoverage

/-- How often points were hit. -/
structure Hits where
  counts : OrderedMap HitId UInt64
  deriving DecidableEq

namespace Hits

/-- Nothing was hit. -/
def empty : Hits := ⟨.empty⟩

/-- The sum of two counts, or the greatest count. -/
def sum (a b : UInt64) : UInt64 := UInt64.ofNat (min (a.toNat + b.toNat) (UInt64.size - 1))

/-- How often a point was hit. -/
def count (h : Hits) (id : HitId) : UInt64 := (h.counts.find? id).getD 0

/-- The point was hit. -/
def isHit (h : Hits) (id : HitId) : Bool := decide (0 < h.count id)

/-- Adds to the count of a point. -/
def add (h : Hits) (id : HitId) (n : UInt64) : Hits :=
  if n = 0 then h else ⟨h.counts.upsert id fun before => sum (before.getD 0) n⟩

/-- Adds several counts. -/
def addAll (h : Hits) (counts : List (HitId × UInt64)) : Hits :=
  counts.foldl (fun h c => h.add c.1 c.2) h

/-- The sum of counts. -/
def ofList (counts : List (HitId × UInt64)) : Hits := empty.addAll counts

/-- The counts by ascending id. -/
def toList (h : Hits) : List (HitId × UInt64) := h.counts.entries

/-- Adds all counts of `other`. -/
def merge (h other : Hits) : Hits := h.addAll other.toList

/-- The sum of several hit counts. -/
def mergeAll (hits : List Hits) : Hits := hits.foldl merge empty

/-- Number of ids with an entry. -/
def size (h : Hits) : Nat := h.toList.length

end Hits

end CilCoverage
