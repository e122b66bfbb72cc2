/-
  Hit ids: numbers of the points whose execution is recorded.

  Ids are given out in blocks of consecutive numbers. A block is given out as a
  whole or not at all, and the number after the last one is never reached.
-/

namespace CilCoverage

/-- Number of a recorded point. -/
abbrev HitId := UInt32

/-- The ids not given out yet. -/
structure HitIds where
  /-- The id that comes next. -/
  next : HitId
  deriving DecidableEq, Repr

namespace HitIds

/-- All ids; zero is not one of them. -/
def start : HitIds := ⟨1⟩

/-- Takes `count` consecutive ids, of which the first one is returned. -/
def reserve (ids : HitIds) (count : Nat) : Option (HitId × HitIds) :=
  if ids.next.toNat + count < UInt32.size then
    some (ids.next, ⟨ids.next + UInt32.ofNat count⟩)
  else
    none

/-- The ids of a block. -/
def block (first : HitId) (count : Nat) : List HitId :=
  (List.range count).map fun k => first + UInt32.ofNat k

/-- Takes one id. -/
def take (ids : HitIds) : Option HitId × HitIds :=
  match ids.reserve 1 with
  | some (first, rest) => ((block first 1).head?, rest)
  | none => (none, ids)

end HitIds

end CilCoverage
