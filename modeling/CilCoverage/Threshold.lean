/-
  Thresholds: the least ratio of covered points, between zero and one.
-/
import CilCoverage.Json.Record

namespace CilCoverage

/-- A ratio between zero and one. -/
structure Threshold where
  value : Float

/-- A number is no threshold. -/
structure InvalidThreshold where
  /-- Bits of the number. -/
  bits : UInt64
  deriving DecidableEq, Repr

def InvalidThreshold.message (e : InvalidThreshold) : String :=
  "coverage threshold " ++ Decimal.double.text e.bits.toNat ++ " is not between 0 and 1"

namespace Threshold

/-- The threshold of a number, if it is between zero and one. -/
def ofFloat (value : Float) : Except InvalidThreshold Threshold :=
  if 0 ≤ value ∧ value ≤ 1 then .ok ⟨value⟩ else .error ⟨value.toBits⟩

/-- The threshold that holds if nothing is said. -/
def standard : Threshold := ⟨0.9⟩

open Json

/-- Reads a threshold. -/
def read : Reader Threshold := fun text => do
  let (value, rest) ← readFloat text
  match ofFloat value with
  | .ok t => .ok (t, rest)
  | .error _ => .error .mismatch

/-- The threshold of a JSON text. -/
def ofText (text : String) : Except Fault Threshold := readDocument read text

end Threshold

end CilCoverage
