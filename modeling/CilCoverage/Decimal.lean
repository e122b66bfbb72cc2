/-
  Decimal text of binary floating-point numbers: the fewest digits that read
  back as the same number, written without an exponent.

  A number is decoded from its bits into `m · 2 ^ q`. The reals that round to
  it form an interval around it, whose ends belong to it when `m` is even.
  Among the grids of multiples of `10 ^ p`, from coarse to fine, the first one
  with a point in the interval gives the digits; of two points the nearer is
  taken. All of it is exact arithmetic on natural numbers.
-/
import CilCoverage.Numeral

namespace CilCoverage.Decimal

/-- An interchange format: widths of the stored significand and of the exponent. -/
structure Format where
  significandBits : Nat
  exponentBits : Nat

/-- Single precision. -/
def single : Format := ⟨23, 8⟩

/-- Double precision. -/
def double : Format := ⟨52, 11⟩

/-- A number as its bits spell it. -/
inductive Reading where
  | nan
  | infinity
  | zero
  /-- `m · 2 ^ q` with `m` positive. At a `step`, the neighbour below is only half as far
  away as the one above. -/
  | finite (m : Nat) (q : Int) (step : Bool)

/-- The magnitude that the bits of a number spell. -/
def Format.read (f : Format) (bits : Nat) : Reading :=
  let fraction := bits % Nat.pow 2 f.significandBits
  let exponent := bits / Nat.pow 2 f.significandBits % Nat.pow 2 f.exponentBits
  let least : Int := 2 - Nat.pow 2 (f.exponentBits - 1) - f.significandBits
  if exponent = Nat.pow 2 f.exponentBits - 1 then
    if fraction = 0 then .infinity else .nan
  else if exponent = 0 then
    if fraction = 0 then .zero else .finite fraction least false
  else
    .finite (fraction + Nat.pow 2 f.significandBits) (least + exponent - 1)
      (fraction == 0 && exponent != 1)

/-- The sign bit is set. -/
def Format.isNegative (f : Format) (bits : Nat) : Bool :=
  bits / Nat.pow 2 (f.significandBits + f.exponentBits) % 2 == 1

/-- An interval of positive fractions over one denominator, and a point inside it. -/
structure Interval where
  low : Nat
  point : Nat
  high : Nat
  denominator : Nat
  /-- The ends belong to the interval. -/
  closed : Bool

/-- The reals that round to `m · 2 ^ q`. -/
def rounding (m : Nat) (q : Int) (step : Bool) : Interval :=
  let scale := Nat.pow 2 (q - 2).toNat
  { low := (if step then 4 * m - 1 else 4 * m - 2) * scale
    point := 4 * m * scale
    high := (4 * m + 2) * scale
    denominator := Nat.pow 2 (2 - q).toNat
    closed := m % 2 == 0 }

/-- The fraction `n / d` lies in the interval. -/
def Interval.contains (i : Interval) (n d : Nat) : Bool :=
  let x := n * i.denominator
  if i.closed then decide (i.low * d ≤ x ∧ x ≤ i.high * d)
  else decide (i.low * d < x ∧ x < i.high * d)

/-- The multiple of `10 ^ p` in the interval that is nearest to its point: one of the two
neighbours of the point on this grid. -/
def Interval.onGrid (i : Interval) (p : Int) : Option Nat :=
  let up := Nat.pow 10 p.toNat
  let down := Nat.pow 10 (-p).toNat
  let below := i.point * down / (i.denominator * up)
  let hit := fun c => c != 0 && i.contains (c * up) down
  let gapBelow := i.point * down - below * up * i.denominator
  let gapAbove := (below + 1) * up * i.denominator - i.point * down
  match hit below, hit (below + 1) with
  | true, true => if gapBelow < gapAbove then some below else some (below + 1)
  | true, false => some below
  | false, true => some (below + 1)
  | false, false => none

/-- The first hit on the grids from `10 ^ p` downwards, as a number of grid steps and the
exponent of the grid. -/
def Interval.coarsest (i : Interval) : (grids : Nat) → (p : Int) → Option (Nat × Int)
  | 0, _ => none
  | grids + 1, p =>
    match i.onGrid p with
    | some c => some (c, p)
    | none => i.coarsest grids (p - 1)

/-- Digits of `c · 10 ^ p`, with a point where one is needed. -/
def positional (c : Nat) (p : Int) : List Char :=
  let ds := Numeral.digits 10 c
  if 0 ≤ p then
    ds ++ List.replicate p.toNat '0'
  else
    let places := (-p).toNat
    let padded := List.replicate (places + 1 - ds.length) '0' ++ ds
    padded.take (padded.length - places) ++ '.' :: padded.drop (padded.length - places)

/-- Shortest positional text of `m · 2 ^ q`. -/
def finiteText (m : Nat) (q : Int) (step : Bool) : List Char :=
  let i := rounding m q step
  let top : Int := (Numeral.digits 10 (i.point / i.denominator)).length
  match i.coarsest (1100 + top.toNat) top with
  | some (c, p) => positional c p
  | none => []

/-- Text of the number with the given bits. -/
def Format.text (f : Format) (bits : Nat) : String :=
  let sign := if f.isNegative bits then ['-'] else []
  match f.read bits with
  | .nan => "NaN"
  | .infinity => String.ofList (sign ++ "inf".toList)
  | .zero => String.ofList (sign ++ ['0'])
  | .finite m q step => String.ofList (sign ++ finiteText m q step)

end CilCoverage.Decimal
