import Columnar.Binary64

/-!
# Shortest decimal text

A finite double is written with the fewest digits that read back as the same double, and of those
the ones nearest to it. The text is positional at every size: no exponent, and no point after an
integer. All arithmetic is exact: the double is `significand * 2 ^ scale`, the numbers that round to
it form an interval around it, and the coarsest power of ten with a multiple inside that interval
gives the digits.
-/

set_option autoImplicit false
set_option relaxedAutoImplicit false

namespace Columnar.Binary64

variable (x : Binary64)

/-- The integer `m` of a finite double `m * 2 ^ q`. -/
def significand : Nat :=
  if x.magnitude < binade then x.magnitude else binade + x.magnitude % binade

/-- The exponent `q` of a finite double `m * 2 ^ q`. -/
def scale : Int := (max (x.magnitude / binade) 1 : Nat) - 1075

/-- The value of an integral number; any fraction is dropped. -/
def toInt : Int :=
  let size := x.significand * Nat.pow 2 x.scale.toNat / Nat.pow 2 (-x.scale).toNat
  if x.negative then -(size : Int) else size

/-- The positive numbers that round to a double, over a common denominator: those strictly between
`low` and `high`, and the two ends too when `closed`. -/
structure RoundingInterval where
  low : Nat
  value : Nat
  high : Nat
  denominator : Nat
  closed : Bool

/-- Half the distance to each neighbour belongs to the double. Below a power of two the numbers are
twice as dense, and the ends round to the even significand. -/
def roundingInterval : RoundingInterval :=
  let quarters := x.scale - 2
  let unit := Nat.pow 2 quarters.toNat
  let below := if x.magnitude % binade == 0 && binade < x.magnitude then 1 else 2
  { low := (4 * x.significand - below) * unit
    value := 4 * x.significand * unit
    high := (4 * x.significand + 2) * unit
    denominator := Nat.pow 2 (-quarters).toNat
    closed := x.significand % 2 == 0 }

/-- The multiple of `10 ^ power` inside the interval nearest to its value, if there is one; of two
equally near the larger. -/
def RoundingInterval.nearestMultiple? (interval : RoundingInterval) (power : Int) : Option Nat :=
  let step := interval.denominator * Nat.pow 10 power.toNat
  let stretch := Nat.pow 10 (-power).toNat
  let inside (digits : Nat) : Bool :=
    let point := digits * step
    let low := interval.low * stretch
    let high := interval.high * stretch
    (low < point && point < high) || (interval.closed && (point == low || point == high))
  let value := interval.value * stretch
  let down := value / step
  let up := down + 1
  if inside up && (!inside down || up * step - value ≤ value - down * step) then some up
  else if inside down then some down
  else none

/-- Tries `10 ^ power` and finer powers of ten. -/
def RoundingInterval.coarsest (interval : RoundingInterval) : Nat → Int → Nat × Int
  | 0, power => (0, power)
  | tries + 1, power =>
    match interval.nearestMultiple? power with
    | some digits => (digits, power)
    | none => interval.coarsest tries (power - 1)

/-- The text of `digits * 10 ^ power` without an exponent. -/
def positional (digits : Nat) (power : Int) : String :=
  if 0 ≤ power then toString (digits * Nat.pow 10 power.toNat)
  else
    let places := (-power).toNat
    let fraction := toString (digits % Nat.pow 10 places)
    let zeros := String.ofList (List.replicate (places - fraction.length) '0')
    toString (digits / Nat.pow 10 places) ++ "." ++ zeros ++ fraction

def toDecimal : String :=
  if x.isNaN then "NaN"
  else
    let sign := if x.negative then "-" else ""
    if !x.isFinite then sign ++ "inf"
    else if x.magnitude == 0 then sign ++ "0"
    else
      let (digits, power) := x.roundingInterval.coarsest 700 310
      sign ++ positional digits power

end Columnar.Binary64
