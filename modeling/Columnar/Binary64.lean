/-!
# Double precision numbers

Cells of numeric columns are IEEE 754 doubles, kept by their bit pattern: storage tells `-0.0` from
`0.0` and counts every NaN as the one missing value, while comparison ties the two zeros. A pattern
is a sign and a 63-bit magnitude, and magnitudes are ordered as the numbers they stand for, so
comparison and rounding are arithmetic on natural numbers.
-/

set_option autoImplicit false
set_option relaxedAutoImplicit false

namespace Columnar

structure Binary64 where
  bits : UInt64
  deriving DecidableEq, Hashable, Repr

namespace Binary64

/-- The number of magnitudes between a power of two and the next. -/
def binade : Nat := 4503599627370496

def signBit : Nat := 2048 * binade

/-- The magnitude of infinity; larger ones are NaN. -/
def infinity : Nat := 2047 * binade

/-- The magnitude of `1.0`. -/
def unit : Nat := 1023 * binade

def ofParts (negative : Bool) (magnitude : Nat) : Binary64 :=
  ⟨UInt64.ofNat (if negative then signBit + magnitude else magnitude)⟩

def zero : Binary64 := ofParts false 0

def nan : Binary64 := ofParts false (infinity + binade / 2)

variable (x y : Binary64)

def negative : Bool := signBit ≤ x.bits.toNat

def magnitude : Nat := x.bits.toNat % signBit

def isNaN : Bool := infinity < x.magnitude

def isFinite : Bool := x.magnitude < infinity

/-- The position of a number in the numeric order; both zeros stand at `0`. -/
def rank : Int := if x.negative then -(x.magnitude : Int) else x.magnitude

/-- Numeric order; NaN ties with everything. -/
def compare : Ordering :=
  if x.isNaN || y.isNaN then .eq else Ord.compare x.rank y.rank

/-- Numeric equality: NaN differs from itself and the two zeros are equal. -/
def numericEq : Bool := !x.isNaN && !y.isNaN && x.rank == y.rank

/-- Storage equality: every NaN is the same and the two zeros differ. -/
def same : Bool := x.bits == y.bits || (x.isNaN && y.isNaN)

/-- One pattern for each class of `same`. -/
def key : UInt64 := if x.isNaN then nan.bits else x.bits

/-- The number of low magnitude bits worth less than one, for a number of magnitude at least `1.0`
and below `2 ^ 52`. -/
def fractionBits : Nat := 1075 - x.magnitude / binade

def isIntegral : Bool :=
  x.magnitude == 0 ||
    (unit ≤ x.magnitude && x.magnitude % Nat.pow 2 x.fractionBits == 0)

/-- The nearest integer, halves away from zero; infinities and NaN stay. Adding half a unit to the
magnitude carries into the exponent field exactly when the rounded number needs the next one. -/
def round : Binary64 :=
  if !x.isFinite then x
  else if x.magnitude < unit then
    ofParts x.negative (if x.magnitude < 1022 * binade then 0 else unit)
  else
    let fraction := Nat.pow 2 x.fractionBits
    ofParts x.negative ((x.magnitude + fraction / 2) / fraction * fraction)

/-- The magnitude nearest to a positive natural number, halves to the even neighbour. -/
def magnitudeOfNat (n : Nat) : Nat :=
  let exponent := n.log2
  if exponent ≤ 52 then (1022 + exponent) * binade + n * Nat.pow 2 (52 - exponent)
  else
    let scale := Nat.pow 2 (exponent - 52)
    let low := n / scale
    let rest := n % scale
    let up := scale < 2 * rest || (2 * rest == scale && low % 2 == 1)
    min infinity ((1022 + exponent) * binade + if up then low + 1 else low)

/-- The double nearest to an integer, halves to the even neighbour. -/
def ofInt (n : Int) : Binary64 :=
  if n = 0 then zero else ofParts (n < 0) (magnitudeOfNat n.natAbs)

/-- The machine number with this pattern. -/
def toFloat : Float := Float.ofBits x.bits

def ofFloat (value : Float) : Binary64 := ⟨value.toBits⟩

end Binary64

end Columnar
