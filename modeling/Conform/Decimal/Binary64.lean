import Conform.Decimal.Power

/-!
# Binary floating-point numbers of 64 bits

A number is kept as its 64 bits, so that equality of representations is decidable and `-0.0` and
`0.0` stay apart. `Binary64.exact` gives the value as an integer over a power of two, in which
numbers are compared without rounding; `Binary64.ofRatio` rounds a quotient to the nearest number,
a tie to the even one. Sums, differences and products are those of the machine.
-/

namespace Conform

/-- A floating-point number of 64 bits, by its representation. -/
structure Binary64 where
  bits : UInt64
deriving DecidableEq, Inhabited, Repr

/-- An exact value: an integer over a power of two, or an infinity. -/
inductive Exact
  | finite (numerator : Int) (scale : Nat)
  | infinite (negative : Bool)
deriving DecidableEq, Repr

namespace Exact

/-- The exact value of an integer. -/
def ofInt (n : Int) : Exact := .finite n 0

/-- Whether two values are equal; the same value may be written over different powers of two. -/
def equal : Exact → Exact → Bool
  | .finite a s, .finite b t => a * twoTo t == b * twoTo s
  | .infinite p, .infinite q => p == q
  | _, _ => false

/-- Whether the first value is smaller than the second. -/
def less : Exact → Exact → Bool
  | .finite a s, .finite b t => a * twoTo t < b * twoTo s
  | .infinite p, .infinite q => p && !q
  | .infinite p, .finite _ _ => p
  | .finite _ _, .infinite q => !q

end Exact

namespace Binary64

/-- Whether the sign bit is set. -/
def negative (x : Binary64) : Bool := x.bits.toNat / twoTo 63 == 1

/-- The eleven bits of the exponent. -/
def exponentField (x : Binary64) : Nat := x.bits.toNat / twoTo 52 % 2048

/-- The fifty-two bits of the fraction. -/
def fraction (x : Binary64) : Nat := x.bits.toNat % twoTo 52

/-- Whether the representation stands for no number. -/
def isNaN (x : Binary64) : Bool := x.exponentField == 2047 && x.fraction != 0

/-- Whether the number is infinite. -/
def isInfinite (x : Binary64) : Bool := x.exponentField == 2047 && x.fraction == 0

/-- The integer `m` of the magnitude `m * 2 ^ q` of a finite number. -/
def significand (x : Binary64) : Nat :=
  if x.exponentField = 0 then x.fraction else twoTo 52 + x.fraction

/-- The exponent `q` of the magnitude `m * 2 ^ q` of a finite number. -/
def exponent (x : Binary64) : Int :=
  if x.exponentField = 0 then -1074 else (x.exponentField : Int) - 1075

/-- The exact value of a number that is not a NaN. -/
def exact (x : Binary64) : Exact :=
  if x.exponentField = 2047 then .infinite x.negative
  else
    let m : Int := if x.negative then -(x.significand : Int) else x.significand
    if 0 ≤ x.exponent then .finite (m * twoTo x.exponent.toNat) 0
    else .finite m (-x.exponent).toNat

/-- The representation of the magnitude in the low 63 bits with the given sign. -/
def ofMagnitude (negative : Bool) (magnitude : Nat) : Binary64 :=
  ⟨UInt64.ofNat (magnitude + if negative then twoTo 63 else 0)⟩

/-- Positive or negative infinity. -/
def infinity (negative : Bool) : Binary64 := ofMagnitude negative (2047 * twoTo 52)

/-- A quiet NaN. -/
def quietNaN : Binary64 := ofMagnitude false (2047 * twoTo 52 + twoTo 51)

/-- The quotient of two naturals, rounded to the nearest natural, a tie to the even one. -/
def divNearest (num den : Nat) : Nat :=
  let q := num / den
  let r := num % den
  if 2 * r < den then q
  else if den < 2 * r then q + 1
  else if q % 2 = 0 then q else q + 1

/-- The quotient `num / (den * 2 ^ q)` as a pair of naturals. -/
def scaled (num den : Nat) (q : Int) : Nat × Nat :=
  if 0 ≤ q then (num, den * twoTo q.toNat) else (num * twoTo (-q).toNat, den)

/-- The exponent of the unit in the last place of the numbers around `num / den`. -/
def unitExponent (num den : Nat) : Int :=
  let q := max (-1074) ((num.log2 : Int) - den.log2 - 53)
  let (a, b) := scaled num den q
  if twoTo 53 ≤ a / b then q + 1 else q

/-- The number nearest to `num / den` for positive `den`, a tie going to the even significand;
infinity from half a unit above the largest finite number. -/
def ofRatio (negative : Bool) (num den : Nat) : Binary64 :=
  if num = 0 then ofMagnitude negative 0
  else
    let q := unitExponent num den
    let (a, b) := scaled num den q
    ofMagnitude negative (min ((q + 1074).toNat * twoTo 52 + divNearest a b) (2047 * twoTo 52))

/-- The number nearest to an integer. -/
def ofInt (n : Int) : Binary64 := ofRatio (n < 0) n.natAbs 1

/-- The number nearest to `digits * 10 ^ exponent`. -/
def ofDecimal (negative : Bool) (digits : Nat) (exponent : Int) : Binary64 :=
  let size : Int := (Nat.toDigits 10 digits).length + exponent
  if digits = 0 || size < -400 then ofMagnitude negative 0
  else if 400 < size then infinity negative
  else if 0 ≤ exponent then ofRatio negative (digits * tenTo exponent.toNat) 1
  else ofRatio negative digits (tenTo (-exponent).toNat)

/-- The machine's number of the same bits. -/
def toFloat (x : Binary64) : Float := Float.ofBits x.bits

/-- The bits of a machine number. -/
def ofFloat (x : Float) : Binary64 := ⟨x.toBits⟩

/-- Rounded sum. -/
def add (x y : Binary64) : Binary64 := ofFloat (x.toFloat + y.toFloat)

/-- Rounded difference. -/
def sub (x y : Binary64) : Binary64 := ofFloat (x.toFloat - y.toFloat)

/-- Rounded product. -/
def mul (x y : Binary64) : Binary64 := ofFloat (x.toFloat * y.toFloat)

/-- What is left of a number by division by a positive one, rounded. It is not negative; a negative
number less an infinite one is taken as infinite. -/
def mod (x y : Binary64) : Binary64 :=
  if x.isNaN || y.isNaN then quietNaN
  else
    match x.exact, y.exact with
    | .finite a s, .finite b t => ofRatio false (a * twoTo t % (b * twoTo s)).toNat (twoTo (s + t))
    | .finite a _, .infinite _ => if a < 0 then y else x
    | .infinite _, _ => quietNaN

/-- The next number in the direction of positive infinity. -/
def nextUp (x : Binary64) : Binary64 :=
  if x.isNaN || x = infinity false then x
  else if x.bits.toNat % twoTo 63 = 0 then ofMagnitude false 1
  else if x.negative then ⟨x.bits - 1⟩
  else ⟨x.bits + 1⟩

/-- The next number in the direction of negative infinity. -/
def nextDown (x : Binary64) : Binary64 :=
  if x.isNaN || x = infinity true then x
  else if x.bits.toNat % twoTo 63 = 0 then ofMagnitude true 1
  else if x.negative then ⟨x.bits + 1⟩
  else ⟨x.bits - 1⟩

end Binary64

end Conform
