import Conform.Value.Data

/-!
# Arithmetic on numbers

Integers add and subtract exactly. As soon as a floating-point number takes part, the other operand
is converted to the nearest one, which fails for integers beyond their range, and the result is
rounded.
-/

namespace Conform.Numeral

/-- The nearest floating-point number, if the number is within their range. -/
def toBinary? : Numeral → Option Binary64
  | .int n =>
    let x := Binary64.ofInt n
    if x.isInfinite then none else some x
  | .float x => some x
  | .nan => some Binary64.quietNaN

/-- The number of a floating-point representation. -/
def ofBinary (x : Binary64) : Numeral := if x.isNaN then .nan else .float x

/-- Applies the exact operation to two integers and the rounded one to any other two numbers. -/
def combine? (exact : Int → Int → Int) (rounded : Binary64 → Binary64 → Binary64)
    (x y : Numeral) : Option Numeral :=
  match x, y with
  | .int m, .int n => some (.int (exact m n))
  | x, y =>
    match x.toBinary?, y.toBinary? with
    | some a, some b => some (ofBinary (rounded a b))
    | _, _ => none

/-- The sum, unless an operand is beyond the range of floating-point numbers. -/
def add? : Numeral → Numeral → Option Numeral := combine? (· + ·) Binary64.add

/-- The difference, unless an operand is beyond the range of floating-point numbers. -/
def sub? : Numeral → Numeral → Option Numeral := combine? (· - ·) Binary64.sub

/-- The product, unless an operand is beyond the range of floating-point numbers. -/
def mul? : Numeral → Numeral → Option Numeral := combine? (· * ·) Binary64.mul

/-- What is left by division by a positive number, unless an operand is beyond the range of
floating-point numbers. -/
def mod? : Numeral → Numeral → Option Numeral := combine? (· % ·) Binary64.mod

end Conform.Numeral
