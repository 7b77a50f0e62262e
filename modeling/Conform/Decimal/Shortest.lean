import Conform.Decimal.Binary64

/-!
# Shortest decimal text

A floating-point number is written with the fewest decimal digits that read back as the same number,
and of those the nearest. On the grid of `k` digits only the two neighbours of the value can be
nearest, so the search tries both for `k = 1, 2, …, 17`.

Numbers from `10 ^ -4` up to `10 ^ 16` are written positionally and always show a fractional part;
all others have one digit before the point and an exponent of a sign and at least two digits.
-/

namespace Conform.Decimal

/-- A positive decimal number `coefficient * 10 ^ exponent`. -/
structure Digits where
  coefficient : Nat
  exponent : Int
deriving DecidableEq, Repr

/-- The reals that round to `m * 2 ^ q`, in quarters of the unit `2 ^ q`: the two ends, and whether
they belong. The lower half is shorter where the exponent changes. -/
def roundingInterval (m : Nat) (q : Int) : Nat × Nat × Bool :=
  let low := if m = twoTo 52 && q != -1074 then 4 * m - 1 else 4 * m - 2
  (low, 4 * m + 2, m % 2 == 0)

/-- The fraction `a * 2 ^ q * 10 ^ p` as numerator and denominator. -/
def scaledFraction (a : Nat) (q p : Int) : Nat × Nat :=
  let (n, d) := if 0 ≤ q then (a * twoTo q.toNat, 1) else (a, twoTo (-q).toNat)
  if 0 ≤ p then (n * tenTo p.toNat, d) else (n, d * tenTo (-p).toNat)

/-- The decimal exponent of the first digit of `num / den`, found by moving the guess `e` up or down
for at most `fuel` steps. -/
def leadingExponent (num den : Nat) : (fuel : Nat) → (e : Int) → Int
  | 0, e => e
  | fuel + 1, e =>
    let (a, b) := if 0 ≤ e then (num, den * tenTo e.toNat) else (num * tenTo (-e).toNat, den)
    if a < b then leadingExponent num den fuel (e - 1)
    else if 10 * b ≤ a then leadingExponent num den fuel (e + 1)
    else e

/-- The nearer of the two neighbours of `m * 2 ^ q` on the grid of unit `10 ^ p` that round to it,
if one does; of two equally near ones the even one. -/
def neighbour? (m : Nat) (q p : Int) : Option Digits :=
  let (low, high, closed) := roundingInterval m q
  let (n, d) := scaledFraction m q (-p)
  let down := n / d
  let (ln, ld) := scaledFraction low (q - 2) (-p)
  let (hn, hd) := scaledFraction high (q - 2) (-p)
  let inside (c : Nat) : Bool :=
    0 < c && (ln < c * ld || (closed && ln == c * ld)) && (c * hd < hn || (closed && c * hd == hn))
  let pick (c : Nat) : Option Digits := some ⟨c, p⟩
  match inside down, inside (down + 1) with
  | false, false => none
  | true, false => pick down
  | false, true => pick (down + 1)
  | true, true =>
    let r := n % d
    if 2 * r < d then pick down
    else if d < 2 * r then pick (down + 1)
    else pick (if down % 2 = 0 then down else down + 1)

/-- The first grid with a hit, from `k` digits on. -/
def searchGrids (m : Nat) (q lead : Int) : (fuel k : Nat) → Digits
  | 0, _ =>
    let (n, d) := scaledFraction m q 0
    ⟨n / d, 0⟩
  | fuel + 1, k =>
    match neighbour? m q (lead - k + 1) with
    | some r => r
    | none => searchGrids m q lead fuel (k + 1)

/-- The shortest decimal that reads back as `m * 2 ^ q`, for positive `m`. -/
def shortest (m : Nat) (q : Int) : Digits :=
  let (n, d) := scaledFraction m q 0
  let guess : Int := ((n.log2 : Int) - d.log2) * 3 / 10
  searchGrids m q (leadingExponent n d 400 guess) 17 1

/-- Zeros. -/
def zeros (n : Nat) : List Char := List.replicate n '0'

/-- The exponent's sign and at least two digits. -/
def exponentText (e : Int) : List Char :=
  let ds := Nat.toDigits 10 e.natAbs
  (if e < 0 then '-' else '+') :: zeros (2 - ds.length) ++ ds

/-- Digits with their decimal point after `point` of them, or in exponent form. -/
def layout (ds : List Char) (point : Int) : List Char :=
  let k : Int := ds.length
  if -4 < point && point ≤ 16 then
    if point ≤ 0 then '0' :: '.' :: zeros (-point).toNat ++ ds
    else if k ≤ point then ds ++ zeros (point - k).toNat ++ ['.', '0']
    else ds.take point.toNat ++ '.' :: ds.drop point.toNat
  else
    let tail := ds.drop 1
    ds.take 1 ++ (if tail.isEmpty then [] else '.' :: tail) ++ 'e' :: exponentText (point - 1)

/-- Digits without the zeros at their end. -/
def trimZeros (ds : List Char) : List Char := (ds.reverse.dropWhile (· == '0')).reverse

/-- The text of a floating-point number. -/
def text (x : Binary64) : String :=
  if x.isNaN then "nan"
  else
    let magnitude :=
      if x.isInfinite then "inf".toList
      else if x.significand = 0 then "0.0".toList
      else
        let r := shortest x.significand x.exponent
        let ds := Nat.toDigits 10 r.coefficient
        layout (trimZeros ds) (ds.length + r.exponent)
    String.ofList (if x.negative then '-' :: magnitude else magnitude)

end Conform.Decimal
