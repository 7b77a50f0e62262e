import Conform.Decimal.Binary64
import Conform.Text.Blank
import Conform.Text.Digit

/-!
# Reading decimal numbers

The number nearest to a decimal text: digits with an optional point and exponent, or the names of
the infinities and of the NaN in any case. Digits may be grouped by single underscores.
-/

namespace Conform.Decimal

/-- The value of a list of decimal digits. -/
def digitsValue (ds : List Char) : Nat :=
  ds.foldl (fun n c => 10 * n + (c.toNat - 48)) 0

/-- The digits of a group, less the underscores, which may stand only between two digits. -/
def ungroup? (cs : List Char) : Option (List Char) :=
  let rec go (afterDigit : Bool) : List Char → Option (List Char)
    | [] => if afterDigit then some [] else none
    | c :: r =>
      if c.isDigit then (go true r).map (c :: ·)
      else if c = '_' && afterDigit then go false r
      else none
  go false cs

/-- Digits that may be missing. -/
def ungroupOrEmpty? (cs : List Char) : Option (List Char) :=
  if cs.isEmpty then some [] else ungroup? cs

/-- The blanks that may surround a number: all but the separators of records. -/
def isPadding (c : Char) : Bool := Text.isBlank c && !(28 ≤ c.toNat && c.toNat ≤ 31)

/-- A text without the blanks at its ends. -/
def trim (cs : List Char) : List Char :=
  ((cs.dropWhile isPadding).reverse.dropWhile isPadding).reverse

/-- A sign in front of a number: whether it is a minus, and the rest. -/
def takeSign : List Char → Bool × List Char
  | '-' :: r => (true, r)
  | '+' :: r => (false, r)
  | r => (false, r)

/-- The value of a list of decimal digits, of which there must not be too many. -/
def limitedValue? (ds : List Char) : Option Nat :=
  if ds.length ≤ digitLimit then some (digitsValue ds) else none

/-- An integer: an optional sign and digits of any script, with blanks around them. -/
def readInt? (s : String) : Option Int := do
  let (negative, cs) := takeSign (trim (s.toList.map Text.asciiDigit))
  let n : Int := (← limitedValue? (← ungroup? cs) : Nat)
  return if negative then -n else n

/-- Splits a text at the first character that satisfies the test, which is dropped. -/
def splitFirst (p : Char → Bool) (cs : List Char) : List Char × Option (List Char) :=
  match cs.dropWhile (fun c => !p c) with
  | [] => (cs, none)
  | _ :: r => (cs.takeWhile (fun c => !p c), some r)

/-- The exponent part: nothing, or a sign and digits. -/
def readExponent? : Option (List Char) → Option Int
  | none => some 0
  | some cs =>
    let (negative, ds) := takeSign cs
    (ungroup? ds).map fun ds =>
      let n : Int := digitsValue ds
      if negative then -n else n

/-- A decimal magnitude without its sign. -/
def readMagnitude? (negative : Bool) (cs : List Char) : Option Binary64 := do
  let (mantissa, exponent) := splitFirst (fun c => c = 'e' || c = 'E') cs
  let e ← readExponent? exponent
  let (whole, fraction) := splitFirst (· = '.') mantissa
  let w ← ungroupOrEmpty? whole
  let f ← ungroupOrEmpty? (fraction.getD [])
  if w.isEmpty && f.isEmpty then none
  else some (Binary64.ofDecimal negative (digitsValue (w ++ f)) (e - f.length))

/-- A floating-point number in digits of any script, with blanks around it. -/
def read? (s : String) : Option Binary64 :=
  let (negative, cs) := takeSign (trim (s.toList.map Text.asciiDigit))
  let lower := String.ofList (cs.map Char.toLower)
  if lower == "inf" || lower == "infinity" then some (Binary64.infinity negative)
  else if lower == "nan" then some Binary64.quietNaN
  else readMagnitude? negative cs

end Conform.Decimal
