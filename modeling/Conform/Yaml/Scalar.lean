import Conform.Decimal.Reading
import Conform.Value.Arithmetic

/-!
# Plain scalars

What a scalar without quotes means: nothing, a truth value, an integer (decimal, binary, octal with a
leading zero, hexadecimal, or in base 60 with colons), a floating-point number (always with a point;
an exponent always with a sign), or else a text. Underscores in numbers are ignored.
-/

namespace Conform.Yaml

/-- What a plain scalar means. -/
inductive Meaning
  | atom (a : Atom)
  /-- An integer without any digit, or with too many. -/
  | unreadable
  /-- A number of so many parts in base 60 that the weight of the first is no floating-point number. -/
  | tooWide
  /-- A scalar that is reserved and stands for no value. -/
  | reserved
deriving DecidableEq, Repr

/-- The NaN that documents spell, which is one object. -/
def documentNaN : Atom := .nan 0

/-- The spellings of nothing. -/
def nullWords : List String := ["", "~", "null", "Null", "NULL"]

/-- The spellings of truth. -/
def trueWords : List String :=
  ["yes", "Yes", "YES", "true", "True", "TRUE", "on", "On", "ON"]

/-- The spellings of falsity. -/
def falseWords : List String :=
  ["no", "No", "NO", "false", "False", "FALSE", "off", "Off", "OFF"]

/-- Whether all characters are decimal digits or underscores. -/
def isGrouped (cs : List Char) : Bool := cs.all fun c => c.isDigit || c = '_'

/-- Whether the characters are a digit followed by digits and underscores. -/
def isWhole : List Char → Bool
  | c :: cs => c.isDigit && isGrouped cs
  | [] => false

/-- Characters without the underscores. -/
def ungrouped (cs : List Char) : List Char := cs.filter (· != '_')

/-- The parts between colons. -/
def colonParts (cs : List Char) : List (List Char) :=
  cs.foldr (fun c parts =>
    match parts with
    | p :: rest => if c = ':' then [] :: p :: rest else (c :: p) :: rest
    | [] => [[c]]) [[]]

/-- Whether the characters are a number below sixty of one or two digits. -/
def isSexagesimal : List Char → Bool
  | [a] => a.isDigit
  | [a, b] => a.isDigit && a.toNat < 54 && b.isDigit
  | _ => false

/-- The value of digits in a base; of an unknown digit, zero. -/
def digitsIn (base : Nat) (cs : List Char) : Nat :=
  cs.foldl (fun n c =>
    let d := if c.isDigit then c.toNat - 48 else c.toLower.toNat - 87
    base * n + d) 0

/-- Digits of a base, of which there must be one. -/
def inBase (base : Nat) (cs : List Char) : Option (Option Nat) :=
  let ds := ungrouped cs
  some (if ds.isEmpty then none else some (digitsIn base ds))

/-- The magnitude of an integer: `none` if the text is no integer, `some none` if it cannot be read. Only
decimal digits are limited in number. -/
def wholeMagnitude? (cs : List Char) : Option (Option Nat) :=
  match cs with
  | ['0'] => some (some 0)
  | '0' :: 'b' :: ds =>
    if !ds.isEmpty && ds.all (fun c => c = '0' || c = '1' || c = '_') then inBase 2 ds else none
  | '0' :: 'x' :: ds =>
    if !ds.isEmpty && ds.all (fun c => c.isDigit || c = '_' || ('a' ≤ c.toLower && c.toLower ≤ 'f'))
    then inBase 16 ds else none
  | '0' :: ds =>
    if ds.all (fun c => ('0' ≤ c && c ≤ '7') || c = '_') then some (some (digitsIn 8 (ungrouped ds)))
    else none
  | cs =>
    match colonParts cs with
    | [whole] => if isWhole whole then some (Decimal.limitedValue? (ungrouped whole)) else none
    | whole :: rest =>
      if isWhole whole && rest.all isSexagesimal then
        some ((Decimal.limitedValue? (ungrouped whole)).map fun n =>
          rest.foldl (fun n p => 60 * n + digitsIn 10 p) n)
      else none
    | [] => none

/-- Whether the characters are an exponent: nothing, or a sign and digits after the letter. -/
def isExponent : List Char → Bool
  | [] => true
  | e :: sign :: d :: ds =>
    (e = 'e' || e = 'E') && (sign = '-' || sign = '+') && (d :: ds).all Char.isDigit
  | _ => false

/-- Whether the characters after a point are those of a number. -/
def isFraction (cs : List Char) : Bool :=
  isExponent (cs.dropWhile fun c => c.isDigit || c = '_')

/-- The sum of the parts of a number in base 60, the last part first, given its weight and the sum
before it. Every weight must be within the range of floating-point numbers. -/
def sexagesimalSum? (weight : Int) (sum : Binary64) : List (List Char) → Option Binary64
  | [] => some sum
  | p :: ps => do
    let x := (Decimal.readMagnitude? false p).getD (Binary64.ofInt 0)
    let w ← (Numeral.int weight).toBinary?
    sexagesimalSum? (60 * weight) (sum.add (x.mul w)) ps

/-- A magnitude with its sign. -/
def withSign (negative : Bool) (x : Binary64) : Atom :=
  .float (if negative then Binary64.ofMagnitude true x.bits.toNat else x)

/-- A number with a point; `signed` tells whether there is a sign in front. -/
def floating? (signed negative : Bool) (cs : List Char) : Option Meaning :=
  let word := String.ofList cs
  if [".inf", ".Inf", ".INF"].contains word then some (.atom (.float (Binary64.infinity negative)))
  else if [".nan", ".NaN", ".NAN"].contains word then
    if signed then none else some (.atom documentNaN)
  else
    match Decimal.splitFirst (· = '.') cs with
    | (_, none) => none
    | (whole, some fraction) =>
      let read : Option Meaning :=
        (Decimal.readMagnitude? false (ungrouped cs)).map fun x => .atom (withSign negative x)
      match colonParts whole with
      | [[]] =>
        if !signed && (fraction.head?.map Char.isDigit).getD false && isFraction fraction then read
        else none
      | [ds] => if isWhole ds && isFraction fraction then read else none
      | first :: rest =>
        if isWhole first && rest.all isSexagesimal && isGrouped fraction then
          match sexagesimalSum? 1 (Binary64.ofInt 0) (colonParts (ungrouped cs)).reverse with
          | some x => some (.atom (withSign negative x))
          | none => some .tooWide
        else none
      | [] => none

/-- What a plain scalar means. -/
def meaning (text : String) : Meaning :=
  if nullWords.contains text then .atom .null
  else if trueWords.contains text then .atom (.bool true)
  else if falseWords.contains text then .atom (.bool false)
  else if text == "=" || text == "<<" then .reserved
  else
    let cs := text.toList
    let (negative, magnitude) := Decimal.takeSign cs
    let signed := magnitude.length < cs.length
    match floating? signed negative magnitude with
    | some m => m
    | none =>
      match wholeMagnitude? magnitude with
      | some (some n) => .atom (.int (if negative then -(n : Int) else n))
      | some none => .unreadable
      | none => .atom (.text text)

end Conform.Yaml
