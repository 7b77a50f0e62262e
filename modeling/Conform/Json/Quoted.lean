import Conform.Text.Surrogate

/-!
# Quoted texts of the line format

A text between double marks, in ASCII: a character that is not printable ASCII is written by the four
hexadecimal digits of its code, or, beyond the basic plane, by two such codes.

* `encode` writes the characters of a text.
* `decode` reads up to the closing mark, and accepts more: characters that need no escape, further
  short escapes, capital digits.
-/

namespace Conform.Json

/-- The mark that encloses a text. -/
def mark : Char := Char.ofNat 34

/-- The character that opens every escape. -/
def backslash : Char := Char.ofNat 92

/-- The letters of the short escapes with the codes of the characters they stand for. -/
def shortEscapes : List (Char × Nat) :=
  [(mark, 34), (backslash, 92), ('b', 8), ('f', 12), ('n', 10), ('r', 13), ('t', 9)]

/-- The letter of the short escape for a code. -/
def letterFor? (n : Nat) : Option Char := (shortEscapes.find? (·.2 = n)).map (·.1)

/-- The hexadecimal digit of a number below sixteen. -/
def hexDigit (n : Nat) : Char := Char.ofNat (if n < 10 then 48 + n else 87 + n)

/-- The escape for a code of sixteen bits. -/
def unitEscape (n : Nat) : List Char :=
  [backslash, 'u', hexDigit (n / 4096 % 16), hexDigit (n / 256 % 16), hexDigit (n / 16 % 16),
   hexDigit (n % 16)]

/-- The escapes for any code; beyond the basic plane they are two. -/
def codeEscape (n : Nat) : List Char :=
  if n < 0x10000 then unitEscape n
  else unitEscape (0xd800 + (n - 0x10000) / 1024) ++ unitEscape (0xdc00 + (n - 0x10000) % 1024)

/-- One character of a text as it is written. -/
def encodeChar (c : Char) : List Char :=
  match letterFor? c.toNat with
  | some letter => [backslash, letter]
  | none => if 32 ≤ c.toNat && c.toNat ≤ 126 then [c] else codeEscape (Text.codeOf c)

/-- The characters of a text as they are written. -/
def encode (cs : List Char) : List Char := cs.flatMap encodeChar

/-- A text as it is written. -/
def quote (s : String) : String := String.ofList (mark :: encode s.toList ++ [mark])

/-- The value of a hexadecimal digit in either case. -/
def hexValue? (c : Char) : Option Nat :=
  let n := c.toNat
  if 48 ≤ n ∧ n ≤ 57 then some (n - 48)
  else if 97 ≤ n ∧ n ≤ 102 then some (n - 87)
  else if 65 ≤ n ∧ n ≤ 70 then some (n - 55)
  else none

/-- The code that four digits give. -/
def unit? (a b c d : Char) : Option Nat := do
  return 4096 * (← hexValue? a) + 256 * (← hexValue? b) + 16 * (← hexValue? c) + (← hexValue? d)

/-- The character of a pair of codes, if they are one. -/
def pair? (high low : Nat) : Option Char :=
  if 0xd800 ≤ high ∧ high ≤ 0xdbff ∧ 0xdc00 ≤ low ∧ low ≤ 0xdfff then
    some (Char.ofNat (0x10000 + 1024 * (high - 0xd800) + (low - 0xdc00)))
  else none

/-- The character of a letter after a backslash. -/
def shortEscape? (letter : Char) : Option Char :=
  if letter = '/' then some letter else (shortEscapes.lookup letter).map Char.ofNat

/-- What a code at the front of a text stands for: the character, and the text after it. A second
code is part of it if the two are a pair. -/
def readCode? : List Char → Option (Char × List Char)
  | a :: b :: c :: d :: rest => do
    let high ← unit? a b c d
    match rest with
    | s :: u :: e :: f :: g :: h :: after =>
      if s = backslash && u = 'u' then
        match (unit? e f g h).bind (pair? high) with
        | some ch => return (ch, after)
        | none => return (Text.charOf high, rest)
      else return (Text.charOf high, rest)
    | _ => return (Text.charOf high, rest)
  | _ => none

/-- Reads the characters of a text and its closing mark, in at most `fuel` characters. Control
characters must be escaped. -/
def decodeWithin : (fuel : Nat) → List Char → Option (List Char × List Char)
  | 0, _ => none
  | _, [] => none
  | fuel + 1, c :: rest =>
    let andThen (ch : Char) (rest : List Char) : Option (List Char × List Char) :=
      (decodeWithin fuel rest).map fun (cs, rest) => (ch :: cs, rest)
    if c = mark then some ([], rest)
    else if c = backslash then
      match rest with
      | [] => none
      | letter :: rest =>
        if letter = 'u' then
          match readCode? rest with
          | some (ch, rest) => andThen ch rest
          | none => none
        else
          match shortEscape? letter with
          | some ch => andThen ch rest
          | none => none
    else if c.toNat < 32 then none
    else andThen c rest

/-- Reads the characters of a text and its closing mark: the text, and what follows the mark. -/
def decode (cs : List Char) : Option (List Char × List Char) := decodeWithin (cs.length + 1) cs

end Conform.Json
