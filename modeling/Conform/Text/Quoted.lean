import Conform.Text.Printable
import Conform.Text.Surrogate

/-!
# Quoted texts

How messages show a text or a byte string: between quotation marks, with every character that
would not be seen written by its code. The single mark is used unless the text holds single marks
and no double ones, so a mark is escaped only where both kinds occur.
-/

namespace Conform.Text

/-- The single quotation mark. -/
def singleMark : Char := Char.ofNat 39

/-- The double quotation mark. -/
def doubleMark : Char := Char.ofNat 34

/-- The backslash, which opens every escape. -/
def backslash : Char := Char.ofNat 92

/-- The mark that encloses a text: double exactly when the text holds a single mark and no double one. -/
def markFor (cs : List Char) : Char :=
  if cs.contains singleMark && !cs.contains doubleMark then doubleMark else singleMark

/-- The lower-case hexadecimal digits of `n`, with zeros in front up to `width` digits. -/
def hex (width n : Nat) : List Char :=
  let ds := Nat.toDigits 16 n
  List.replicate (width - ds.length) '0' ++ ds

/-- The escapes that a text and a byte string share: the mark, the backslash and three controls. -/
def shortEscape? (mark c : Char) : Option (List Char) :=
  if c = mark || c = backslash then some [backslash, c]
  else if c = '\n' then some [backslash, 'n']
  else if c = '\r' then some [backslash, 'r']
  else if c = '\t' then some [backslash, 't']
  else none

/-- One character of a quoted text: itself if it is printable, else a short escape or its code in
two, four or eight digits. -/
def quoteChar (mark c : Char) : List Char :=
  match shortEscape? mark c with
  | some cs => cs
  | none =>
    let code := codeOf c
    if isPrintable c then [c]
    else if code < 0x100 then backslash :: 'x' :: hex 2 code
    else if code < 0x10000 then backslash :: 'u' :: hex 4 code
    else backslash :: 'U' :: hex 8 code

/-- A text as messages show it. -/
def quote (s : String) : String :=
  let cs := s.toList
  let mark := markFor cs
  String.ofList (mark :: cs.flatMap (quoteChar mark) ++ [mark])

/-- One byte of a quoted byte string: itself in the printable range of ASCII, else an escape. -/
def quoteByte (mark : Char) (b : UInt8) : List Char :=
  let c := Char.ofNat b.toNat
  match shortEscape? mark c with
  | some cs => cs
  | none => if 32 ≤ b.toNat && b.toNat < 127 then [c] else backslash :: 'x' :: hex 2 b.toNat

/-- A byte string as messages show it. -/
def quoteBytes (bs : List UInt8) : String :=
  let mark := markFor (bs.map fun b => Char.ofNat b.toNat)
  String.ofList ('b' :: mark :: bs.flatMap (quoteByte mark) ++ [mark])

end Conform.Text
