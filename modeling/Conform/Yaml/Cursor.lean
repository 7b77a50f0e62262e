import Conform.Text.Surrogate

/-!
# Reading positions

A `Cursor` is the rest of a text with the number of the line and the column at which it starts. The
end of the text reads as a NUL character, which no text contains.
-/

namespace Conform.Yaml

/-- The rest of a text and where it starts. -/
structure Cursor where
  rest : List Char
  index : Nat
  line : Nat
  column : Nat
deriving Inhabited

/-- What is read at the end of a text. -/
def endMark : Char := Char.ofNat 0

/-- Whether a character ends a line. -/
def isBreak (c : Char) : Bool :=
  c = '\n' || c = '\r' || c.toNat = 0x85 || c.toNat = 0x2028 || c.toNat = 0x2029

/-- Whether a character ends a line or the text. -/
def isBreakOrEnd (c : Char) : Bool := isBreak c || c = endMark

/-- Whether a character ends a word: a blank, a tab, the end of a line or of the text. -/
def isGap (c : Char) : Bool := c = ' ' || c = '\t' || isBreakOrEnd c

/-- Whether a text may hold the character. -/
def isAllowed (c : Char) : Bool :=
  let n := Text.codeOf c
  n = 9 || n = 10 || n = 13 || (0x20 ≤ n && n ≤ 0x7e) || n = 0x85 || (0xa0 ≤ n && n ≤ 0xd7ff) ||
    (0xe000 ≤ n && n ≤ 0xfffd) ||
    0x10000 ≤ n

namespace Cursor

/-- The start of a text. -/
def start (cs : List Char) : Cursor := ⟨cs, 0, 0, 0⟩

/-- The character `i` places ahead. -/
def peek (c : Cursor) (i : Nat := 0) : Char := (c.rest[i]?).getD endMark

/-- The next `n` characters. -/
def ahead (c : Cursor) (n : Nat) : List Char := c.rest.take n

/-- Moves past one character. A carriage return and a line feed end one line together, and a byte
order mark takes no column. -/
def next (c : Cursor) : Cursor :=
  match c.rest with
  | [] => c
  | ch :: rest =>
    let endsLine := isBreak ch && !(ch = '\r' && rest.head? = some '\n')
    if endsLine then ⟨rest, c.index + 1, c.line + 1, 0⟩
    else if ch.toNat = 0xfeff || ch = '\r' then ⟨rest, c.index + 1, c.line, c.column⟩
    else ⟨rest, c.index + 1, c.line, c.column + 1⟩

/-- Moves past `n` characters. -/
def skip (c : Cursor) : Nat → Cursor
  | 0 => c
  | n + 1 => c.next.skip n

/-- The characters ahead that satisfy the test. -/
def span (c : Cursor) (p : Char → Bool) : List Char := c.rest.takeWhile p

/-- Moves past the characters that satisfy the test. -/
def skipWhile (c : Cursor) (p : Char → Bool) : Cursor := c.skip (c.span p).length

/-- Reads the end of a line, if the cursor is at one: a line feed for most, the line and paragraph
separators for themselves. -/
def lineBreak? (c : Cursor) : Option (Char × Cursor) :=
  let ch := c.peek
  if ch = '\r' && c.peek 1 = '\n' then some ('\n', c.skip 2)
  else if ch.toNat = 0x2028 || ch.toNat = 0x2029 then some (ch, c.next)
  else if isBreak ch then some ('\n', c.next)
  else none

/-- Whether the next three characters separate documents. -/
def atSeparator (c : Cursor) : Bool :=
  let word := c.ahead 3
  (word == ['-', '-', '-'] || word == ['.', '.', '.']) && isGap (c.peek 3)

end Cursor

end Conform.Yaml
