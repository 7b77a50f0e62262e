import Conform.Yaml.Cursor

/-!
# Scalar texts

The four ways in which a scalar is written: plain, in single or double quotes, and as an indented
block. Each function reads one scalar and answers its text and the place after it, or the flaw in it.
Loops run at most once for each character that is left.
-/

namespace Conform.Yaml

/-- Why a text is no document. -/
inductive Flaw
  /-- It is not written as one. -/
  | malformed
  /-- A number in it has too many digits, or is the code of no character. -/
  | invalid
  /-- A code in it is no machine integer. -/
  | overflow
  /-- Its collections are nested too deeply. -/
  | tooDeep
deriving DecidableEq, Inhabited, Repr

/-- What is read, where nothing means a flaw. -/
def orMalformed {α : Type} : Option α → Except Flaw α
  | some a => .ok a
  | none => .error .malformed

/-! ## Quoted scalars -/

/-- The characters that stand for others after a backslash. -/
def escapes : List (Char × Nat) :=
  [('0', 0), ('a', 7), ('b', 8), ('t', 9), ('\t', 9), ('n', 10), ('v', 11), ('f', 12), ('r', 13),
   ('e', 27), (' ', 32), (Char.ofNat 34, 34), (Char.ofNat 92, 92), ('/', 47), ('N', 0x85),
   ('_', 0xa0), ('L', 0x2028), ('P', 0x2029)]

/-- The number of digits of a code after a backslash. -/
def codeLengths : List (Char × Nat) := [('x', 2), ('u', 4), ('U', 8)]

/-- The value of a hexadecimal digit. -/
def hexValue? (c : Char) : Option Nat :=
  let n := c.toNat
  if 48 ≤ n ∧ n ≤ 57 then some (n - 48)
  else if 97 ≤ n ∧ n ≤ 102 then some (n - 87)
  else if 65 ≤ n ∧ n ≤ 70 then some (n - 55)
  else none

/-- The value of hexadecimal digits. -/
def hexNumber? (cs : List Char) : Option Nat :=
  cs.foldlM (fun n c => (hexValue? c).map (16 * n + ·)) 0

/-- The single and the double quotation mark, and the backslash. -/
def singleQuote : Char := Char.ofNat 39

/-- The double quotation mark. -/
def doubleQuote : Char := Char.ofNat 34

/-- The backslash. -/
def slash : Char := Char.ofNat 92

/-- The ends of empty lines within a quoted scalar, with the blanks around them. -/
def quotedBreaks : (fuel : Nat) → Cursor → Except Flaw (List Char × Cursor)
  | 0, _ => throw .malformed
  | fuel + 1, c =>
    if c.atSeparator then throw .malformed
    else
      let c := c.skipWhile fun ch => ch = ' ' || ch = '\t'
      match c.lineBreak? with
      | some (b, c) => (quotedBreaks fuel c).map fun (bs, c) => (b :: bs, c)
      | none => .ok ([], c)

/-- A folded line end: one line feed becomes a blank, further ones are kept. -/
def folded (b : Char) (bs : List Char) : List Char :=
  if b != '\n' then b :: bs else if bs.isEmpty then [' '] else bs

/-- The least code beyond those of characters. -/
def codeLimit : Nat := 0x110000

/-- The least code that is no machine integer. -/
def machineLimit : Nat := 0x80000000

/-- The character of a code. -/
def character (code : Nat) : Except Flaw Char :=
  if machineLimit ≤ code then throw .overflow
  else if codeLimit ≤ code then throw .invalid
  else return Text.charOf code

/-- What a backslash and the characters after it stand for. -/
def escaped (c : Cursor) : Except Flaw (List Char × Cursor) := do
  let ch := c.peek
  match escapes.lookup ch with
  | some n => return ([Char.ofNat n], c.next)
  | none =>
    match codeLengths.lookup ch with
    | some n =>
      let c := c.next
      let ds := c.ahead n
      if ds.length != n then throw .malformed
      else return ([← character (← orMalformed (hexNumber? ds))], c.skip n)
    | none =>
      let (_, c) ← orMalformed c.lineBreak?
      quotedBreaks (c.rest.length + 1) c

/-- A run of characters of a quoted scalar up to a blank, a line end or the closing mark. -/
def quotedRun (double : Bool) : (fuel : Nat) → Cursor → Except Flaw (List Char × Cursor)
  | 0, _ => throw .malformed
  | fuel + 1, c =>
    let special (ch : Char) : Bool := ch = singleQuote || ch = doubleQuote || ch = slash || isGap ch
    let plain := c.span fun ch => !special ch
    let c := c.skip plain.length
    let ch := c.peek
    let more (cs : List Char) (c : Cursor) : Except Flaw (List Char × Cursor) :=
      (quotedRun double fuel c).map fun (r, c) => (plain ++ cs ++ r, c)
    if !double && ch = singleQuote && c.peek 1 = singleQuote then more [singleQuote] (c.skip 2)
    else if (double && ch = singleQuote) || (!double && (ch = doubleQuote || ch = slash)) then
      more [ch] c.next
    else if double && ch = slash then do
      let (cs, c) ← escaped c.next
      more cs c
    else .ok (plain, c)

/-- The blanks or the line end between two runs of a quoted scalar. -/
def quotedSpaces (c : Cursor) : Except Flaw (List Char × Cursor) :=
  let blanks := c.span fun ch => ch = ' ' || ch = '\t'
  let c := c.skip blanks.length
  if c.peek = endMark then throw .malformed
  else
    match c.lineBreak? with
    | some (b, c) => (quotedBreaks (c.rest.length + 1) c).map fun (bs, c) => (folded b bs, c)
    | none => .ok (blanks, c)

/-- The rest of a quoted scalar, from the end of a run on. -/
def quotedRest (double : Bool) (mark : Char) :
    (fuel : Nat) → Cursor → Except Flaw (List Char × Cursor)
  | 0, _ => throw .malformed
  | fuel + 1, c => do
    if c.peek = mark then return ([], c.next)
    let (blanks, c) ← quotedSpaces c
    let (run, c) ← quotedRun double (c.rest.length + 1) c
    let (rest, c) ← quotedRest double mark fuel c
    return (blanks ++ run ++ rest, c)

/-- A quoted scalar, from its opening mark on. -/
def quoted (c : Cursor) : Except Flaw (List Char × Cursor) := do
  let mark := c.peek
  let double := mark = doubleQuote
  let (run, c) ← quotedRun double (c.rest.length + 1) c.next
  let (rest, c) ← quotedRest double mark (c.rest.length + 1) c
  return (run ++ rest, c)

/-! ## Plain scalars -/

/-- The characters that end a plain scalar, or its key, inside a flow collection. -/
def isFlowMark (c : Char) : Bool := c = ',' || c = '[' || c = ']' || c = '\x7b' || c = '\x7d'

/-- A run of characters of a plain scalar. -/
def plainRun (inFlow : Bool) : List Char → List Char
  | [] => []
  | ch :: rest =>
    let following := rest.head?.getD endMark
    let stops := isGap ch || (ch = ':' && (isGap following || (inFlow && isFlowMark following))) ||
      (inFlow && (isFlowMark ch || ch = '?'))
    if stops then [] else ch :: plainRun inFlow rest

/-- The line ends and blanks after the first line end within a plain scalar. A separator of documents
ends the scalar. -/
def plainBreaks : (fuel : Nat) → Cursor → Option (List Char) × Cursor
  | 0, c => (none, c)
  | fuel + 1, c =>
    if c.peek = ' ' then plainBreaks fuel c.next
    else
      match c.lineBreak? with
      | some (b, c) =>
        if c.atSeparator then (none, c)
        else
          let (bs, c) := plainBreaks fuel c
          (bs.map (b :: ·), c)
      | none => (some [], c)

/-- What stands between two runs of a plain scalar, the place after it, and whether a line ended. -/
def plainSpaces (c : Cursor) : List Char × Cursor × Bool :=
  let blanks := c.span (· = ' ')
  let c := c.skip blanks.length
  match c.lineBreak? with
  | some (b, c) =>
    if c.atSeparator then ([], c, true)
    else
      match plainBreaks (c.rest.length + 1) c with
      | (some bs, c) => (folded b bs, c, true)
      | (none, c) => ([], c, true)
  | none => (blanks, c, false)

/-- A plain scalar whose lines are indented to `indent` at least: its text, the place after it, and
whether a line ended after the last run. -/
def plain (inFlow : Bool) (indent : Int) : (fuel : Nat) → Cursor → List Char × Cursor × Bool
  | 0, c => ([], c, false)
  | fuel + 1, c =>
    let run := if c.peek = '#' then [] else plainRun inFlow c.rest
    if run.isEmpty then ([], c, false)
    else
      let (spaces, c, ended) := plainSpaces (c.skip run.length)
      if spaces.isEmpty || c.peek = '#' || (!inFlow && (c.column : Int) < indent) then
        (run, c, ended)
      else
        let (rest, d, endedAfter) := plain inFlow indent fuel c
        if rest.isEmpty then (run, d, ended) else (run ++ spaces ++ rest, d, endedAfter)

/-! ## Block scalars -/

/-- The digit of an indentation that is given. -/
def digit? (c : Char) : Option Nat := if c.isDigit then some (c.toNat - 48) else none

/-- What the header of a block scalar asks for: keeping (`some true`) or dropping (`some false`) the
line ends at the end, and an indentation. -/
def blockHeader (c : Cursor) : Option (Option Bool × Option Nat × Cursor) :=
  let chomping? (ch : Char) : Option Bool :=
    if ch = '+' then some true else if ch = '-' then some false else none
  let (keep, c) :=
    match chomping? c.peek with
    | some k => (some k, c.next)
    | none => (none, c)
  let (indent, c) :=
    match digit? c.peek with
    | some n => (some n, c.next)
    | none => (none, c)
  let (keep, c) :=
    match keep, indent, chomping? c.peek with
    | none, some _, some k => (some k, c.next)
    | _, _, _ => (keep, c)
  let c' := c
  if indent = some 0 || !(c'.peek = ' ' || isBreakOrEnd c'.peek) then none
  else
    let c := c.skipWhile (· = ' ')
    let c := if c.peek = '#' then c.skipWhile fun ch => !isBreak ch else c
    if !isBreakOrEnd c.peek then none
    else
      match c.lineBreak? with
      | some (_, c) => some (keep, indent, c)
      | none => some (keep, indent, c)

/-- The empty lines at the start of a block scalar, and the greatest column of the blanks met. -/
def blockLead : (fuel : Nat) → (widest : Nat) → Cursor → List Char × Nat × Cursor
  | 0, widest, c => ([], widest, c)
  | fuel + 1, widest, c =>
    if c.peek = ' ' then
      let c := c.next
      blockLead fuel (max widest c.column) c
    else
      match c.lineBreak? with
      | some (b, c) =>
        let (bs, widest, c) := blockLead fuel widest c
        (b :: bs, widest, c)
      | none => ([], widest, c)

/-- Blanks up to the indentation. -/
def toIndent (indent : Nat) (c : Cursor) : Cursor :=
  let blanks := (c.span (· = ' ')).length
  c.skip (min blanks (indent - c.column))

/-- The empty lines between two lines of a block scalar. -/
def blockBreaks (indent : Nat) : (fuel : Nat) → Cursor → List Char × Cursor
  | 0, c => ([], c)
  | fuel + 1, c =>
    let c := toIndent indent c
    match c.lineBreak? with
    | some (b, c) =>
      let (bs, c) := blockBreaks indent fuel c
      (b :: bs, c)
    | none => ([], c)

/-- The lines of a block scalar from the current one on. `breaks` are the empty lines before it. The
answer ends with the last line end and the empty lines after it. -/
def blockLines (isFolded : Bool) (indent : Nat) : (fuel : Nat) → (breaks : List Char) → Cursor →
    List Char × List Char × List Char × Cursor
  | 0, breaks, c => ([], [], breaks, c)
  | fuel + 1, breaks, c =>
    if c.column != indent || c.peek = endMark then ([], [], breaks, c)
    else
      let isWord (ch : Char) : Bool := !(ch = ' ' || ch = '\t')
      let startsWord := isWord c.peek
      let line := c.span fun ch => !isBreak ch
      let c := c.skip line.length
      let (ending, c) :=
        match c.lineBreak? with
        | some (b, c) => ([b], c)
        | none => ([], c)
      let (after, c) := blockBreaks indent (c.rest.length + 1) c
      if c.column = indent && c.peek != endMark then
        let joint :=
          if isFolded && ending == ['\n'] && startsWord && isWord c.peek then
            if after.isEmpty then [' '] else []
          else ending
        let (text, last, rest, c) := blockLines isFolded indent fuel after c
        (breaks ++ line ++ joint ++ text, last, rest, c)
      else (breaks ++ line, ending, after, c)

/-- A block scalar from the character after its mark on, inside a collection indented to
`parentIndent`. -/
def block (isFolded : Bool) (parentIndent : Int) (c : Cursor) : Except Flaw (List Char × Cursor) := do
  let (keep, given, c) ← orMalformed (blockHeader c)
  let least := (max (parentIndent + 1) 1).toNat
  let (breaks, indent, c) :=
    match given with
    | none =>
      let (bs, widest, c) := blockLead (c.rest.length + 1) 0 c
      (bs, max least widest, c)
    | some n =>
      let indent := least + n - 1
      let (bs, c) := blockBreaks indent (c.rest.length + 1) c
      (bs, indent, c)
  let (text, last, rest, c) := blockLines isFolded indent (c.rest.length + 1) breaks c
  let closing := if keep = some false then [] else last
  return (text ++ closing ++ (if keep = some true then rest else []), c)

end Conform.Yaml
