import Conform.Decimal.Reading
import Conform.Yaml.Text

/-!
# Tokens

A document as a list of tokens. Indentation is made explicit: a block collection opens where an entry
or a key stands further right than the collection around it, and closes where the text returns to the
left. A key is recognised only when its colon is met, and then the token that announces it is put in
front of it.

The scan is a run of steps, each of which reads at least one character. Where a step meets a flaw, the
tokens end with it. A token that may still turn out to be a key is not there yet, nor is any after it.
-/

namespace Conform.Yaml

/-- What a directive tells: the version of the notation, or a handle for tags. Others tell nothing. -/
inductive Directive
  | version (major : Nat)
  | tagHandle (handle : String)
  | other
deriving DecidableEq, Inhabited, Repr

/-- The parts of a document, and the flaw at which they end. -/
inductive Token
  | directive (d : Directive)
  | documentStart
  | documentEnd
  | blockSequenceStart
  | blockMappingStart
  | blockEnd
  | flowSequenceStart
  | flowSequenceEnd
  | flowMappingStart
  | flowMappingEnd
  | flowEntry
  | blockEntry
  | key
  | value
  | alias (name : String)
  | anchor (name : String)
  | scalar (text : String) (plain : Bool)
  | flaw (f : Flaw)
deriving DecidableEq, Inhabited, Repr

/-- A token that may turn out to be a key: the place of its token, and where it starts. One that
stands at the indentation of its block must be a key. -/
structure Candidate where
  token : Nat
  required : Bool
  index : Nat
  line : Nat
  column : Nat

/-- Whether a token may no longer turn out to be a key: it is on another line, or too far back. -/
def Candidate.isStale (k : Candidate) (c : Cursor) : Bool :=
  k.line != c.line || k.index + 1024 < c.index

/-- The state of a scan: the place in the text, the nesting of flow collections, the indentation with
those around it, whether a key may start here, the possible keys by nesting, and the tokens. -/
structure Scanner where
  cursor : Cursor
  flow : Int
  indent : Int
  indents : List Int
  keyAllowed : Bool
  candidates : List (Int × Candidate)
  tokens : Array Token

/-- A step of a scan, which may meet a flaw. -/
abbrev Scan := StateT Scanner (Except Flaw)

namespace Scan

/-- Ends with the flaw of a text that is not well formed. -/
def fail {α : Type} : Scan α := throw .malformed

/-- Adds a token at the end. -/
def emit (t : Token) : Scan Unit := modify fun s => { s with tokens := s.tokens.push t }

/-- Puts a token at a place. -/
def insertAt (i : Nat) (t : Token) : Scan Unit :=
  modify fun s =>
    { s with tokens := (s.tokens.toList.take i ++ t :: s.tokens.toList.drop i).toArray }

/-- Sets whether a key may start here. -/
def allowKey (b : Bool) : Scan Unit := modify fun s => { s with keyAllowed := b }

/-- Moves past `n` characters. -/
def skip (n : Nat) : Scan Unit := modify fun s => { s with cursor := s.cursor.skip n }

/-- Moves to a place. -/
def moveTo (c : Cursor) : Scan Unit := modify fun s => { s with cursor := c }

/-- Closes the blocks that are indented further than a column. -/
def unwindFrom (column : Int) : (fuel : Nat) → Scan Unit
  | 0 => return ()
  | fuel + 1 => do
    let s ← get
    if column < s.indent then
      set { s with indent := s.indents.head?.getD (-1), indents := s.indents.drop 1 }
      emit .blockEnd
      unwindFrom column fuel

/-- Closes the blocks that are indented further than a column, outside flow collections. -/
def unwind (column : Int) : Scan Unit := do
  let s ← get
  if s.flow = 0 then unwindFrom column (s.indents.length + 1)

/-- Opens a block at a column that is further right than the indentation. -/
def openBlock (column : Int) : Scan Bool := do
  let s ← get
  if s.indent < column then
    set { s with indent := column, indents := s.indent :: s.indents }
    return true
  return false

/-- Drops the possible key of the current nesting, which must not be required. -/
def dropCandidate : Scan Unit := do
  let s ← get
  match s.candidates.lookup s.flow with
  | some k =>
    if k.required then fail
    set { s with candidates := s.candidates.filter fun e => e.1 != s.flow }
  | none => return ()

/-- Notes that the next token may be a key. -/
def noteCandidate : Scan Unit := do
  let s ← get
  if s.keyAllowed then
    dropCandidate
    let c := s.cursor
    let required := s.flow = 0 && s.indent = (c.column : Int)
    let k : Candidate := ⟨s.tokens.size, required, c.index, c.line, c.column⟩
    modify fun s => { s with candidates := (s.flow, k) :: s.candidates }

/-- Drops the possible keys that lie on another line or too far back, none of which may be
required. -/
def dropStale : Scan Unit := do
  let s ← get
  if s.candidates.any fun e => e.2.isStale s.cursor && e.2.required then fail
  set { s with candidates := s.candidates.filter fun e => !e.2.isStale s.cursor }

/-- Moves past blanks, comments and line ends. -/
def skipGaps : (fuel : Nat) → Scan Unit
  | 0 => return ()
  | fuel + 1 => do
    let s ← get
    let c := s.cursor.skipWhile (· = ' ')
    let c := if c.peek = '#' then c.skipWhile fun ch => !isBreak ch else c
    match c.lineBreak? with
    | some (_, c) =>
      set { s with cursor := c, keyAllowed := if s.flow = 0 then true else s.keyAllowed }
      skipGaps fuel
    | none => moveTo c

/-- A token of one character. -/
def single (t : Token) : Scan Unit := do
  skip 1
  emit t

/-! ## Steps -/

/-- A document separator. -/
def separator (t : Token) : Scan Unit := do
  unwind (-1)
  dropCandidate
  allowKey false
  skip 3
  emit t

/-- Moves past blanks. -/
def skipBlanks : Scan Unit := do moveTo ((← get).cursor.skipWhile (· = ' '))

/-- Demands that a word ends at a blank or at the end of the line. -/
def requireWordEnd : Scan Unit := do
  let following := (← get).cursor.peek
  if !(following = ' ' || isBreakOrEnd following) then fail

/-- A part of a version number: digits, which must be there. -/
def versionPart : Scan Nat := do
  let ds := (← get).cursor.span Char.isDigit
  if ds.isEmpty then fail
  skip ds.length
  match Decimal.limitedValue? ds with
  | some n => return n
  | none => throw .invalid

/-- The version that a directive tells: two numbers with a point between them. -/
def version : Scan Directive := do
  skipBlanks
  let major ← versionPart
  if (← get).cursor.peek != '.' then fail
  skip 1
  let _ ← versionPart
  requireWordEnd
  return .version major

/-- The characters of names. -/
def isNameChar (c : Char) : Bool := c.isAlphanum || c = '-' || c = '_'

/-- The characters that stand for themselves in the text that a handle for tags abbreviates. -/
def isAddressChar (c : Char) : Bool :=
  c.isAlphanum || "-;/?:@&=+$,_.!~*()[]".toList.contains c || c = singleQuote

/-- A mark, or a name between two marks. -/
def tagHandle : Scan String := do
  let c := (← get).cursor
  if c.peek != '!' then fail
  let name := if c.peek 1 = ' ' then [] else c.next.span isNameChar
  let handle := if c.peek 1 = ' ' then ['!'] else '!' :: name ++ ['!']
  if c.ahead handle.length != handle then fail
  skip handle.length
  return String.ofList handle

/-- The bytes of characters written by percent signs and two hexadecimal digits each. -/
def escapedBytes : (fuel : Nat) → Scan (List UInt8)
  | 0 => return []
  | fuel + 1 => do
    let c := (← get).cursor
    if c.peek != '%' then return []
    match hexValue? (c.peek 1), hexValue? (c.peek 2) with
    | some a, some b =>
      skip 3
      return UInt8.ofNat (16 * a + b) :: (← escapedBytes fuel)
    | _, _ => fail

/-- The text that a handle for tags abbreviates. -/
def tagAddress : (fuel : Nat) → Scan Unit
  | 0 => return ()
  | fuel + 1 => do
    moveTo ((← get).cursor.skipWhile isAddressChar)
    let c := (← get).cursor
    if c.peek = '%' then
      let bytes ← escapedBytes (c.rest.length + 1)
      if !(ByteArray.mk bytes.toArray).validateUTF8 then fail
      tagAddress fuel

/-- The handle for tags that a directive introduces, and the text for it, which must be there. -/
def tagDirective : Scan Directive := do
  skipBlanks
  let handle ← tagHandle
  if (← get).cursor.peek != ' ' then fail
  skipBlanks
  let start := (← get).cursor
  tagAddress (start.rest.length + 1)
  if (← get).cursor.index = start.index then fail
  requireWordEnd
  return .tagHandle handle

/-- A directive: its name and what follows, and the rest of the line, which may hold a comment. -/
def directive : Scan Unit := do
  unwind (-1)
  dropCandidate
  allowKey false
  skip 1
  let name := (← get).cursor.span isNameChar
  if name.isEmpty then fail
  skip name.length
  requireWordEnd
  let told ←
    match String.ofList name with
    | "YAML" => version
    | "TAG" => tagDirective
    | _ =>
      moveTo ((← get).cursor.skipWhile fun c => !isBreak c)
      pure .other
  skipBlanks
  let c := (← get).cursor
  moveTo (if c.peek = '#' then c.skipWhile fun ch => !isBreak ch else c)
  if !isBreakOrEnd (← get).cursor.peek then fail
  emit (.directive told)

/-- The start of a flow collection. -/
def openFlow (t : Token) : Scan Unit := do
  noteCandidate
  modify fun s => { s with flow := s.flow + 1, keyAllowed := true }
  single t

/-- The end of a flow collection, which must be open. -/
def closeFlow (t : Token) : Scan Unit := do
  dropCandidate
  if (← get).flow = 0 then fail
  modify fun s => { s with flow := s.flow - 1, keyAllowed := false }
  single t

/-- The comma between the entries of a flow collection. -/
def flowEntry : Scan Unit := do
  allowKey true
  dropCandidate
  single .flowEntry

/-- Opens a block for an entry or a key at the current column, where one may start. -/
def openHere (t : Token) : Scan Unit := do
  let s ← get
  if s.flow = 0 then
    if !s.keyAllowed then fail
    if ← openBlock s.cursor.column then emit t

/-- The dash in front of an entry of a block sequence. -/
def blockEntry : Scan Unit := do
  openHere .blockSequenceStart
  allowKey true
  dropCandidate
  single .blockEntry

/-- The question mark in front of a key. -/
def explicitKey : Scan Unit := do
  openHere .blockMappingStart
  allowKey ((← get).flow = 0)
  dropCandidate
  single .key

/-- The colon between a key and its value. -/
def value : Scan Unit := do
  let s ← get
  match s.candidates.lookup s.flow with
  | some k =>
    set { s with candidates := s.candidates.filter fun e => e.1 != s.flow }
    insertAt k.token .key
    if s.flow = 0 then
      if ← openBlock k.column then insertAt k.token .blockMappingStart
    allowKey false
  | none =>
    openHere .blockMappingStart
    allowKey (s.flow = 0)
    dropCandidate
  single .value

/-- An anchor or an alias with its name. -/
def reference (t : String → Token) : Scan Unit := do
  noteCandidate
  allowKey false
  skip 1
  let name := (← get).cursor.span isNameChar
  if name.isEmpty then fail
  skip name.length
  let c := (← get).cursor.peek
  if !(isGap c || "?:,]%@".toList.contains c || c = '\x7d' || c.toNat = 96) then fail
  emit (t (String.ofList name))

/-- A block scalar. -/
def blockScalar (isFolded : Bool) : Scan Unit := do
  allowKey true
  dropCandidate
  let s ← get
  let (cs, c) ← block isFolded s.indent s.cursor.next
  moveTo c
  emit (.scalar (String.ofList cs) false)

/-- A quoted scalar. -/
def quotedScalar : Scan Unit := do
  noteCandidate
  allowKey false
  let (cs, c) ← quoted (← get).cursor
  moveTo c
  emit (.scalar (String.ofList cs) false)

/-- A plain scalar. After it a key may start if a line ended. -/
def plainScalar : Scan Unit := do
  noteCandidate
  let s ← get
  let (cs, c, ended) := plain (s.flow != 0) (s.indent + 1) (s.cursor.rest.length + 1) s.cursor
  moveTo c
  allowKey ended
  emit (.scalar (String.ofList cs) true)

/-- The characters that cannot start a plain scalar. -/
def indicators : List Char :=
  ['-', '?', ':', ',', '[', ']', '\x7b', '\x7d', '#', '&', '*', '!', '|', '>', singleQuote,
    doubleQuote, '%', '@', Char.ofNat 96]

/-- Whether a plain scalar starts here. -/
def startsPlain (s : Scanner) : Bool :=
  let ch := s.cursor.peek
  (!isGap ch && !indicators.contains ch) ||
    (!isGap (s.cursor.peek 1) && (ch = '-' || (s.flow = 0 && (ch = '?' || ch = ':'))))

/-- Reads the next token. The answer tells whether there may be more. -/
def step : Scan Bool := do
  skipGaps ((← get).cursor.rest.length + 1)
  dropStale
  unwind (← get).cursor.column
  let s ← get
  let c := s.cursor
  let ch := c.peek
  let wordEnds := isGap (c.peek 1)
  if ch = endMark then
    unwind (-1)
    dropCandidate
    return false
  if ch = '%' && c.column = 0 then directive
  else if c.column = 0 && c.atSeparator then
    separator (if ch = '-' then .documentStart else .documentEnd)
  else if ch = '[' then openFlow .flowSequenceStart
  else if ch = '\x7b' then openFlow .flowMappingStart
  else if ch = ']' then closeFlow .flowSequenceEnd
  else if ch = '\x7d' then closeFlow .flowMappingEnd
  else if ch = ',' then flowEntry
  else if ch = '-' && wordEnds then blockEntry
  else if ch = '?' && (s.flow != 0 || wordEnds) then explicitKey
  else if ch = ':' && (s.flow != 0 || wordEnds) then value
  else if ch = '*' then reference .alias
  else if ch = '&' then reference .anchor
  else if ch = '|' && s.flow = 0 then blockScalar false
  else if ch = '>' && s.flow = 0 then blockScalar true
  else if ch = singleQuote || ch = doubleQuote then quotedScalar
  else if startsPlain s then plainScalar
  else fail
  return true

end Scan

/-- The number of tokens before the first that may still turn out to be a key. -/
def Scanner.settled (s : Scanner) : Nat :=
  (s.candidates.filter fun e => !e.2.isStale s.cursor).foldl (fun n e => min n e.2.token) s.tokens.size

/-- Reads tokens until the end of the text or the first flaw. -/
def steps : (fuel : Nat) → Scanner → List Token
  | 0, s => s.tokens.toList ++ [.flaw .malformed]
  | fuel + 1, s =>
    match Scan.step.run s with
    | .ok (true, s) => steps fuel s
    | .ok (false, s) => s.tokens.toList
    | .error f => s.tokens.toList.take s.settled ++ [.flaw f]

/-- The tokens of a text. -/
def scan (text : String) : List Token :=
  let cs := text.toList
  let body := if cs.head?.map Char.toNat = some 0xfeff then cs.drop 1 else cs
  if !cs.all isAllowed then [.flaw .malformed]
  else steps (body.length + 1) ⟨Cursor.start body, 0, -1, [], true, [], #[]⟩

end Conform.Yaml
