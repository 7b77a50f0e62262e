import Conform.Decimal.Reading
import Conform.Json.Quoted
import Conform.Value.Data

/-!
# Reading lines of input

A line of input is one value: an empty value, a truth value, a number, a text, a list in brackets or a
mapping with texts for keys in braces. Beside the decimal numbers there are `NaN`, `Infinity` and
`-Infinity`. A number with a fraction or an exponent is a floating-point number, any other is an
integer. Of equal keys the first is kept with the last value. The first flaw in a line is reported.
-/

namespace Conform.Json

/-- Why a line is no value. -/
inductive Flaw
  /-- It is not written as one. -/
  | malformed
  /-- An integer in it has too many digits. -/
  | tooLong
  /-- Its lists and mappings are nested too deeply. -/
  | tooDeep
deriving DecidableEq, Repr

/-- What is read, where nothing means a flaw. -/
def orMalformed {α : Type} : Option α → Except Flaw α
  | some r => .ok r
  | none => .error .malformed

/-- The NaN that lines of input spell. -/
def spelledNaN : Atom := .nan 1

/-- Whether a character may stand between the parts of a value. -/
def isGap (c : Char) : Bool := c = ' ' || c = '\t' || c = '\n' || c = '\r'

/-- The rest of a text from the first character that is not a gap. -/
def skipGaps (cs : List Char) : List Char := cs.dropWhile isGap

/-- What follows a word at the front of a text. -/
def afterWord? : (word : List Char) → List Char → Option (List Char)
  | [], cs => some cs
  | w :: ws, c :: cs => if w = c then afterWord? ws cs else none
  | _ :: _, [] => none

/-- The words for single values. -/
def words : List (List Char × Atom) :=
  [("null".toList, .null), ("true".toList, .bool true), ("false".toList, .bool false),
   ("NaN".toList, spelledNaN), ("Infinity".toList, .float (Binary64.infinity false)),
   ("-Infinity".toList, .float (Binary64.infinity true))]

/-- Reads a word for a single value. -/
def word? (cs : List Char) : Option (Atom × List Char) :=
  words.findSome? fun w => (afterWord? w.1 cs).map fun rest => (w.2, rest)

/-! ## Numbers -/

/-- The digits at the front of a text, and the rest. -/
def takeDigits (cs : List Char) : List Char × List Char := cs.span (·.isDigit)

/-- Reads the digits before the point: a zero alone, or digits without one in front. -/
def whole? (cs : List Char) : Option (List Char × List Char) :=
  match cs with
  | '0' :: rest => some (['0'], rest)
  | _ =>
    let (ds, rest) := takeDigits cs
    if ds.isEmpty then none else some (ds, rest)

/-- Reads a point and digits, if there are any. -/
def fraction (cs : List Char) : List Char × List Char :=
  match cs with
  | '.' :: rest =>
    let (ds, after) := takeDigits rest
    if ds.isEmpty then ([], cs) else (ds, after)
  | _ => ([], cs)

/-- Reads an exponent, if there is one. -/
def exponent? (cs : List Char) : Option (Int × List Char) :=
  match cs with
  | e :: rest =>
    if e = 'e' || e = 'E' then
      let (negative, rest) := Decimal.takeSign rest
      let (ds, after) := takeDigits rest
      if ds.isEmpty then none
      else
        let n : Int := Decimal.digitsValue ds
        some (if negative then -n else n, after)
    else none
  | [] => none

/-- Reads a number. -/
def number (cs : List Char) : Except Flaw (Atom × List Char) := do
  let (negative, cs) := match cs with
    | '-' :: rest => (true, rest)
    | _ => (false, cs)
  let (ds, cs) ← orMalformed (whole? cs)
  let (fs, cs) := fraction cs
  match exponent? cs with
  | some (e, cs) =>
    return (.float (.ofDecimal negative (Decimal.digitsValue (ds ++ fs)) (e - fs.length)), cs)
  | none =>
    if fs.isEmpty then
      match Decimal.limitedValue? ds with
      | some n => return (.int (if negative then -(n : Int) else n), cs)
      | none => throw .tooLong
    else
      return (.float (.ofDecimal negative (Decimal.digitsValue (ds ++ fs)) (-fs.length)), cs)

/-- Reads a value without parts that is not a text. -/
def bare (cs : List Char) : Except Flaw (Data × List Char) :=
  match word? cs with
  | some (a, rest) => .ok (.atom a, rest)
  | none => (number cs).map fun (a, rest) => (.atom a, rest)

/-- Reads the characters of a text and its closing mark. -/
def text (cs : List Char) : Except Flaw (String × List Char) :=
  (orMalformed (decode cs)).map fun (cs, rest) => (String.ofList cs, rest)

/-! ## Values -/

/-- The entries with a value put under a key: in the place of the equal key, or at the end. -/
def withEntry (key : String) (value : Data) : List (String × Data) → List (String × Data)
  | [] => [(key, value)]
  | (k, v) :: es => if k = key then (k, value) :: es else (k, v) :: withEntry key value es

/-- The mapping of entries in the order in which they were read. -/
def mapping (entries : List (String × Data)) : Data :=
  .mapping ((entries.foldl (fun es e => withEntry e.1 e.2 es) []).map fun e =>
    (.atom (.text e.1), e.2))

/-- The greatest number of levels in which lists and mappings are nested. -/
def deepest : Nat := 985

mutual

/-- Reads a value that starts at the front of a text, in at most `fuel` steps. Its lists and mappings
are nested in at most `levels` levels. -/
def value : (fuel levels : Nat) → List Char → Except Flaw (Data × List Char)
  | 0, _, _ => throw .malformed
  | _, _, [] => throw .malformed
  | fuel + 1, levels, c :: rest =>
    if c = mark then (text rest).map fun (t, rest) => (.atom (.text t), rest)
    else if (c = '[' || c = '\x7b') && levels = 0 then throw .tooDeep
    else if c = '[' then
      match skipGaps rest with
      | ']' :: after => .ok (.list [], after)
      | start => (items fuel (levels - 1) start).map fun (xs, rest) => (.list xs, rest)
    else if c = '\x7b' then
      match skipGaps rest with
      | '\x7d' :: after => .ok (.mapping [], after)
      | start => (entries fuel (levels - 1) start).map fun (es, rest) => (mapping es, rest)
    else bare (c :: rest)

/-- Reads the items of a list, of which there is at least one, and the closing bracket. -/
def items : (fuel levels : Nat) → List Char → Except Flaw (List Data × List Char)
  | 0, _, _ => throw .malformed
  | fuel + 1, levels, cs => do
    let (x, cs) ← value fuel levels cs
    match skipGaps cs with
    | ']' :: rest => return ([x], rest)
    | ',' :: rest =>
      let (xs, rest) ← items fuel levels (skipGaps rest)
      return (x :: xs, rest)
    | _ => throw .malformed

/-- Reads the entries of a mapping, of which there is at least one, and the closing brace. -/
def entries : (fuel levels : Nat) → List Char → Except Flaw (List (String × Data) × List Char)
  | 0, _, _ => throw .malformed
  | _, _, [] => throw .malformed
  | fuel + 1, levels, c :: cs => do
    if c != mark then throw .malformed
    let (key, cs) ← text cs
    match skipGaps cs with
    | ':' :: rest =>
      let (v, cs) ← value fuel levels (skipGaps rest)
      match skipGaps cs with
      | '\x7d' :: rest => return ([(key, v)], rest)
      | ',' :: rest =>
        let (es, rest) ← entries fuel levels (skipGaps rest)
        return ((key, v) :: es, rest)
      | _ => throw .malformed
    | _ => throw .malformed

end

/-- The value that a text is, with gaps around it. Each step of reading takes a character or descends
into a value that has begun, so twice the length is enough steps. -/
def read (s : String) : Except Flaw Data := do
  let cs := skipGaps s.toList
  let (d, rest) ← value (2 * cs.length + 1) deepest cs
  if (skipGaps rest).isEmpty then return d else throw .malformed

end Conform.Json
