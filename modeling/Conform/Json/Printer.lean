import Conform.Decimal.Shortest
import Conform.Fault
import Conform.Json.Quoted
import Conform.Value.Data

/-!
# Printing lines of output

A line of output is one value in the format of lines of input. Tuples are written as lists and members
of integral enumerations as their integers. The keys of mappings become texts: integers and
floating-point numbers as they are written, truth values and the empty value as `true`, `false` and
`null`. A value that contains itself, an integer of too many digits, and a value of any other kind
cannot be written.
-/

namespace Conform.Json

/-- A floating-point number as it is written. -/
def floatText (x : Binary64) : String :=
  if x = Binary64.infinity false then "Infinity"
  else if x = Binary64.infinity true then "-Infinity"
  else Decimal.text x

/-- An integer as it is written. -/
def printInt (n : Int) : Except Fault String :=
  if isWritable n then .ok (toString n) else .error (.misuse .invalid)

/-- An atom that is not a text, as it is written as a value or as a key. -/
def printBare : Atom → Except Fault String
  | .null => .ok "null"
  | .bool b => .ok (if b then "true" else "false")
  | .float x => .ok (floatText x)
  | .nan _ => .ok "NaN"
  | a =>
    match a.integer? with
    | some n => printInt n
    | none => .error (.misuse .unsupported)

/-- An atom as it is written. -/
def printAtom : Atom → Except Fault String
  | .text s => .ok (quote s)
  | a => printBare a

/-- A key as it is written. -/
def printKey : Data → Except Fault String
  | .atom (.text s) => .ok (quote s)
  | .atom a => (printBare a).map quote
  | _ => .error (.misuse .unsupported)

/-- Written items as a list. -/
def listText (items : List String) : String := "[" ++ ", ".intercalate items ++ "]"

/-- Written entries as a mapping. -/
def mappingText (entries : List String) : String := "\x7b" ++ ", ".intercalate entries ++ "\x7d"

mutual

/-- A value as it is written. -/
def print : Data → Except Fault String
  | .atom a => printAtom a
  | .tuple _ xs | .list xs => do return listText (← printAll xs)
  | .mapping es => do return mappingText (← printEntries es)
  | .elided _ => .error (.misuse .invalid)
  | .set _ | .record _ _ => .error (.misuse .unsupported)

/-- Several values as they are written. -/
def printAll : List Data → Except Fault (List String)
  | [] => .ok []
  | x :: xs => do
    let t ← print x
    return t :: (← printAll xs)

/-- The entries of a mapping as they are written. -/
def printEntries : List (Data × Data) → Except Fault (List String)
  | [] => .ok []
  | (k, v) :: es => do
    let key ← printKey k
    let t ← print v
    return (key ++ ": " ++ t) :: (← printEntries es)

end

end Conform.Json
