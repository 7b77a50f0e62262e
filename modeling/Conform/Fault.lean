import Conform.Report

/-!
# Faults

Unmet constraints are reported as data; a fault arises where no usable answer can be produced. A
fault is named by its cause, and `Fault.message` gives the text for it.
-/

namespace Conform

/-- Arguments that the library refuses. -/
inductive Refusal
  /-- A budget of attempts below one. -/
  | attempts (given : Int)
  /-- A budget of rounds below one. -/
  | rounds (given : Int)
  /-- A negative length. -/
  | length (given : Int)
  /-- A label without text. -/
  | emptyLabel
  /-- A negated fact with state and without a complement, by its description. -/
  | negation (described : String)
  /-- A range whose ends are in the wrong order. -/
  | range (low high : String)
  /-- A choice among no options. -/
  | noOptions
  /-- A template of a class whose values cannot be generated. -/
  | template (className : String)
  /-- A line of input that is not a value, by its number. -/
  | line (number : Nat)
deriving DecidableEq, Inhabited, Repr

/-- Operations that the operand itself does not admit. -/
inductive Misuse
  /-- The operation is not defined on the operand's class. -/
  | unsupported
  /-- The operand has the right class and the wrong contents. -/
  | invalid
  /-- A mapping has no such key. -/
  | noKey
  /-- A sequence has no such place. -/
  | noIndex
  /-- The value has no such attribute. -/
  | noAttribute
  /-- An integer is beyond the range of floating-point numbers. -/
  | overflow
  /-- A value that contains itself was followed to the bottom. -/
  | bottomless
deriving DecidableEq, Inhabited, Repr

/-- Why no answer could be produced. -/
inductive Fault
  /-- A fact gave up its own bounded search for a satisfying value. -/
  | exhausted (fact reason : String) (lastCheck : Option Report)
  /-- Every attempt at satisfying a fact failed; the report is that of the last one. -/
  | unsatisfied (attempts : Int) (lastCheck : Report)
  /-- A report was taken for an assertion and has violations. -/
  | failed (violations : List String)
  /-- A document does not describe a fact; the path leads to the malformed node. -/
  | schema (path message : String)
  | refused (cause : Refusal)
  | misuse (cause : Misuse)
deriving DecidableEq, Inhabited, Repr

namespace Refusal

/-- The text of a refusal. -/
def message : Refusal → String
  | .attempts n => "attempts must be >= 1, got " ++ toString n
  | .rounds n => "rounds must be >= 1, got " ++ toString n
  | .length n => "length must be >= 0, got " ++ toString n
  | .emptyLabel => "label must be a non-empty string"
  | .negation described =>
    "cannot negate stateful fact " ++ described ++ " without an explicit complement()"
  | .range low high => "invalid range " ++ low ++ ".." ++ high
  | .noOptions => "cannot choose from an empty sequence"
  | .template className => "cannot generate an arbitrary value shaped like " ++ className
  | .line number => "stdin line " ++ toString number ++ ": invalid JSON"

end Refusal

namespace Fault

/-- The text of a failed assertion: one violation on the same line, several on lines of their own. -/
def failedText : List String → String
  | [v] => "Check failed: " ++ v
  | vs => "Check failed:\n" ++ "\n".intercalate (vs.map ("  - " ++ ·))

/-- The text of a fault, if it has one of its own. -/
def message? : Fault → Option String
  | .exhausted fact reason _ => some (fact ++ ": " ++ reason)
  | .unsatisfied attempts last =>
    let detail := "; ".intercalate last.messages
    some ("could not satisfy constraint after " ++ toString attempts ++ " attempt(s): " ++
      if detail = "" then "no violations recorded" else detail)
  | .failed vs => some (failedText vs)
  | .schema path message => some (path ++ ": " ++ message)
  | .refused cause => some cause.message
  | .misuse _ => none

/-- The text of a fault. -/
def message (f : Fault) : String := f.message?.getD ""

/-- The fault as seen from one level further out: the description of an exhausted fact and its last
report get the segment in front. -/
def under (segment : String) : Fault → Fault
  | .exhausted fact reason last =>
    .exhausted (segment ++ pathSeparator ++ fact) reason (last.map (Report.under segment))
  | f => f

end Fault

namespace Report

/-- The report taken for an assertion. -/
def unwrap (r : Report) : Except Fault Unit :=
  if r.ok then .ok () else .error (.failed r.messages)

end Report

end Conform
