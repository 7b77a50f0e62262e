import Conform.Fact.Description
import Conform.Value.Order

/-!
# Checking

`Fact.check` reports the violations of a fact for a value and never changes the value. Every part of
a fact that is consulted is consulted whatever the others answer: all facts of a conjunction, both
sides of a disjunction, every element of a sequence.

The path of a violation has a segment for every lens, prism, element, choice and label on the way,
and for every member of a conjunction that has no label of its own.
-/

namespace Conform

namespace Range

/-- Whether a value lies in an inclusive range, if it can be compared with the ends. An end that is
the empty value is open. A NaN lies in no range. -/
def contains (low high d : Data) : Option Bool :=
  let isOpen (e : Data) : Bool := e.className == "NoneType"
  if d.isNaN then some false
  else
    match (if isOpen low then some false else d.less? low) with
    | none => none
    | some true => some false
    | some false =>
      match (if isOpen high then some false else high.less? d) with
      | none => none
      | some above => some (!above)

end Range

namespace Fact

/-- Passes or fails as told. The message is made only for a failure, and it may be that it cannot be. -/
def reportUnless (ok : Bool) (message : Act String) : Act Report := do
  if ok then return .pass else return .fail (← message)

/-- The report of an equality, or of its negation. -/
def equalityReport (equal : Bool) (v w : Value) : Act Report := do
  let same ← Act.equal v w
  reportUnless (same == equal) do
    let sign := if equal then " == " else " != "
    return "expected " ++ (← Act.render v) ++ sign ++ (← Act.render w)

/-- The report of a range fact for a value. -/
def checkRange (c : Loc) (inside : Bool) (v : Value) : Act Report := do
  let low ← Act.view (← Act.ask (·.slot c 0))
  let high ← Act.view (← Act.ask (·.slot c 1))
  let span : Act String := do Act.written (← Act.ask (spanText · c))
  let side := if inside then "within " else "outside "
  match Range.contains low high (← Act.view v) with
  | none =>
    return .fail ("expected a number " ++ side ++ (← span) ++ ", got " ++ (← Act.render v))
  | some within =>
    reportUnless (within == inside) do
      return "expected " ++ (← Act.render v) ++ " to be " ++ side ++ (← span)

/-- The two items of a pair. -/
def items (v : Value) : Act (Value × Value) := do
  match ← Act.ask (·.elements? v) with
  | some [a, b] => return (a, b)
  | some _ => Act.misuse .invalid
  | none => Act.misuse .unsupported

/-- The elements of a sequence. -/
def elements (v : Value) : Act (List Value) := do
  match ← Act.ask (·.elements? v) with
  | some xs => return xs
  | none => Act.misuse .unsupported

/-- The sum of two values that are numbers. -/
def sum (a b : Value) : Act Value := do
  match (← Act.view a).numeral?, (← Act.view b).numeral? with
  | some m, some n => Act.number (← Act.inRange (m.add? n))
  | _, _ => Act.misuse .unsupported

/-- Takes the next value of a counter, which then expects the one after it. -/
def takeNext (c : Loc) : Act Value := do
  let initial ← Act.ask (·.slot c 0)
  let expected ← Act.ask (·.slot c 1)
  Act.put c (.slots [initial, ← sum expected (.int 1)])
  return expected

/-- The values that a distinct fact has seen. -/
def seen (c : Loc) : Act (List Value) := do
  Act.ask fun s => s.listItems (s.slot c 0)

/-- Adds a value to those that a distinct fact has seen. -/
def remember (c : Loc) (v : Value) : Act Unit := do
  match ← Act.ask (·.slot c 0) with
  | .ref l => Act.put l (.list ((← seen c) ++ [v]))
  | _ => return ()

/-- The report of a counter for a value, which advances it. -/
def checkCounter (c : Loc) (v : Value) : Act Report := do
  let expected ← takeNext c
  reportUnless (← Act.equal v expected) do
    let initial ← Act.display (← Act.ask (·.slot c 0))
    return "expected " ++ (← Act.render expected) ++ " (consecutive from " ++ initial ++ "), got " ++
      (← Act.render v)

/-- The report of a distinct fact for a value, which is remembered. -/
def checkDistinct (c : Loc) (v : Value) : Act Report := do
  let repeated ← Act.isIn v (← seen c)
  remember c v
  reportUnless (!repeated) do
    return "expected " ++ (← Act.render v) ++ " not to repeat an earlier value"

/-- The report of a test under a name. -/
def checkTest (name : String) (test : Data → Bool) (v : Value) : Act Report := do
  reportUnless (test (← Act.view v)) do return name ++ ": not satisfied by " ++ (← Act.render v)

/-- Checks the elements of a sequence one after the other. -/
def checkElements (check : Value → Act Report) : (i : Nat) → List Value → Act (List Report)
  | _, [] => return []
  | i, x :: xs => do
    let r ← check x
    return r.under (elementTag i) :: (← checkElements check (i + 1) xs)

/-- Reads a part, where a missing one is no fault. -/
def part? (a : Accessor) (v : Value) : Act (Option Value) := do
  match a.get (← get).store v with
  | .ok x => return some x
  | .error f => if Accessor.isMissing f then return none else throw f

/-- The report of a membership fact for a value. -/
def checkMembership (c : Loc) (v : Value) : Act Report := do
  let vs ← Act.ask (·.slots c)
  reportUnless (← Act.isIn v vs) do
    let options ← Act.written (← Act.ask (optionsText · c))
    return "expected " ++ (← Act.render v) ++ " to be one of " ++ options

/-- The report on being one of the candidates. -/
def checkCandidates (c : Loc) (v : Value) : Act Report := do
  let vs ← Act.ask (·.slots c)
  reportUnless (← Act.isIn v vs) do
    return "expected " ++ (← Act.render v) ++ " to be one of " ++ toString vs.length ++ " candidate(s)"

/-- The report of a length for a value. -/
def checkLength (size : Int) (v : Value) : Act Report := do
  let found := (← elements v).length
  reportUnless ((found : Int) == size) do
    return "expected length " ++ (← Act.render (.int size)) ++ ", got " ++ toString found

mutual

/-- The violations of a fact for a value. -/
def check : Fact → Value → Act Report
  | .always _, _ => return .pass
  | .never _ reason, _ => return .fail ("never: " ++ reason)
  | .equality c equal _ _, v => do
    equalityReport equal v (← Act.ask (·.slot c 0))
  | .membership c, v => checkMembership c v
  | .range c inside, v => checkRange c inside v
  | .pair _ equal _ _, v => do
    let (a, b) ← items v
    equalityReport equal a b
  | .counter c, v => checkCounter c v
  | .distinct c _ _, v => checkDistinct c v
  | .all _ fs _ _, v => return .combine (← checkAll fs 0 v)
  | .either _ a b _, v => do
    let ra ← a.check v
    let rb ← b.check v
    return if ra.ok || rb.ok then .pass else ra.under "or[0]" ++ rb.under "or[1]"
  | .negation _ f _ _, v => do
    let r ← f.check v
    reportUnless (!r.ok) do
      return call "not" (← f.described) ++ ": " ++ (← Act.render v) ++ " satisfies the negated fact"
  | .lens _ acc f _, v => do
    match ← part? acc v with
    | some x => return (← f.check x).under (lensTag acc)
    | none => return (Report.fail ("missing " ++ acc.name)).under (lensTag acc)
  | .prism _ acc f _, v => do
    match ← part? acc v with
    | some x => if x.isAbsent then return .pass else return (← f.check x).under (prismTag acc)
    | none => return .pass
  | .each _ f _, v => do
    return .combine (← checkElements f.check 0 (← elements v))
  | .length _ n _, v => checkLength n v
  | .mapped _ name tests fs f, v => do
    return (← checkPick (← Act.view v) tests fs (f.check v) v).under (mappedTag name)
  | .predicate _ name test, v => checkTest name test v
  | .brute _ name test _ _, v => checkTest name test v
  | .choice c none _, v => checkCandidates c v
  | .choice c (some f) _, v => do
    let r ← checkCandidates c v
    return r ++ (← f.check v)
  | .labeled _ name f _, v => return (← f.check v).under name
  | .foreign c kind, v => kind.check c v

/-- The reports of the members of a conjunction. -/
def checkAll : List Fact → (i : Nat) → Value → Act (List Report)
  | [], _, _ => return []
  | f :: fs, i, v => do
    let r ← f.check v
    let tagged := if f.label?.isNone then r.under ("and" ++ elementTag i) else r
    return tagged :: (← checkAll fs (i + 1) v)

/-- The report of the fact of the first test that holds, or else the last one. -/
def checkPick (d : Data) : List (Data → Bool) → List Fact → Act Report → Value → Act Report
  | test :: tests, f :: fs, otherwise, v =>
    if test d then f.check v else checkPick d tests fs otherwise v
  | _, _, otherwise, _ => otherwise

end

end Fact

end Conform
