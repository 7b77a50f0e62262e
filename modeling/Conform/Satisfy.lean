import Conform.Fact.Make
import Conform.Fact.Mutate

/-!
# Satisfying a fact

One pass of mutation need not end with a value that satisfies the fact. `satisfy` repeats the pass
and a check of the result until the check passes or the budget of attempts is used up. A stateful
fact is mutated in a copy and checked in another one, and only the copy of the attempt that succeeds
is committed: a failed attempt leaves the fact as it was.
-/

namespace Conform

/-- The name under which the loop logs. -/
def satisfyLogger : String := "factual.satisfy"

/-- The report of a fact for a value, which leaves the fact as it is. -/
def verify (f : Fact) (v : Value) : Act Report := do
  (← f.probe).check v

/-- The violations of a report in one line. -/
def Report.summary (r : Report) : String := "; ".intercalate r.messages

/-- The report of an attempt that was given up: the one that came with the fault, else that of the
value as it stands; if that one passes, the fault itself is the violation. -/
def reportGivenUp (f : Fact) (v : Value) (fault : Fault) (last : Option Report) : Act Report := do
  let found ← match last with
    | some r => pure r
    | none => verify f v
  return if found.ok then .fail ("mutation exhausted: " ++ fault.message) else found

/-- The attempts left at satisfying a fact, given the report of the one before. -/
def satisfyFrom (f : Fact) (budget : Int) : (left : Nat) → (last : Report) → Value → Act Value
  | 0, last, _ => do
    Act.log .warning satisfyLogger
      ("satisfy gave up after " ++ toString budget ++ " attempt(s): " ++ last.summary)
    throw (.unsatisfied budget last)
  | left + 1, _, v => do
    let attempt := toString (budget - left) ++ "/" ++ toString budget
    let trial ← f.probe
    match ← Act.attempt (trial.mutate v) with
    | .ok w =>
      let last ← verify f w
      if last.ok then
        if f.stateful then f.commit trial
        if 1 < budget - left then
          Act.log .debug satisfyLogger ("satisfy succeeded on attempt " ++ attempt)
        return w
      Act.log .debug satisfyLogger
        ("satisfy attempt " ++ attempt ++ " left " ++ toString last.size ++ " violation(s): " ++
          last.summary)
      satisfyFrom f budget left last w
    | .error fault =>
      match fault with
      | .exhausted _ _ lastCheck =>
        let last ← reportGivenUp f v fault lastCheck
        Act.log .debug satisfyLogger ("satisfy attempt " ++ attempt ++ " exhausted: " ++ fault.message)
        satisfyFrom f budget left last v
      | fault => throw fault

/-- Mutates a value until it passes the check of the fact, in at most `attempts` attempts. -/
def satisfy (f : Fact) (v : Value) (attempts : Int := Limit.default.attempts) : Act Value := do
  if attempts < 1 then throw (.refused (.attempts attempts))
  satisfyFrom f attempts attempts.toNat .pass v

/-- A new value of the shape of a template that satisfies the fact. -/
def build (f : Fact) (like : Value) (attempts : Int := Limit.default.attempts) : Act Value := do
  satisfy f (← Draw.arbitrary like) attempts

/-- New values, each built with the fact as the one before left it. -/
def buildSeq (f : Fact) (like : Value) (count : Int) (attempts : Int := Limit.default.attempts) :
    Act (List Value) :=
  (List.replicate count.toNat ()).mapM fun _ => build f like attempts

/-- Checks values in order from the number `i` on. -/
def checkFrom (f : Fact) : (i : Nat) → List Value → Act (List Report)
  | _, [] => return []
  | i, v :: vs => do
    let r ← f.check v
    return r.under ("item " ++ toString i) :: (← checkFrom f (i + 1) vs)

/-- Checks values in order with one fact; each violation says which value it is about. -/
def checkSeq (f : Fact) (vs : List Value) : Act Report := do
  return .combine (← checkFrom f 0 vs)

end Conform
