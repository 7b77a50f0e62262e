import Conform.Fact.Check
import Conform.Fact.Copy

/-!
# Bounded search

All facts that look for a value by trial use one search: the start value if it is acceptable, else
the first acceptable one of at most `k` draws. Every value is tested once, and nothing is drawn after
an acceptable one.
-/

namespace Conform

namespace Search

/-- The first acceptable one of at most `k` draws, each made from the value before it. -/
def drawUntil (accept : Value → Act Bool) (draw : Value → Act Value) :
    (k : Nat) → Value → Act (Option Value)
  | 0, _ => return none
  | k + 1, v => do
    let candidate ← draw v
    if ← accept candidate then return some candidate
    drawUntil accept draw k candidate

/-- The start value if it is acceptable, else the first acceptable one of at most `k` draws. -/
def run (accept : Value → Act Bool) (draw : Value → Act Value) (k : Nat) (v : Value) :
    Act (Option Value) := do
  if ← accept v then return some v
  drawUntil accept draw k v

end Search

namespace Fact

/-- Ends with the fault of a fact that gives up. -/
def giveUp {α : Type} (f : Fact) (reason : String) (last : Option Report) : Act α := do
  throw (.exhausted (← f.described) reason last)

/-- An arbitrary value of the shape of a template. A template that cannot be generated makes the fact
give up. -/
def drawLike (f : Fact) (template : Value) : Act Value :=
  tryCatch (Draw.arbitrary template) fun e =>
    match e with
    | .refused (.template cls) => f.giveUp (Refusal.template cls).message none
    | e => throw e

/-- A candidate: drawn by the generator if there is one, else like the template. -/
def drawCandidate (f : Fact) (generate : Option Generator) (template : Value) : Act Value :=
  match generate with
  | some g => g.draw
  | none => f.drawLike template

/-- The number of draws that an attempt budget admits. -/
def budget (attempts : Int) : Nat := attempts.toNat

/-- The end of a message on a search that found nothing. -/
def drawsText (attempts : Int) : String := " found in " ++ toString attempts ++ " draw(s)"

/-- The first candidate that satisfies a fact. A stateful fact is tried on copies, so that candidates
that are passed over do not advance it. -/
def scan (f : Fact) : (scanned : Nat) → List Value → Act Value
  | scanned, [] => f.giveUp ("none of " ++ toString scanned ++ " candidate(s) satisfied the fact") none
  | scanned, v :: vs => do
    let probe ← f.probe
    if (← probe.check v).ok then
      Act.log .debug "factual.brute"
        ((← f.described) ++ ": candidate #" ++ toString (scanned + 1) ++ " accepted")
      return v
    scan f (scanned + 1) vs

end Fact

/-- The first of several candidates, in order, that satisfies a fact. -/
def firstSatisfying (candidates : Value) (f : Fact) : Act Value := do
  f.scan 0 (← Fact.elements candidates)

end Conform
