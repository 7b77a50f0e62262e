import Conform.Fact.Description

/-!
# Complements

A complement of a fact passes where the fact fails. Constants, equalities, ranges and pairs have one
of the same kind; the complement of a negation is the negated fact itself; labels and lenses pass the
question on. A complement is a fact of its own, with cells of its own, that starts with the same
reference values.
-/

namespace Conform.Fact

/-- A new cell with the same slots as another. -/
def twinCell (c : Loc) : Act Loc := do
  Act.alloc (.slots (← Act.ask (·.slots c)))

/-- A new cell without slots. -/
def emptyCell : Act Loc := Act.alloc (.slots [])

/-- A fact under a name. A label that it already has is replaced. -/
def relabel (name : String) (f : Fact) : Act Fact := do
  let c ← emptyCell
  match f with
  | .labeled _ _ inner _ => return .labeled c name inner inner.stateful
  | f => return .labeled c name f f.stateful

/-- The fact that holds where this one does not, if such a one is known. -/
def complement : Fact → Act (Option Fact)
  | .always _ => return some (.never (← emptyCell) "negation of always")
  | .never _ _ => return some (.always (← emptyCell))
  | .equality c equal g n => return some (.equality (← twinCell c) (!equal) g n)
  | .range c inside => return some (.range (← twinCell c) (!inside))
  | .pair _ equal g n => return some (.pair (← emptyCell) (!equal) g n)
  | .negation _ f _ _ => return some f
  | .lens _ acc f _ => do
    match ← complement f with
    | some g => return some (.lens (← emptyCell) acc g g.stateful)
    | none => return none
  | .labeled _ name f _ => do
    match ← complement f with
    | some g => return some (← relabel (call "not" name) g)
    | none => return none
  | .foreign c kind => do
    match kind.complement with
    | some start => return some (.foreign (← Act.alloc (.slots (start (← Act.ask (·.slots c))))) kind)
    | none => return none
  | _ => return none

end Conform.Fact
