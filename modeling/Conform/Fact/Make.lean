import Conform.Fact.Complement
import Conform.Value.Order

/-!
# Making facts

One function for each kind of fact, with the default budgets of the library. A fact is made with a
cell of its own, which refers to the very objects given to it.
-/

namespace Conform

/-- The default budgets of every loop that tries again. -/
structure Limit where
  /-- Draws of a search. -/
  draws : Int := 100
  /-- Rounds of a conjunction. -/
  rounds : Int := 10
  /-- Attempts at satisfying a fact. -/
  attempts : Int := 7

/-- The budgets that apply where none is given. -/
def Limit.default : Limit := {}

namespace Fact

/-- A new cell with the given slots. -/
def newCell (vs : List Value) : Act Loc := Act.alloc (.slots vs)

/-- Every value passes. -/
def mkAlways : Act Fact := return .always (← emptyCell)

/-- No value passes. -/
def mkNever (reason : String) : Act Fact := return .never (← emptyCell) reason

/-- The value equals a reference value, which mutation answers. -/
def mkEq (value : Value) : Act Fact :=
  return .equality (← newCell [value]) true none Limit.default.draws

/-- The value differs from a reference value. -/
def mkNe (value : Value) (generate : Option Generator := none)
    (attempts : Int := Limit.default.draws) : Act Fact :=
  return .equality (← newCell [value]) false generate attempts

/-- Options in a fixed order: those of a set ascending, or by their text if they have no order; all
others as they come. A text with an integer of too many digits cannot be made. -/
def orderOptions (s : Store) (options : Value) : Except Misuse (List Value) :=
  match options with
  | .set xs =>
    match Data.sortedBy? s.view xs with
    | some ys => .ok ys
    | none =>
      if xs.all fun v => (s.view v).isWritable then
        .ok (xs.mergeSort fun v w => !Data.textLess (s.view w).render (s.view v).render)
      else .error .invalid
  | v =>
    match s.elements? v with
    | some xs => .ok xs
    | none => .error .unsupported

/-- The value is one of several options. -/
def mkInSet (options : Value) : Act Fact := do
  match ← Act.ask (orderOptions · options) with
  | .ok xs => return .membership (← newCell xs)
  | .error cause => Act.misuse cause

/-- The value lies in an inclusive range, of which an end that is the empty value is open. -/
def mkInRange (low high : Value) : Act Fact := return .range (← newCell [low, high]) true

/-- The two items of a pair are equal. -/
def mkSame : Act Fact := return .pair (← emptyCell) true none Limit.default.draws

/-- The two items of a pair differ. -/
def mkDifferent (generate : Option Generator := none) (attempts : Int := Limit.default.draws) :
    Act Fact :=
  return .pair (← emptyCell) false generate attempts

/-- Successive values are successive integers from `initial` on. -/
def mkConsecutive (initial : Value) : Act Fact := return .counter (← newCell [initial, initial])

/-- No value occurs twice. -/
def mkDistinct (generate : Option Generator := none) (attempts : Int := Limit.default.draws) :
    Act Fact := do
  let l ← Act.alloc (.list [])
  return .distinct (← newCell [.ref l]) generate attempts

/-- All facts hold. -/
def mkAll (facts : List Fact) (rounds : Int := Limit.default.rounds) : Act Fact := do
  if rounds < 1 then throw (.refused (.rounds rounds))
  return .all (← emptyCell) facts rounds (facts.any stateful)

/-- At least one of two facts holds. -/
def mkEither (a b : Fact) : Act Fact :=
  return .either (← emptyCell) a b (a.stateful || b.stateful)

/-- The fact does not hold. A stateful fact needs a complement. -/
def mkNot (f : Fact) (attempts : Int := Limit.default.draws) : Act Fact := do
  if f.stateful then
    if (← f.complement).isNone then
      throw (.refused (.negation (Text.quote (← f.described))))
  return .negation (← emptyCell) f attempts f.stateful

/-- The fact holds for a part of the value. -/
def mkLens (a : Accessor) (f : Fact) : Act Fact := return .lens (← emptyCell) a f f.stateful

/-- The fact holds for a part of the value, if it is there. -/
def mkPrism (a : Accessor) (f : Fact) : Act Fact := return .prism (← emptyCell) a f f.stateful

/-- The fact holds for every element. -/
def mkEach (f : Fact) : Act Fact := return .each (← emptyCell) f f.stateful

/-- The sequence has exactly `size` elements. -/
def mkLength (size : Int) (like : Value := .null) (generate : Option Generator := none) :
    Act Fact := do
  if size < 0 then throw (.refused (.length size))
  return .length (← newCell [like]) size generate

/-- The sequence has exactly `size` elements, and each satisfies the fact. -/
def mkEachOfLength (size : Int) (f : Fact) (like : Value := .null)
    (generate : Option Generator := none) : Act Fact := do
  mkAll [← mkLength size like generate, ← mkEach f]

/-- The fact that applies is chosen by tests of the value. -/
def mkMapped (name : String) (cases : List ((Data → Bool) × Fact)) (otherwise : Fact) : Act Fact :=
  return .mapped (← emptyCell) name (cases.map (·.1)) (cases.map (·.2)) otherwise

/-- The value passes a test. -/
def mkPredicate (name : String) (test : Data → Bool) : Act Fact :=
  return .predicate (← emptyCell) name test

/-- The value passes a test, and values are made by search. -/
def mkBrute (name : String) (test : Data → Bool) (generate : Option Generator := none)
    (attempts : Int := Limit.default.draws) : Act Fact :=
  return .brute (← emptyCell) name test generate attempts

/-- The value is one of the candidates, and satisfies the fact if one is given. -/
def mkChoice (candidates : Value) (f : Option Fact := none) : Act Fact := do
  match ← Act.ask (·.elements? candidates) with
  | some xs => return .choice (← newCell xs) f (f.any stateful)
  | none => Act.misuse .unsupported

/-- The fact under a name, which replaces the one that it has. -/
def mkLabeled (f : Fact) (name : String) : Act Fact := do
  if name = "" then throw (.refused .emptyLabel)
  relabel name f

end Fact

end Conform
