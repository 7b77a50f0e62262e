import Conform.Entropy.Draw
import Conform.Value.Accessor

/-!
# Facts

A fact is one constraint with two uses: it checks a value, and it mutates a value into one that
satisfies it. `Fact` is the tree of a constraint. Every node owns a cell of the store, which is its
identity: the tree may hold one node in several positions, and then all of them share the cell.

The slots of the cell hold the values that a node owns:

* `equality` the reference value; `membership` and `choice` the options; `range` its two ends, an
  empty one being open; `length` the template of new elements;
* `counter` the first and the next expected integer; `distinct` the list of the values seen.

Facts that advance when they are used are *stateful*, and so are the facts built from them. A node notes
whether it is when it is made. The note stays when a part of it is exchanged for another.
-/

namespace Conform

/-- What values are made of, again and again: a tree, or the fault that making a value ends with. -/
abbrev Recipe := Except Fault Data

/-- A new value by a recipe. -/
def Recipe.make (r : Recipe) : Act Value := do Act.build (← Act.ofExcept r)

/-- How new candidate values are drawn. Values are made of new objects at every draw. -/
inductive Generator
  | int (low high : Recipe)
  | const (value : Recipe)
  | choose (options : List Recipe)
  | arbitrary (like : Recipe)
deriving Inhabited

namespace Generator

/-- Draws one value. -/
def draw : Generator → Act Value
  | .int low high => do Draw.intInRange (← Recipe.make low) (← Recipe.make high)
  | .const r => Recipe.make r
  | .choose rs => do Draw.choose (← rs.mapM Recipe.make)
  | .arbitrary r => do Draw.arbitrary (← Recipe.make r)

end Generator

/-- A constraint brought from outside. It may keep values in the slots of its cell. -/
structure Foreign where
  /-- The name of its class. -/
  className : String
  /-- Its own description, where it has one. -/
  described : Option String
  /-- Whether it is shown with the name of its class and its description. -/
  shown : Bool
  /-- Whether checking and mutating advance it. -/
  stateful : Bool
  check : Loc → Value → Act Report
  mutate : Loc → Value → Act Value
  /-- The slots of its complement, made from its own. -/
  complement : Option (List Value → List Value)

/-- A constraint as a tree of nodes with their cells. -/
inductive Fact
  /-- Every value passes. -/
  | always (cell : Loc)
  /-- No value passes. -/
  | never (cell : Loc) (reason : String)
  /-- The value equals, or differs from, a reference value. -/
  | equality (cell : Loc) (equal : Bool) (generate : Option Generator) (attempts : Int)
  /-- The value is one of the options. -/
  | membership (cell : Loc)
  /-- The value lies inside, or outside, an inclusive range. -/
  | range (cell : Loc) (inside : Bool)
  /-- The two items of a pair are equal, or differ. -/
  | pair (cell : Loc) (equal : Bool) (generate : Option Generator) (attempts : Int)
  /-- Successive values are successive integers. -/
  | counter (cell : Loc)
  /-- No value occurs twice. -/
  | distinct (cell : Loc) (generate : Option Generator) (attempts : Int)
  /-- All facts hold. -/
  | all (cell : Loc) (facts : List Fact) (rounds : Int) (stateful : Bool)
  /-- At least one of two facts holds. -/
  | either (cell : Loc) (a b : Fact) (stateful : Bool)
  /-- The fact does not hold. -/
  | negation (cell : Loc) (fact : Fact) (attempts : Int) (stateful : Bool)
  /-- The fact holds for a part, which must be there. -/
  | lens (cell : Loc) (accessor : Accessor) (fact : Fact) (stateful : Bool)
  /-- The fact holds for a part, if it is there. -/
  | prism (cell : Loc) (accessor : Accessor) (fact : Fact) (stateful : Bool)
  /-- The fact holds for every element. -/
  | each (cell : Loc) (fact : Fact) (stateful : Bool)
  /-- The number of elements. -/
  | length (cell : Loc) (size : Int) (generate : Option Generator)
  /-- The fact that applies is the one of the first test that the value passes. -/
  | mapped (cell : Loc) (name : String) (tests : List (Data → Bool)) (facts : List Fact)
      (otherwise : Fact)
  /-- The value passes a test, which cannot be used to make values. -/
  | predicate (cell : Loc) (name : String) (test : Data → Bool)
  /-- The value passes a test; values are made by drawing until one does. -/
  | brute (cell : Loc) (name : String) (test : Data → Bool) (generate : Option Generator)
      (attempts : Int)
  /-- The value is one of the candidates and satisfies a further fact, if there is one. -/
  | choice (cell : Loc) (fact : Option Fact) (stateful : Bool)
  /-- The fact under a name. -/
  | labeled (cell : Loc) (name : String) (fact : Fact) (stateful : Bool)
  /-- A constraint brought from outside. -/
  | foreign (cell : Loc) (kind : Foreign)

instance : Inhabited Fact := ⟨.always 0⟩

namespace Fact

/-- The cell of a node. -/
def cell : Fact → Loc
  | .always c | .never c _ | .equality c _ _ _ | .membership c | .range c _ | .pair c _ _ _
  | .counter c | .distinct c _ _ | .all c _ _ _ | .either c _ _ _ | .negation c _ _ _ | .lens c _ _ _
  | .prism c _ _ _ | .each c _ _ | .length c _ _ | .mapped c _ _ _ _ | .predicate c _ _
  | .brute c _ _ _ _ | .choice c _ _ | .labeled c _ _ _ | .foreign c _ => c

/-- The name that a fact was given. -/
def label? : Fact → Option String
  | .labeled _ name _ _ => some name
  | _ => none

/-- Whether checking and mutating advance the fact, as it was when it was made. A fact chosen from the
value does not count. -/
def stateful : Fact → Bool
  | .counter _ | .distinct _ _ _ => true
  | .all _ _ _ b | .either _ _ _ b | .negation _ _ _ b | .lens _ _ _ b | .prism _ _ _ b | .each _ _ b
  | .choice _ _ b | .labeled _ _ _ b => b
  | .foreign _ kind => kind.stateful
  | _ => false

mutual

/-- The number of nodes on the longest way down. -/
def depth : Fact → Nat
  | .all _ fs _ _ => depths fs + 1
  | .either _ a b _ => max a.depth b.depth + 1
  | .negation _ f _ _ | .lens _ _ f _ | .prism _ _ f _ | .each _ f _ | .labeled _ _ f _ => f.depth + 1
  | .mapped _ _ _ fs f => max (depths fs) f.depth + 1
  | .choice _ (some f) _ => f.depth + 1
  | _ => 1

/-- The greatest depth of several facts. -/
def depths : List Fact → Nat
  | [] => 0
  | f :: fs => max f.depth (depths fs)

end

mutual

/-- The cells of the tree, from the root on. Facts chosen from the value are not part of it. -/
def cells : Fact → List Loc
  | .all c fs _ _ => c :: cellsAll fs
  | .either c a b _ => c :: (a.cells ++ b.cells)
  | .negation c f _ _ | .lens c _ f _ | .prism c _ f _ | .each c f _ | .labeled c _ f _ => c :: f.cells
  | .choice c (some f) _ => c :: f.cells
  | f => [f.cell]

/-- The cells of several trees. -/
def cellsAll : List Fact → List Loc
  | [] => []
  | f :: fs => f.cells ++ cellsAll fs

end

mutual

/-- The tree with every cell moved. -/
def move (m : Loc → Loc) : Fact → Fact
  | .always c => .always (m c)
  | .never c reason => .never (m c) reason
  | .equality c equal g n => .equality (m c) equal g n
  | .membership c => .membership (m c)
  | .range c inside => .range (m c) inside
  | .pair c equal g n => .pair (m c) equal g n
  | .counter c => .counter (m c)
  | .distinct c g n => .distinct (m c) g n
  | .all c fs n b => .all (m c) (moveAll m fs) n b
  | .either c a a' b => .either (m c) (a.move m) (a'.move m) b
  | .negation c f n b => .negation (m c) (f.move m) n b
  | .lens c acc f b => .lens (m c) acc (f.move m) b
  | .prism c acc f b => .prism (m c) acc (f.move m) b
  | .each c f b => .each (m c) (f.move m) b
  | .length c n g => .length (m c) n g
  | .mapped c name tests fs f => .mapped (m c) name tests fs f
  | .predicate c name test => .predicate (m c) name test
  | .brute c name test g n => .brute (m c) name test g n
  | .choice c none b => .choice (m c) none b
  | .choice c (some f) b => .choice (m c) (some (f.move m)) b
  | .labeled c name f b => .labeled (m c) name (f.move m) b
  | .foreign c kind => .foreign (m c) kind

/-- Several trees with every cell moved. -/
def moveAll (m : Loc → Loc) : List Fact → List Fact
  | [] => []
  | f :: fs => f.move m :: moveAll m fs

end

/-- The fact that applies to a value: the one at the place of the first test that holds. -/
def pick (d : Data) (otherwise : Fact) : List (Data → Bool) → List Fact → Fact
  | test :: tests, f :: fs => if test d then f else pick d otherwise tests fs
  | _, _ => otherwise

end Fact

end Conform
