import Conform.Fault
import Conform.Entropy.Source
import Conform.Value.Arithmetic
import Conform.Value.Comparison
import Conform.Value.Rendering

/-!
# The world of an action

Checking, mutating and satisfying are actions on a `World`: the store of objects, the source of
choices and the log. An action ends with an answer or a fault, and what it did to the world before a
fault stays done.

## How deep actions go

The runtime ends calls that are nested too deep, with a `bottomless` fault. Two sorts of nesting are told apart, here
and in whatever is proved of actions.

* Data is followed down to the depth that the runtime allows, beyond which there is that fault: comparisons
  (`Store.deepest`), templates (`Draw.deepest`), and the notations of documents (`Yaml.Node.deepest`) and of lines of
  input (`Json.deepest`).
* The trees of facts, and of the nodes that they are loaded from, are taken to be shallow enough. Loading, describing,
  checking, mutating, satisfying and copying a fact go down to its leaves, and so does writing out a value where a
  message quotes it.
-/

namespace Conform

/-- How important a log entry is. -/
inductive Level
  | debug
  | info
  | warning
  | error
deriving DecidableEq, Inhabited, Repr

/-- One entry of the log. -/
structure LogEntry where
  level : Level
  logger : String
  message : String
deriving DecidableEq, Inhabited, Repr

/-- What actions read and change. -/
structure World where
  store : Store
  source : Source
  log : Array LogEntry
deriving Inhabited

/-- An action with an answer of the given type. -/
abbrev Act := ExceptT Fault (StateM World)

namespace Act

/-- A change of the store with an answer. -/
def onStore {α : Type} (f : Store → α × Store) : Act α := do
  let w ← get
  let (a, s) := f w.store
  set { w with store := s }
  return a

/-- What the store says. -/
def ask {α : Type} (f : Store → α) : Act α := do
  return f (← get).store

/-- A value as a tree. -/
def view (v : Value) : Act Data := ask (·.view v)

/-- Several values as trees. -/
def viewAll (vs : List Value) : Act (List Data) := ask (·.viewAll vs)

/-- A new object. -/
def alloc (o : Object) : Act Loc := onStore (·.alloc o)

/-- Replaces the object at a place. -/
def put (l : Loc) (o : Object) : Act Unit := onStore fun s => ((), s.put l o)

/-- A value with the contents of a tree, made of new objects. -/
def build (d : Data) : Act Value := onStore (Store.build d)

/-- Ends with the fault of an operation that its operand does not admit. -/
def misuse {α : Type} (m : Misuse) : Act α := throw (.misuse m)

/-- Ends as a computation ends that does not change the world. -/
def ofExcept {α : Type} : Except Fault α → Act α
  | .ok a => pure a
  | .error f => throw f

/-- The answer of a comparison, in which a missing one means a value without a bottom. -/
def decided : Option Bool → Act Bool
  | some b => pure b
  | none => misuse .bottomless

/-- Whether two values are equal. -/
def equal (v w : Value) : Act Bool := do decided (← ask (·.equal? v w))

/-- Whether a value is one of several. -/
def isIn (v : Value) (ws : List Value) : Act Bool := do decided (← ask (·.isIn? v ws))

/-- The text that something has, in which a missing one means an integer with too many digits. -/
def written : Option String → Act String
  | some t => pure t
  | none => misuse .invalid

/-- A value as messages show it. -/
def render (v : Value) : Act String := do written (← view v).text?

/-- A value spliced into a sentence. -/
def display (v : Value) : Act String := do written (← view v).spliced?

/-- A number as a value; each NaN that is computed is a new one. -/
def number : Numeral → Act Value
  | .int n => return .int n
  | .float x => return .atom (.float x)
  | .nan => onStore (·.freshNaN)

/-- The answer of arithmetic, in which a missing one means an operand out of range. -/
def inRange {α : Type} : Option α → Act α
  | some a => pure a
  | none => misuse .overflow

/-- Adds an entry to the log. -/
def log (level : Level) (logger message : String) : Act Unit :=
  modify fun w => { w with log := w.log.push ⟨level, logger, message⟩ }

/-- Runs an action and changes the fault it may end with. -/
def mapFault {α : Type} (f : Fault → Fault) (a : Act α) : Act α :=
  tryCatch a fun e => throw (f e)

/-- Runs an action and answers a fault it may end with. -/
def attempt {α : Type} (a : Act α) : Act (Except Fault α) :=
  tryCatch (do return .ok (← a)) fun e => return .error e

end Act

end Conform
