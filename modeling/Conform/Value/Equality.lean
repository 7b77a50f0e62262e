import Conform.Value.Data

/-!
# Equality

`Data.equal` compares contents: numbers by their exact value whatever their class, sequences of one
kind element by element, sets and mappings without regard to order, records field by field.
A NaN equals nothing. `Data.alike` also holds of a NaN and itself; it decides whether a container
holds an element, and it is what containers compare their elements by.
-/

namespace Conform

namespace Atom

/-- Equality of atoms: numeric between numbers, identity of contents otherwise. -/
def equal (a b : Atom) : Bool :=
  match a.numeral?, b.numeral? with
  | some m, some n => m.equal n
  | none, none => a == b
  | _, _ => false

end Atom

namespace Data

/-- Whether two values are one and the same NaN. -/
def sameNaN : Data → Data → Bool
  | .atom (.nan m), .atom (.nan n) => m == n
  | _, _ => false

mutual

/-- Equality of contents. -/
def equal : Data → Data → Bool
  | .atom a, .atom b => a.equal b
  | .tuple _ xs, .tuple _ ys => equalAll xs ys
  | .list xs, .list ys => equalAll xs ys
  | .set xs, .set ys => xs.length == ys.length && allWithin xs ys
  | .mapping xs, .mapping ys => xs.length == ys.length && entriesWithin xs ys
  | .record c xs, .record d ys => c == d && equalAll xs ys
  | .elided c, .elided d => c == d
  | _, _ => false

/-- Equality of two sequences of elements. -/
def equalAll : List Data → List Data → Bool
  | [], [] => true
  | x :: xs, y :: ys => (sameNaN x y || equal x y) && equalAll xs ys
  | _, _ => false

/-- Whether every element of the first list occurs in the second. -/
def allWithin : List Data → List Data → Bool
  | [], _ => true
  | x :: xs, ys => ys.any (fun y => sameNaN x y || equal x y) && allWithin xs ys

/-- Whether every entry of the first list has a counterpart in the second. -/
def entriesWithin : List (Data × Data) → List (Data × Data) → Bool
  | [], _ => true
  | (k, v) :: rest, es =>
    es.any (fun e => (sameNaN k e.1 || equal k e.1) && (sameNaN v e.2 || equal v e.2)) &&
      entriesWithin rest es

end

/-- Equality, or being the very same NaN. -/
def alike (x y : Data) : Bool := sameNaN x y || equal x y

/-- Whether a sequence holds the value. -/
def isIn (x : Data) (xs : List Data) : Bool := xs.any fun y => y.alike x

/-- Whether the value differs from itself, as a NaN does. -/
def isNaN (x : Data) : Bool := !x.equal x

/-- The value under a key. -/
def find? (entries : List (Data × Data)) (key : Data) : Option Data :=
  (entries.find? fun e => e.1.alike key).map (·.2)

end Data

end Conform
