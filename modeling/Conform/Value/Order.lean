import Conform.Text.Surrogate
import Conform.Value.Equality

/-!
# Order

Numbers are ordered by their exact value, texts by code points, byte strings by bytes, lists and
tuples lexicographically, sets by strict inclusion. Between any other two values there is no order:
the answer is `none`.
-/

namespace Conform.Data

/-- Lexicographic order of two lists of naturals. -/
def lexLess : List Nat → List Nat → Bool
  | [], [] => false
  | [], _ :: _ => true
  | _ :: _, [] => false
  | x :: xs, y :: ys => x < y || (x == y && lexLess xs ys)

/-- The order of texts by the codes of their characters. -/
def textLess (s t : String) : Bool := lexLess (s.toList.map Text.codeOf) (t.toList.map Text.codeOf)

/-- The order of atoms. -/
def atomLess? (a b : Atom) : Option Bool :=
  match a, b with
  | .text s, .text t => some (textLess s t)
  | .bytes s, .bytes t => some (lexLess (s.map UInt8.toNat) (t.map UInt8.toNat))
  | a, b =>
    match a.numeral?, b.numeral? with
    | some m, some n => some (m.less n)
    | _, _ => none

mutual

/-- Whether the first value is below the second, if the two are comparable. -/
def less? : Data → Data → Option Bool
  | .atom a, .atom b => atomLess? a b
  | .list xs, .list ys => lessAll? xs ys
  | .tuple _ xs, .tuple _ ys => lessAll? xs ys
  | .set xs, .set ys => some (decide (xs.length < ys.length) && allWithin xs ys)
  | _, _ => none

/-- The order of two sequences: that of their first differing elements, else of their lengths. -/
def lessAll? : List Data → List Data → Option Bool
  | [], [] => some false
  | [], _ :: _ => some true
  | _ :: _, [] => some false
  | x :: xs, y :: ys => if alike x y then lessAll? xs ys else less? x y

end

/-- Whether every two of the values are comparable. -/
def comparable (xs : List Data) : Bool :=
  xs.all fun x => xs.all fun y => (less? x y).isSome

/-- Things in ascending order of their values, if all of these are comparable. Things of equal values
keep their order. -/
def sortedBy? {α : Type} (value : α → Data) (xs : List α) : Option (List α) :=
  if xs.length < 2 || comparable (xs.map value) then
    some (xs.mergeSort fun x y => !(less? (value y) (value x)).getD false)
  else none

/-- The values in ascending order, if all are comparable. -/
def sorted? (xs : List Data) : Option (List Data) := sortedBy? id xs

/-- Texts in ascending order. -/
def sortTexts (ts : List String) : List String := ts.mergeSort fun s t => !textLess t s

end Conform.Data
