import Conform.Fact.Basic

/-!
# Descriptions

The text by which messages name a fact: its label if it has one, else its structure, which shows the
reference values and the descriptions of the parts. There is none if an integer that it would show has
too many digits.
-/

namespace Conform.Fact

/-- The two ends of a range; an open end is left out. -/
def spanText (s : Store) (c : Loc) : Option String := do
  let side (v : Value) : Option String := if v.isNull then some "" else (s.view v).text?
  return (← side (s.slot c 0)) ++ ".." ++ (← side (s.slot c 1))

/-- A list of values as messages show it. -/
def optionsText (s : Store) (c : Loc) : Option String := (Data.list (s.viewAll (s.slots c))).text?

/-- A name with its argument in parentheses. -/
def call (name argument : String) : String := name ++ "(" ++ argument ++ ")"

/-- A name with its argument in parentheses, if the argument can be written. -/
def call? (name : String) (argument : Option String) : Option String := argument.map (call name)

/-- The tag of a lens. -/
def lensTag (a : Accessor) : String := call "lens" a.name

/-- The tag of a prism. -/
def prismTag (a : Accessor) : String := call "prism" a.name

/-- The tag of a fact chosen from the value. -/
def mappedTag (name : String) : String := call "mapped" name

/-- The tag of an element. -/
def elementTag (i : Nat) : String := "[" ++ toString i ++ "]"

mutual

/-- The text of a fact: its label, if labels count at the root and it has one, else what it is made
of. Below the root labels always count. -/
def text (s : Store) (labels : Bool) : Fact → Option String
  | .always _ => some "always"
  | .never _ reason => some (call "never" reason)
  | .equality c equal _ _ => call? (if equal then "eq" else "ne") (s.view (s.slot c 0)).text?
  | .membership c => call? "in_set" (optionsText s c)
  | .range c inside => call? (if inside then "in_range" else "outside") (spanText s c)
  | .pair _ equal _ _ => some (if equal then "same" else "different")
  | .counter c => call? "consecutive_int" (s.view (s.slot c 0)).spliced?
  | .distinct _ _ _ => some "distinct"
  | .all _ fs _ _ => call? "and" ((textAll s fs).map (joinTexts ", "))
  | .either _ a b _ => do return call "or" ((← a.text s true) ++ ", " ++ (← b.text s true))
  | .negation _ f _ _ => call? "not" (f.text s true)
  | .lens _ acc f _ => (f.text s true).map fun t => lensTag acc ++ pathSeparator ++ t
  | .prism _ acc f _ => (f.text s true).map fun t => prismTag acc ++ pathSeparator ++ t
  | .each _ f _ => call? "seq" (f.text s true)
  | .length _ n _ => call? "vec_len" (Data.atom (.int n)).text?
  | .mapped _ name _ _ _ => some (mappedTag name)
  | .predicate _ name _ => some (call "predicate" name)
  | .brute _ name _ _ _ => some (call "brute" name)
  | .choice c none _ => some (call "choice_of" (toString (s.slots c).length))
  | .choice c (some f) _ =>
    (f.text s true).map fun t => call "choice_of" (toString (s.slots c).length ++ ", " ++ t)
  | .labeled _ name f _ => if labels then some name else f.text s false
  | .foreign _ kind => some (kind.described.getD kind.className)

/-- The texts of several facts. -/
def textAll (s : Store) : List Fact → Option (List String)
  | [] => some []
  | f :: fs => do return (← f.text s true) :: (← textAll s fs)

end

/-- The label of a fact, or else its structure. -/
def describe (s : Store) (f : Fact) : Option String := f.text s true

/-- What a fact is made of, whatever its label. -/
def structureText (s : Store) (f : Fact) : Option String := f.text s false

/-- The name of the class of a fact. -/
def className : Fact → String
  | .always _ => "AlwaysFact"
  | .never _ _ => "NeverFact"
  | .equality _ _ _ _ => "EqFact"
  | .membership _ => "InSetFact"
  | .range _ inside => if inside then "InRangeFact" else "OutsideRangeFact"
  | .pair _ _ _ _ => "SameFact"
  | .counter _ => "ConsecutiveIntFact"
  | .distinct _ _ _ => "DistinctFact"
  | .all _ _ _ _ => "AndFact"
  | .either _ _ _ _ => "OrFact"
  | .negation _ _ _ _ => "NotFact"
  | .lens _ _ _ _ => "LensFact"
  | .prism _ _ _ _ => "PrismFact"
  | .each _ _ _ => "SeqFact"
  | .length _ _ _ => "VecLenFact"
  | .mapped _ _ _ _ _ => "MappedFact"
  | .predicate _ _ _ => "PredicateFact"
  | .brute _ _ _ _ _ => "BruteFact"
  | .choice _ _ _ => "ChoiceFact"
  | .labeled _ _ _ _ => "LabeledFact"
  | .foreign _ kind => kind.className

/-- Whether a fact is shown for inspection with its class and its description. -/
def isShown : Fact → Bool
  | .foreign _ kind => kind.shown
  | _ => true

/-- The class and the description of a fact, as it is shown for inspection. -/
def shown (s : Store) (f : Fact) : Option String :=
  (f.describe s).map fun t => "<" ++ f.className ++ " " ++ t ++ ">"

/-- The description of a fact as things stand. -/
def described (f : Fact) : Act String := do Act.written (← Act.ask (describe · f))

end Conform.Fact
