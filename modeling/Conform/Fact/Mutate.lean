import Conform.Decimal.Reading
import Conform.Fact.Complement
import Conform.Fact.Search

/-!
# Mutating

`Fact.mutate` answers a value that satisfies the fact, or gives up. A value that satisfies the fact
already is answered as it is. Lists, mappings and mutable records are changed in place; the answer
is always the value to go on with.

A conjunction runs its members in order, on the result of one another, and repeats the round until a
check of all members passes. Each round works on a copy of the stateful members, and only the copy of
the round that succeeds is committed.

The recursion goes down the tree, or from a negation to the complement of the negated fact, which is
no deeper than that fact; `mutateWithin` counts the levels.
-/

namespace Conform.Fact

/-! ## Leaves -/

/-- A value that differs from the reference value. -/
def mutateDifferent (fact : Fact) (c : Loc) (generate : Option Generator) (attempts : Int)
    (v : Value) : Act Value := do
  let value ← Act.ask (·.slot c 0)
  let differs (w : Value) : Act Bool := do return !(← Act.equal w value)
  match ← Search.run differs (fun _ => fact.drawCandidate generate value) (budget attempts) v with
  | some w => return w
  | none =>
    fact.giveUp ("no value different from " ++ (← Act.render value) ++ drawsText attempts) none

/-- One of the options. -/
def mutateMembership (fact : Fact) (c : Loc) (v : Value) : Act Value := do
  let options ← Act.ask (·.slots c)
  if ← Act.isIn v options then return v
  if options.isEmpty then fact.giveUp "no options to choose from" none
  Draw.choose options

/-- The difference of two values that are numbers. -/
def difference (a b : Value) : Act Value := do
  match (← Act.view a).numeral?, (← Act.view b).numeral? with
  | some m, some n => Act.number (← Act.inRange (m.sub? n))
  | _, _ => Act.misuse .unsupported

/-- The number that a text says. -/
def readFloating (t : String) : Act Value :=
  match Decimal.read? t with
  | some x => Act.number (.ofBinary x)
  | none => Act.misuse .invalid

/-- The value as a floating-point number: numbers are converted, texts and ASCII byte strings are
read. -/
def toFloating (v : Value) : Act Value := do
  match ← Act.view v with
  | .atom (.text t) => readFloating t
  | .atom (.bytes bs) =>
    if bs.all (· < 128) then readFloating (String.ofList (bs.map fun b => Char.ofNat b.toNat))
    else Act.misuse .invalid
  | .atom (.nan _) => return v
  | d =>
    match d.numeral? with
    | some n => return .atom (.float (← Act.inRange n.toBinary?))
    | none => Act.misuse .unsupported

/-- An open end of a range moved to a finite distance from the other end, or, if both are open, from
zero. -/
def fillEnds (low high : Value) (floating : Bool) : Act (Value × Value) := do
  let bound (x : Binary64) (n : Int) : Value := if floating then .atom (.float x) else .int n
  let least := bound (Binary64.ofInt (-1000000)) Draw.leastInt
  let greatest := bound (Binary64.ofInt 1000000) Draw.greatestInt
  let span := bound (Binary64.ofInt 2000000) (Draw.greatestInt - Draw.leastInt)
  if low.isNull && high.isNull then return (least, greatest)
  else if low.isNull then return (← difference high span, high)
  else if high.isNull then return (low, ← sum low span)
  else return (low, high)

/-- A number of a range with finite ends. -/
def drawBetween (ends : Value × Value) (floating : Bool) : Act Value := do
  if floating then
    let low ← toFloating ends.1
    let high ← toFloating ends.2
    Draw.floatInRange low high
  else Draw.intInRange ends.1 ends.2

/-- Whether one of several values is a floating-point number. -/
def anyFloat (vs : List Value) : Act Bool := do
  return (← Act.viewAll vs).any Data.isFloat

/-- A number inside the range. -/
def mutateInside (fact : Fact) (c : Loc) (v : Value) : Act Value := do
  let low ← Act.ask (·.slot c 0)
  let high ← Act.ask (·.slot c 1)
  if !low.isNull && !high.isNull then
    match (← Act.view high).less? (← Act.view low) with
    | none => Act.misuse .unsupported
    | some true => fact.giveUp ("empty range " ++ (← Act.written (← Act.ask (spanText · c)))) none
    | some false => pure ()
  if (← checkRange c true v).ok then return v
  let floating ← anyFloat [low, high, v]
  drawBetween (← fillEnds low high floating) floating

/-- The neighbour of an end outside the range: the next integer or floating-point number. -/
def stepOut (bound : Value) (floating up : Bool) : Act Value := do
  if floating then
    match (← Act.view bound).numeral? with
    | some n =>
      let x ← Act.inRange n.toBinary?
      Act.number (.ofBinary (if up then x.nextUp else x.nextDown))
    | none => Act.misuse .unsupported
  else if up then sum bound (.int 1)
  else difference bound (.int 1)

/-- A number outside the range, on a side that the source chooses. -/
def mutateOutside (fact : Fact) (c : Loc) (v : Value) : Act Value := do
  if (← checkRange c false v).ok then return v
  let low ← Act.ask (·.slot c 0)
  let high ← Act.ask (·.slot c 1)
  let floating ← anyFloat [low, high, v]
  let below ← if low.isNull then pure [] else do pure [(Value.null, ← stepOut low floating false)]
  let above ← if high.isNull then pure [] else do pure [(← stepOut high floating true, Value.null)]
  let sides := below ++ above
  if sides.isEmpty then fact.giveUp "nothing lies outside an unbounded range" none
  let (low, high) ← Draw.choose sides
  drawBetween (← fillEnds low high floating) floating

/-- The pair with a new first item. A list is changed in place. -/
def withFirst (v a b : Value) : Act Value := do
  match v with
  | .ref l =>
    match ← Act.ask (·.get? l) with
    | some (.list (_ :: rest)) =>
      Act.put l (.list (a :: rest))
      return v
    | _ => return .tuple none [a, b]
  | .tuple cls _ => return .tuple cls [a, b]
  | _ => return .tuple none [a, b]

/-- A pair of equal items, the second copied to the first, or of different ones, the first drawn
anew. -/
def mutatePair (fact : Fact) (equal : Bool) (generate : Option Generator) (attempts : Int)
    (v : Value) : Act Value := do
  let (a, b) ← items v
  if equal then withFirst v b b
  else
    let differs (w : Value) : Act Bool := do return !(← Act.equal w b)
    match ← Search.run differs (fun _ => fact.drawCandidate generate b) (budget attempts) a with
    | some a => withFirst v a b
    | none =>
      fact.giveUp ("no value different from " ++ (← Act.render b) ++ drawsText attempts) none

/-- A value not seen before, which is remembered. -/
def mutateDistinct (fact : Fact) (c : Loc) (generate : Option Generator) (attempts : Int)
    (v : Value) : Act Value := do
  let unseen (w : Value) : Act Bool := do return !(← Act.isIn w (← seen c))
  match ← Search.run unseen (fact.drawCandidate generate) (budget attempts) v with
  | some w =>
    remember c w
    return w
  | none => fact.giveUp ("no unseen value" ++ drawsText attempts) none

/-- A value that passes the test. -/
def mutateBrute (fact : Fact) (test : Data → Bool) (generate : Option Generator) (attempts : Int)
    (v : Value) : Act Value := do
  let passes (w : Value) : Act Bool := do return test (← Act.view w)
  match ← Search.run passes (fun _ => fact.drawCandidate generate v) (budget attempts) v with
  | some w => return w
  | none => fact.giveUp ("no satisfying value" ++ drawsText attempts) none

/-- Puts new items into a sequence. A class that cannot hold them makes the fact give up. -/
def rebuild (fact : Fact) (v : Value) (xs : List Value) : Act Value := do
  match (← get).store.rebuild v xs with
  | .ok (w, s) =>
    modify fun world => { world with store := s }
    return w
  | .error reason => fact.giveUp (← Act.written reason) none

/-- A new element for a sequence: from the generator, or like the template or the first element. A
text is extended by a character of the template or of its own. -/
def drawElement (fact : Fact) (c : Loc) (generate : Option Generator) (v : Value) : Act Value := do
  match generate with
  | some g => g.draw
  | none =>
    let like ← Act.ask (·.slot c 0)
    match v with
    | .atom (.text own) =>
      let letters :=
        match like with
        | .atom (.text t) => if t = "" then own else t
        | _ => own
      if letters = "" then
        fact.giveUp "cannot extend an empty str without `like` or `generate`" none
      Draw.choose (Store.characters letters)
    | v =>
      let own ← elements v
      let template := if like.isNull then own.head?.getD .null else like
      if template.isNull then
        fact.giveUp "cannot extend an empty sequence without `like` or `generate`" none
      fact.drawLike template

/-- The sequence cut or extended to the given number of elements. -/
def mutateLength (fact : Fact) (c : Loc) (size : Int) (generate : Option Generator) (v : Value) :
    Act Value := do
  match ← Act.ask (·.firstElements? v size.toNat) with
  | none => Act.misuse .unsupported
  | some xs =>
    let missing := List.replicate (size.toNat - xs.length) ()
    let more ← missing.mapM fun _ => fact.drawElement c generate v
    fact.rebuild v (xs ++ more)

/-! ## Combinations -/

/-- Runs the members of a conjunction one after the other. -/
def runAll (run : Fact → Value → Act Value) (fs : List Fact) (v : Value) : Act Value :=
  fs.foldlM (fun v f => run f v) v

/-- Repeats rounds of mutation until the check of all members passes. A conjunction that is not stateful
works on its members themselves. -/
def fixpoint (run : Fact → Value → Act Value) (fact : Fact) (fs : List Fact) (rounds : Int) :
    (left : Nat) → (last : Report) → Value → Act Value
  | 0, last, _ =>
    fact.giveUp ("no fixed point after " ++ toString rounds ++ " round(s)") (some last)
  | left + 1, _, v => do
    let trial ← if fact.stateful then copyAll fs else pure fs
    let v ← runAll run trial v
    let probes ← if fact.stateful then copyAll fs else pure fs
    let last := Report.combine (← checkAll probes 0 v)
    if last.ok then
      if fact.stateful then commitCells (cellsAll fs) (cellsAll trial)
      return v
    Act.log .debug "factual.combinators"
      ((← fact.described) ++ ": round " ++ toString (rounds - left) ++ "/" ++ toString rounds ++
        " left " ++ toString last.size ++ " violation(s)")
    fixpoint run fact fs rounds left last v

/-- A value that satisfies one of two facts: unchanged if it does already, else mutated with the one
that the source chooses. -/
def mutateEither (run : Fact → Value → Act Value) (fact a b : Fact) (v : Value) : Act Value := do
  let satisfies (f : Fact) : Act Bool := do
    let p ← if fact.stateful then f.copy else pure f
    return (← p.check v).ok
  if ← satisfies a then return v
  if ← satisfies b then return v
  run (if ← Draw.boolean then a else b) v

/-- A value that does not satisfy the fact: unchanged if it does not already, else made by the
complement, else found by search. -/
def mutateNegation (run : Fact → Value → Act Value) (fact f : Fact) (attempts : Int) (v : Value) :
    Act Value := do
  let p ← if fact.stateful then f.copy else pure f
  if !(← p.check v).ok then return v
  match ← f.complement with
  | some g => run g v
  | none =>
    let violates (w : Value) : Act Bool := do return !(← f.check w).ok
    match ← Search.drawUntil violates (fun _ => fact.drawLike v) (budget attempts) v with
    | some w => return w
    | none => fact.giveUp ("no value violating " ++ (← f.described) ++ drawsText attempts) none

/-- The value with the part mutated that the accessor reads. A missing part makes the fact give up. -/
def mutateLens (run : Value → Act Value) (fact : Fact) (a : Accessor) (v : Value) : Act Value := do
  match ← part? a v with
  | none => fact.giveUp ("missing " ++ a.name ++ " in " ++ (← Act.render v)) none
  | some x =>
    let y ← Act.mapFault (Fault.under (lensTag a)) (run x)
    a.write v y

/-- The value with the part mutated that the accessor reads, if there is one. -/
def mutatePrism (run : Value → Act Value) (a : Accessor) (v : Value) : Act Value := do
  match ← part? a v with
  | none => return v
  | some x =>
    if x.isAbsent then return v
    let y ← Act.mapFault (Fault.under (prismTag a)) (run x)
    a.write v y

/-- The elements of a sequence mutated one after the other. -/
def mutateElements (run : Value → Act Value) : (i : Nat) → List Value → Act (List Value)
  | _, [] => return []
  | i, x :: xs => do
    let y ← Act.mapFault (Fault.under (elementTag i)) (run x)
    return y :: (← mutateElements run (i + 1) xs)

/-- A candidate that satisfies the further fact, which is then used on it once. -/
def mutateChoice (run : Fact → Value → Act Value) (fact : Fact) (c : Loc) (f : Option Fact)
    (v : Value) : Act Value := do
  let p ← fact.probe
  if (← p.check v).ok then
    match f with
    | some g => run g v
    | none => return v
  else
    let candidates ← Act.ask (·.slots c)
    match f with
    | some g => run g (← g.scan 0 candidates)
    | none =>
      match candidates with
      | x :: _ => return x
      | [] => fact.giveUp "no candidates" none

/-! ## Facts -/

/-- Mutates a value by a fact of at most `levels` levels. -/
def mutateWithin : (levels : Nat) → Fact → Value → Act Value
  | 0, _, _ => Act.misuse .bottomless
  | levels + 1, fact, v =>
    let run := mutateWithin levels
    match fact with
    | .always _ => return v
    | .never _ _ => fact.giveUp "never() cannot be satisfied" none
    | .equality c true _ _ => Act.ask (·.slot c 0)
    | .equality c false g n => mutateDifferent fact c g n v
    | .membership c => mutateMembership fact c v
    | .range c true => mutateInside fact c v
    | .range c false => mutateOutside fact c v
    | .pair _ equal g n => mutatePair fact equal g n v
    | .counter c => takeNext c
    | .distinct c g n => mutateDistinct fact c g n v
    | .all _ fs n _ => fixpoint run fact fs n n.toNat .pass v
    | .either _ a b _ => mutateEither run fact a b v
    | .negation _ f n _ => mutateNegation run fact f n v
    | .lens _ a f _ => mutateLens (run f) fact a v
    | .prism _ a f _ => mutatePrism (run f) a v
    | .each _ f _ => do fact.rebuild v (← mutateElements (run f) 0 (← elements v))
    | .length c n g => mutateLength fact c n g v
    | .mapped _ name tests fs f => do
      Act.mapFault (Fault.under (mappedTag name)) (run (pick (← Act.view v) f tests fs) v)
    | .predicate _ _ _ => fact.giveUp "check-only predicate has no mutation strategy" none
    | .brute _ _ test g n => mutateBrute fact test g n v
    | .choice c f _ => mutateChoice run fact c f v
    | .labeled _ _ f _ => run f v
    | .foreign c kind => kind.mutate c v

/-- A value that satisfies the fact. -/
def mutate (f : Fact) (v : Value) : Act Value := mutateWithin f.depth f v

end Conform.Fact
