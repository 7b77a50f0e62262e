import Conform.Value.Store

/-!
# Comparing stored values

`Store.equal?` compares two stored values by their contents, as `Data.equal` compares trees. A value may
contain itself, and then its tree is cut off where the comparison would go on. So the stored values are
followed themselves, and parts that are one and the same object count as equal without a look into them.
A comparison that goes down too far has no answer.

The parts of two lists or mappings are compared only if there are equally many. Tuples are compared part
by part, up to the end of the shorter one. The first difference settles the answer.
-/

namespace Conform.Store

/-- The greatest number of levels that a comparison goes down before the runtime ends it. -/
def deepest : Nat := 1000

/-- Whether two parts are one and the same, or equal. -/
def alike? (equal? : Value → Value → Option Bool) (v w : Value) : Option Bool :=
  if v.isSame w then some true else equal? v w

/-- Whether two sequences are alike part by part. -/
def allAlike? (equal? : Value → Value → Option Bool) : List Value → List Value → Option Bool
  | [], [] => some true
  | v :: vs, w :: ws => do if ← alike? equal? v w then allAlike? equal? vs ws else some false
  | _, _ => some false

/-- Whether every entry of the first list has its key among `entries`, with a value that is alike. -/
def entriesAlike? (s : Store) (equal? : Value → Value → Option Bool) (entries : List (Value × Value)) :
    List (Value × Value) → Option Bool
  | [] => some true
  | (k, v) :: es =>
    match s.lookup entries (s.view k) with
    | none => some false
    | some w => do if ← alike? equal? v w then entriesAlike? s equal? entries es else some false

/-- Equality of contents, followed down to `levels` levels. -/
def equalWithin? (s : Store) : (levels : Nat) → Value → Value → Option Bool
  | 0, _, _ => none
  | levels + 1, v, w =>
    let below := s.equalWithin? levels
    match v, w with
    | .atom a, .atom b => some (a.equal b)
    | .set _, .set _ => some ((s.view v).equal (s.view w))
    | .tuple _ vs, .tuple _ ws => allAlike? below vs ws
    | .frozen c vs, .frozen d ws => if c = d then allAlike? below vs ws else some false
    | .ref l, .ref m =>
      match s.get? l, s.get? m with
      | some (.list vs), some (.list ws) =>
        if vs.length = ws.length then allAlike? below vs ws else some false
      | some (.mapping es), some (.mapping fs) =>
        if es.length = fs.length then s.entriesAlike? below fs es else some false
      | some (.record c vs _), some (.record d ws _) =>
        if c = d then allAlike? below vs ws else some false
      | _, _ => some false
    | _, _ => some false

/-- Equality of contents, unless it takes too many levels to find out. -/
def equal? (s : Store) (v w : Value) : Option Bool := s.equalWithin? deepest v w

/-- Whether a value is one of several, or equal to one before it takes too many levels to find out. -/
def isIn? (s : Store) (v : Value) : List Value → Option Bool
  | [] => some false
  | w :: ws => do if ← alike? s.equal? w v then some true else isIn? s v ws

end Conform.Store
