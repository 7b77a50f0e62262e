import Conform.Value.Order
import Conform.Value.Rendering
import Conform.Value.Store

/-!
# Sequences

The elements of values that have any: lists, tuples, texts (their characters), byte strings (their
integers), sets, mappings (their keys) and enumerations (their members). `Store.rebuild` puts new
elements into a value of the same class: a list keeps its identity, all others are made anew, and a
class that cannot hold exactly these elements is reported.
-/

namespace Conform.Store

/-- The characters of a text as texts. -/
def characters (s : String) : List Value := s.toList.map fun c => .text (String.ofList [c])

/-- The bytes of a byte string as integers. -/
def byteValues (bs : List UInt8) : List Value := bs.map fun b => .int b.toNat

/-- The members of an enumeration. -/
def memberValues (cls : EnumClass) : List Value :=
  (List.range cls.members.length).map fun i => .atom (.member cls i)

/-- The elements of a value in order, if it has elements. -/
def elements? (s : Store) (v : Value) : Option (List Value) :=
  match v with
  | .atom (.text t) => some (characters t)
  | .atom (.bytes bs) => some (byteValues bs)
  | .atom (.enumeration cls) => some (memberValues cls)
  | .tuple _ xs => some xs
  | .set xs => some xs
  | .ref l =>
    match s.get? l with
    | some (.list xs) => some xs
    | some (.mapping es) => some (es.map (·.1))
    | _ => none
  | _ => none

/-- The first `n` elements of a value that admits being cut: a text, byte string, tuple or list. -/
def firstElements? (s : Store) (v : Value) (n : Nat) : Option (List Value) :=
  match v with
  | .set _ | .atom (.enumeration _) => none
  | .ref l =>
    match s.get? l with
    | some (.list xs) => some (xs.take n)
    | _ => none
  | v => (s.elements? v).map (·.take n)

/-! ## Rebuilding -/

/-- The names of missing arguments as a list in words. -/
def namesText : List String → String
  | [] => ""
  | [a] => "'" ++ a ++ "'"
  | [a, b] => "'" ++ a ++ "' and '" ++ b ++ "'"
  | names =>
    joinTexts ", " (names.dropLast.map fun n => "'" ++ n ++ "'") ++ ", and '" ++
      names.getLastD "" ++ "'"

/-- What a class of tuples with `n` named places says of a wrong number of items. -/
def arityText (cls : TupleClass) (given : Nat) : String :=
  let n := cls.fields.length
  let call := cls.name ++ ".__new__() "
  if n < given then
    call ++ "takes " ++ toString (n + 1) ++ " positional arguments but " ++ toString (given + 1) ++
      " were given"
  else
    let missing := cls.fields.drop given
    call ++ "missing " ++ toString missing.length ++ " required positional argument" ++
      (if missing.length = 1 then "" else "s") ++ ": " ++ namesText missing

/-- The text that the items make up, or the first item that is not a text. -/
def joinItems (items : List Data) : Except String String :=
  let rec go (i : Nat) : List Data → Except String String
    | [] => .ok ""
    | .atom (.text t) :: rest => (go (i + 1) rest).map (t ++ ·)
    | d :: _ =>
      .error ("sequence item " ++ toString i ++ ": expected str instance, " ++ d.className ++ " found")
  go 0 items

/-- The bytes that the items make up, or the first item that is not a byte. -/
def packItems : List Data → Except String (List UInt8)
  | [] => .ok []
  | d :: rest =>
    match d.integer? with
    | none => .error ("'" ++ d.className ++ "' object cannot be interpreted as an integer")
    | some n =>
      if 0 ≤ n ∧ n < 256 then (packItems rest).map (UInt8.ofNat n.toNat :: ·)
      else .error "bytes must be in range(0, 256)"

/-- The refusal of a key that can change. -/
def unhashableText (className : String) : String := "unhashable type: '" ++ className ++ "'"

/-- The mapping that the items make up as pairs, or the first item that is not a pair. -/
def pairItems (s : Store) (items : List Value) : Except String (List (Value × Value)) :=
  let rec go (i : Nat) (es : List (Value × Value)) : List Value → Except String (List (Value × Value))
    | [] => .ok es
    | v :: rest =>
      match s.elements? v with
      | none =>
        .error ("cannot convert dictionary update sequence element #" ++ toString i ++ " to a sequence")
      | some [k, x] =>
        match (s.view k).unhashable? with
        | some name => .error (unhashableText name)
        | none => go (i + 1) (s.insertEntry k x es) rest
      | some xs =>
        .error ("dictionary update sequence element #" ++ toString i ++ " has length " ++
          toString xs.length ++ "; 2 is required")
  go 0 [] items

/-- The set of the items, or the first item that can change. Its members are kept in ascending order
where they have one. -/
def collectItems (s : Store) (items : List Value) : Except String (List Value) :=
  match Data.unhashableIn? (s.viewAll items) with
  | some name => .error (unhashableText name)
  | none =>
    let kept := s.distinctValues items
    .ok ((Data.sortedBy? s.view kept).getD kept)

/-- What the class of enumerations says of items: it makes an enumeration only of a name, classes and
members. -/
def enumerationText : String :=
  "EnumType.__new__() missing 2 required positional arguments: " ++ namesText ["bases", "classdict"]

/-- A new value of the same class with the given items, before it is compared with them. -/
def remake (s : Store) (v : Value) (items : List Value) : Except String (Value × Store) :=
  match v with
  | .atom (.text _) => (joinItems (s.viewAll items)).map fun t => (.text t, s)
  | .atom (.bytes _) => (packItems (s.viewAll items)).map fun bs => (.atom (.bytes bs), s)
  | .atom (.enumeration _) => .error enumerationText
  | .tuple (some cls) _ =>
    if items.length = cls.fields.length then .ok (.tuple (some cls) items, s)
    else .error (arityText cls items.length)
  | .tuple none _ => .ok (.tuple none items, s)
  | .set _ => (s.collectItems items).map fun xs => (.set xs, s)
  | .ref _ =>
    (s.pairItems items).map fun es =>
      let (l, s) := s.alloc (.mapping es)
      (.ref l, s)
  | v => .ok (v, s)

/-- A value of the same class holding exactly the given items. A list is changed in place; where the
class cannot hold them, the answer is the reason, if the items can be written. -/
def rebuild (s : Store) (v : Value) (items : List Value) : Except (Option String) (Value × Store) :=
  let kind := (s.view v).className
  let remade : Except (Option String) (Value × Store) :=
    match s.remake v items with
    | .error reason => .error (some ("cannot rebuild " ++ kind ++ ": " ++ reason))
    | .ok (w, t) =>
      let given := s.viewAll items
      if Data.equalAll (t.viewAll ((t.elements? w).getD [])) given then .ok (w, t)
      else .error ((Data.list given).text?.map (("cannot rebuild " ++ kind ++ " from ") ++ ·))
  match v with
  | .ref l =>
    match s.get? l with
    | some (.list _) => .ok (v, s.put l (.list items))
    | _ => remade
  | _ => remade

end Conform.Store
