import Conform.World
import Conform.Value.Inherited
import Conform.Value.Rendering
import Conform.Value.Sequence

/-!
# Accessors

An accessor focuses on one part of a value: `Accessor.get` reads the part, and `Accessor.set` stores
a part and answers the value to go on with. Lists, mappings, mutable records, classes and members of
enumerations are updated in place and answered themselves; tuples and frozen records are answered anew.
-/

namespace Conform

/-- The ways to focus on a part. An `item` has the text that shows its key, and the key itself, which a
mapping without it is given. A `custom` one brings its own reading and writing. -/
inductive Accessor
  | attr (name : String)
  | item (shown : String) (key : Value)
  | optionalAttr (name : String)
  | variant (className : String)
  | custom (name : String) (get : Store → Value → Except Fault Value)
      (set : Store → Value → Value → Except Fault (Value × Store))

namespace Accessor

/-- The name by which tags and messages call the part. -/
def name : Accessor → String
  | .attr n => n
  | .item shown _ => shown
  | .optionalAttr n => n
  | .variant cls => cls
  | .custom n _ _ => n

/-- The item of a key. A text shows as it is. -/
def ofKey (key : Value) : Act Accessor := do
  match key with
  | .atom (.text n) => return .item n key
  | _ => return .item (← Act.render key) key

/-! ## Fields -/

/-- The value of a declared field. -/
def field? (names : List String) (values : List Value) (name : String) : Option Value :=
  match names.idxOf? name with
  | some i => values[i]?
  | none => none

/-- The value of a declared field, or what the class passes on under a name that is none. -/
def fieldOrInherited? (names : List String) (values : List Value) (className name : String) : Option Value :=
  match names.idxOf? name with
  | some i => values[i]?
  | none => inherited? className "" name

/-- The attribute of a record with identity: a declared field or one added later. -/
def attribute? (cls : RecordClass) (fields : List Value) (extras : List (String × Value))
    (name : String) : Option Value :=
  match field? (cls.fields.map (·.name)) fields name with
  | some v => some v
  | none => (extras.find? fun e => e.1 == name).map (·.2)

/-- The attribute of an object: its own, or one that it has from its class. The attributes of mappings are their
entries. -/
def objectAttribute? (o : Object) (name : String) : Option Value :=
  match o with
  | .list _ => inherited? "list" "" name
  | .record cls fields extras => (attribute? cls fields extras name).or (inherited? cls.name "" name)
  | .mapping _ | .slots _ => none

/-- What stands behind a member or an attribute, as a value. -/
def payloadValue : Payload → Value
  | .null => .null
  | .text s => .text s
  | .int n => .int n

/-- The parts of an integer. -/
def integerAttributes (n : Int) : List (String × Value) :=
  [("real", .int n), ("imag", .int 0), ("numerator", .int n), ("denominator", .int 1)]

/-- The parts of a number. -/
def numberAttributes (a : Atom) : List (String × Value) :=
  if a.isFloat then [("real", .atom a), ("imag", .atom (.float (Binary64.ofInt 0)))]
  else (a.integer?.map integerAttributes).getD []

/-- The name of a member of an enumeration and what stands behind it. -/
def memberAttributes (cls : EnumClass) (index : Nat) : List (String × Value) :=
  match cls.member? index with
  | some (name, payload) => [("name", .text name), ("value", payloadValue payload)]
  | none => []

/-- The member of an enumeration with a name. -/
def member? (cls : EnumClass) (name : String) : Option Value :=
  (cls.members.findIdx? (·.1 == name)).map fun i => .atom (.member cls i)

/-- The attributes that an atom has from its class. They cannot be set. -/
def fixedAttribute? (a : Atom) (name : String) : Option Value :=
  match a with
  | .member cls i => (memberAttributes cls i ++ numberAttributes a).lookup name
  | .enumeration cls => member? cls name
  | _ => (numberAttributes a).lookup name

/-- The attribute that an atom has when none of that name has been given to it: its own, or one from its class. Of
enumerations and their members, those from the class are left out. -/
def ownAttribute? (a : Atom) (name : String) : Option Value :=
  match a with
  | .sealed o =>
    (((o.attributes.lookup name).map payloadValue).or (if o.className = "type" then unbound? o.name name else none)).or
      (inherited? o.className o.shown name)
  | .enumeration _ | .member _ _ => none
  | _ => inherited? a.className a.render name

/-- The attribute of an atom. A class may have been given another value for one of its own. -/
def atomAttribute? (s : Store) (a : Atom) (name : String) : Option Value :=
  ((fixedAttribute? a name).or (s.given? a name)).or (ownAttribute? a name)

/-- What has been found, or else the misuse of looking for it. -/
def found (o : Option Value) (cause : Misuse) : Except Fault Value :=
  match o with
  | some x => .ok x
  | none => .error (.misuse cause)

/-- What an attribute or, of a mapping, an entry is found to be. -/
def getAttribute (s : Store) (v : Value) (name : String) : Except Fault Value :=
  match v with
  | .ref l =>
    match s.get? l with
    | some (.mapping es) => found (s.lookup es (.atom (.text name))) .noKey
    | some o => found (objectAttribute? o name) .noAttribute
    | none => .error (.misuse .noAttribute)
  | .frozen cls fields =>
    found (fieldOrInherited? (cls.fields.map (·.name)) fields cls.name name) .noAttribute
  | .tuple (some cls) xs => found (fieldOrInherited? cls.fields xs "tuple" name) .noAttribute
  | .tuple none _ => found (inherited? "tuple" "" name) .noAttribute
  | .set _ => found (inherited? "set" "" name) .noAttribute
  | .atom a => found (atomAttribute? s a name) .noAttribute

/-- The list of extra attributes with one of them set. -/
def setExtra (name : String) (part : Value) : List (String × Value) → List (String × Value)
  | [] => [(name, part)]
  | (n, v) :: es => if n == name then (n, part) :: es else (n, v) :: setExtra name part es

/-- The fields of a frozen record with one of them replaced; fields that the constructor does not
take go back to their default. -/
def replaceField (name : String) (part : Value) : List Field → List Value → List Value
  | f :: fs, v :: vs =>
    (if f.name == name then part else if f.settable then v else .atom f.initial) ::
      replaceField name part fs vs
  | _, _ => []

/-- Stores an entry in a mapping. -/
def setEntry (s : Store) (l : Loc) (es : List (Value × Value)) (key part : Value) : Value × Store :=
  (.ref l, s.put l (.mapping (s.insertEntry key part es)))

/-- Gives an attribute to a class that takes new ones, or to a member of an enumeration. -/
def setAtomAttribute (s : Store) (a : Atom) (name : String) (part : Value) : Except Fault (Value × Store) :=
  match a with
  | .sealed o =>
    if o.isOpen then .ok (.atom a, s.give a name part)
    else .error (.misuse (if o.className = "type" then .unsupported else .noAttribute))
  | .enumeration _ | .member _ _ =>
    if (fixedAttribute? a name).isSome then .error (.misuse .noAttribute)
    else .ok (.atom a, s.give a name part)
  | _ => .error (.misuse .noAttribute)

/-- Stores an attribute or, in a mapping, an entry. -/
def setAttribute (s : Store) (v : Value) (name : String) (part : Value) : Except Fault (Value × Store) :=
  match v with
  | .ref l =>
    match s.get? l with
    | some (.mapping es) => .ok (setEntry s l es (.text name) part)
    | some (.record cls fields extras) =>
      match (cls.fields.map (·.name)).idxOf? name with
      | some i => .ok (v, s.put l (.record cls (fields.set i part) extras))
      | none => .ok (v, s.put l (.record cls fields (setExtra name part extras)))
    | _ => .error (.misuse .noAttribute)
  | .frozen cls fields =>
    match cls.fields.find? (fun f => f.name == name) with
    | some f =>
      if f.settable then .ok (.frozen cls (replaceField name part cls.fields fields), s)
      else .error (.misuse .invalid)
    | none => .error (.misuse .unsupported)
  | .tuple (some cls) xs =>
    match cls.fields.idxOf? name with
    | some i => .ok (.tuple (some cls) (xs.set i part), s)
    | none => .error (.misuse .invalid)
  | .atom a => setAtomAttribute s a name part
  | .set _ | .tuple none _ => .error (.misuse .noAttribute)

/-! ## Items -/

/-- The place that an index means in a sequence of `n` items; negative ones count from the end. -/
def place? (n : Nat) (index : Int) : Option Nat :=
  let i := if index < 0 then index + n else index
  if 0 ≤ i ∧ i < n then some i.toNat else none

/-- The index that a key is, if it counts as an integer. -/
def index? : Value → Option Int
  | .atom a => a.integer?
  | _ => none

/-- The item of a sequence that a key means. -/
def pick (xs : List Value) (key : Value) : Except Fault Value :=
  match index? key with
  | none => .error (.misuse .unsupported)
  | some i =>
    match place? xs.length i with
    | some j => .ok ((xs[j]?).getD .null)
    | none => .error (.misuse .noIndex)

/-- The sequence with the item replaced that a key means. -/
def replace (xs : List Value) (key part : Value) : Except Fault (List Value) :=
  match index? key with
  | none => .error (.misuse .unsupported)
  | some i =>
    match place? xs.length i with
    | some j => .ok (xs.set j part)
    | none => .error (.misuse .noIndex)

/-- What a key is found to stand for, where a missing one is a fault, as is one that can change. -/
def foundUnder (s : Store) (key : Value) (o : Option Value) : Except Fault Value :=
  if (s.view key).unhashable?.isSome then .error (.misuse .unsupported)
  else
    match o with
    | some x => .ok x
    | none => .error (.misuse .noKey)

/-- What an entry of a mapping, an item of a sequence or a member of an enumeration is found to be. -/
def getItem (s : Store) (v key : Value) : Except Fault Value :=
  match v with
  | .atom (.text t) => pick (Store.characters t) key
  | .atom (.bytes bs) => pick (Store.byteValues bs) key
  | .atom (.enumeration cls) =>
    foundUnder s key (match key with
      | .atom (.text name) => member? cls name
      | _ => none)
  | .tuple _ xs => pick xs key
  | .ref l =>
    match s.get? l with
    | some (.list xs) => pick xs key
    | some (.mapping es) => foundUnder s key (s.lookup es (s.view key))
    | _ => .error (.misuse .unsupported)
  | _ => .error (.misuse .unsupported)

/-- Stores an entry in a mapping or an item in a list or a tuple. -/
def setItem (s : Store) (v key part : Value) : Except Fault (Value × Store) :=
  match v with
  | .tuple cls xs => (replace xs key part).map fun ys => (.tuple cls ys, s)
  | .ref l =>
    match s.get? l with
    | some (.list xs) => (replace xs key part).map fun ys => (v, s.put l (.list ys))
    | some (.mapping es) =>
      if (s.view key).unhashable?.isSome then .error (.misuse .unsupported)
      else .ok (setEntry s l es key part)
    | _ => .error (.misuse .unsupported)
  | _ => .error (.misuse .unsupported)

/-! ## Reading and writing -/

/-- What an optional attribute is found to be: one that is missing or empty counts as absent. -/
def getOptional (s : Store) (v : Value) (name : String) : Except Fault Value :=
  match getAttribute s v name with
  | .ok x => .ok (if x.isNull then .absent else x)
  | .error _ => .ok .absent

/-- The part of a value. -/
def get (a : Accessor) (s : Store) (v : Value) : Except Fault Value :=
  match a with
  | .attr n => getAttribute s v n
  | .item _ key => getItem s v key
  | .optionalAttr n => getOptional s v n
  | .variant cls => .ok (if (s.view v).isInstance cls then v else .absent)
  | .custom _ get _ => get s v

/-- The value with a part stored in it, and the store after that. -/
def set (a : Accessor) (s : Store) (v part : Value) : Except Fault (Value × Store) :=
  match a with
  | .attr n => setAttribute s v n part
  | .item _ key => setItem s v key part
  | .optionalAttr n => setAttribute s v n part
  | .variant _ => .ok (part, s)
  | .custom _ _ set => set s v part

/-- Whether a fault in reading means that the part is missing. -/
def isMissing : Fault → Bool
  | .misuse .noKey | .misuse .noIndex | .misuse .noAttribute => true
  | _ => false

/-- Reads the part as an action. -/
def read (a : Accessor) (v : Value) : Act Value := do
  Act.ofExcept (a.get (← getThe World).store v)

/-- Stores the part as an action. -/
def write (a : Accessor) (v part : Value) : Act Value := do
  let w ← getThe World
  match a.set w.store v part with
  | .ok (v, s) =>
    MonadState.set { w with store := s }
    return v
  | .error f => throw f

end Accessor

end Conform
