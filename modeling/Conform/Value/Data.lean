import Conform.Decimal.Binary64

/-!
# Plain data

`Data` is a value as a finite tree, without the identity of the objects in it: what printing,
comparing and testing a value depend on. `Store.view` reads the tree of a stored value.

A floating-point NaN is equal to nothing, and yet a list holds the very NaN that was put into it.
So a NaN carries a mark that tells it from other NaNs. The value that stands for a missing part equals
nothing but itself, and a copy of it is another one; it carries a mark too.
-/

namespace Conform

/-- What stands behind a member of an enumeration or an attribute of a class. -/
inductive Payload
  | null
  | text (s : String)
  | int (n : Int)
deriving DecidableEq, Inhabited, Repr

/-- An enumeration: its members in order, and whether they count as the integers behind them. -/
structure EnumClass where
  name : String
  integral : Bool
  members : List (String × Payload)
deriving DecidableEq, Inhabited, Repr

/-- An object that is not looked into, such as a class or a method: the name of its class, its own name, the text that
shows it, its own attributes, and whether it takes new ones. -/
structure SealedObject where
  className : String
  name : String
  shown : String
  attributes : List (String × Payload)
  isOpen : Bool
deriving DecidableEq, Inhabited, Repr

/-- A class of tuples whose places have names. -/
structure TupleClass where
  name : String
  fields : List String
deriving DecidableEq, Inhabited, Repr

/-- A value without parts. -/
inductive Atom
  | null
  | bool (b : Bool)
  | int (n : Int)
  | float (x : Binary64)
  | nan (mark : Nat)
  | text (s : String)
  | bytes (bs : List UInt8)
  | member (cls : EnumClass) (index : Nat)
  | sealed (o : SealedObject)
  | enumeration (cls : EnumClass)
  | absent (mark : Nat)
deriving DecidableEq, Inhabited, Repr

/-- A declared field of a record: its default, and whether the constructor takes it. -/
structure Field where
  name : String
  initial : Atom
  settable : Bool
deriving DecidableEq, Inhabited, Repr

/-- How the instances of a record class are kept: as immutable data, as objects changed in place, or
as objects of a class that does not declare its fields for generation. Only objects that are changed
in place cannot be keys. -/
inductive Keeping
  | frozen
  | mutable
  | plain
deriving DecidableEq, Inhabited, Repr

/-- A class of records. -/
structure RecordClass where
  name : String
  keeping : Keeping
  fields : List Field
deriving DecidableEq, Inhabited, Repr

/-- A value as a finite tree. Records list the values of their declared fields; `elided` stands where
a container is met inside itself, with the name of its class. -/
inductive Data
  | atom (a : Atom)
  | tuple (cls : Option TupleClass) (items : List Data)
  | set (items : List Data)
  | list (items : List Data)
  | mapping (entries : List (Data × Data))
  | record (cls : RecordClass) (fields : List Data)
  | elided (className : String)
deriving Inhabited, Repr

/-! ## Numbers -/

/-- An atom as a number: booleans and the members of integral enumerations are integers. -/
inductive Numeral
  | int (n : Int)
  | float (x : Binary64)
  | nan
deriving DecidableEq, Repr

namespace Numeral

/-- The exact value, which a NaN does not have. -/
def rational? : Numeral → Option Exact
  | .int n => some (.ofInt n)
  | .float x => some x.exact
  | .nan => none

/-- Numeric equality, exact across integers and floating-point numbers. -/
def equal (x y : Numeral) : Bool :=
  match x.rational?, y.rational? with
  | some a, some b => a.equal b
  | _, _ => false

/-- Numeric order, exact across integers and floating-point numbers; a NaN is not below or above. -/
def less (x y : Numeral) : Bool :=
  match x.rational?, y.rational? with
  | some a, some b => a.less b
  | _, _ => false

end Numeral

namespace EnumClass

/-- The name and the payload of a member. -/
def member? (cls : EnumClass) (index : Nat) : Option (String × Payload) := cls.members[index]?

end EnumClass

namespace Atom

/-- The atom as an integer, if it counts as one. -/
def integer? : Atom → Option Int
  | .bool b => some (if b then 1 else 0)
  | .int n => some n
  | .member cls i =>
    match cls.integral, cls.member? i with
    | true, some (_, .int n) => some n
    | _, _ => none
  | _ => none

/-- The atom as a number, if it counts as one. -/
def numeral? (a : Atom) : Option Numeral :=
  match a with
  | .float x => some (.float x)
  | .nan _ => some .nan
  | _ => a.integer?.map .int

/-- Whether the atom is a floating-point number. -/
def isFloat : Atom → Bool
  | .float _ | .nan _ => true
  | _ => false

/-- The name of the atom's class. -/
def className : Atom → String
  | .null => "NoneType"
  | .bool _ => "bool"
  | .int _ => "int"
  | .float _ | .nan _ => "float"
  | .text _ => "str"
  | .bytes _ => "bytes"
  | .member cls _ => cls.name
  | .sealed o => o.className
  | .enumeration _ => "EnumType"
  | .absent _ => "_Absent"

/-- Whether the atom counts as true where a truth value is asked for. -/
def truthy : Atom → Bool
  | .null => false
  | .text s => s != ""
  | .bytes bs => !bs.isEmpty
  | .float x => x.significand != 0
  | a => a.integer? != some 0

end Atom

namespace Data

/-- The name of a value's class. -/
def className : Data → String
  | .atom a => a.className
  | .tuple none _ => "tuple"
  | .tuple (some cls) _ => cls.name
  | .set _ => "set"
  | .list _ => "list"
  | .mapping _ => "dict"
  | .record cls _ => cls.name
  | .elided name => name

/-- Whether the value counts as true where a truth value is asked for. -/
def truthy : Data → Bool
  | .atom a => a.truthy
  | .tuple _ xs | .set xs | .list xs => !xs.isEmpty
  | .mapping es => !es.isEmpty
  | .record _ _ | .elided _ => true

/-- The number that a value is, if it is one. -/
def numeral? : Data → Option Numeral
  | .atom a => a.numeral?
  | _ => none

/-- The integer that a value counts as, if it does. -/
def integer? : Data → Option Int
  | .atom a => a.integer?
  | _ => none

/-- Whether the value is a floating-point number. -/
def isFloat : Data → Bool
  | .atom a => a.isFloat
  | _ => false

/-- Whether the value is an instance of the class of that name. Booleans and members of integral
enumerations are integers, and tuples with named places are tuples. -/
def isInstance (name : String) (d : Data) : Bool :=
  d.className == name ||
    (match d with
     | .atom a => name == "int" && a.integer?.isSome
     | .tuple _ _ => name == "tuple"
     | _ => false)

mutual

/-- The class of the first part, the value itself included, that cannot be a key or a member of a
set, because its contents are its identity and can change. -/
def unhashable? : Data → Option String
  | .atom _ => none
  | .tuple _ xs => unhashableIn? xs
  | .record cls xs => if cls.keeping = .mutable then some cls.name else unhashableIn? xs
  | .set _ => some "set"
  | .list _ => some "list"
  | .mapping _ => some "dict"
  | .elided name => some name

/-- The class of the first such part of several values. -/
def unhashableIn? : List Data → Option String
  | [] => none
  | x :: xs =>
    match unhashable? x with
    | some name => some name
    | none => unhashableIn? xs

end

end Data

end Conform
