import Conform.Value.Equality

/-!
# The store

Lists, mappings and mutable records have an identity: two holders of one object see each other's
changes. A `Value` therefore refers to such an object by its place in the `Store`, and holds all
immutable data itself. What a fact owns and may rebind lives in the store too, as `slots`, so that
copying a fact copies the objects it holds along with it.

* `Store.view` reads a value as a tree.
* `Store.build` makes new objects for a tree.
* `Store.copy` copies everything reachable from some places, keeping the sharing inside the copy and
  none with the rest.
-/

namespace Conform

/-- The place of an object in the store. -/
abbrev Loc := Nat

/-- A value: immutable data, or a reference to an object. -/
inductive Value
  | atom (a : Atom)
  | tuple (cls : Option TupleClass) (items : List Value)
  | set (items : List Value)
  | frozen (cls : RecordClass) (fields : List Value)
  | ref (loc : Loc)
deriving Inhabited

/-- An object with identity. A record holds the values of its declared fields and, apart from them,
attributes that were added to it. -/
inductive Object
  | list (items : List Value)
  | mapping (entries : List (Value × Value))
  | record (cls : RecordClass) (fields : List Value) (extras : List (String × Value))
  | slots (values : List Value)
deriving Inhabited

/-- The NaNs with marks below this number are the ones that the notations of documents and of lines of
input spell: each notation has a single one. -/
def spelledMarks : Nat := 2

/-- The objects by place, the next mark for a NaN or a missing part, and the attributes that classes and
members of enumerations have been given. -/
structure Store where
  objects : Array Object
  marks : Nat
  given : List (Atom × String × Value)
deriving Inhabited

namespace Value

/-- The empty value. -/
def null : Value := .atom .null

/-- An integer. -/
def int (n : Int) : Value := .atom (.int n)

/-- A text. -/
def text (s : String) : Value := .atom (.text s)

/-- A truth value. -/
def bool (b : Bool) : Value := .atom (.bool b)

/-- Whether the value is the empty one. -/
def isNull : Value → Bool
  | .atom .null => true
  | _ => false

/-- The value that stands for a missing part. -/
def absent : Value := .atom (.absent 0)

/-- Whether the value is the one that stands for a missing part, and not a copy of it. -/
def isAbsent : Value → Bool
  | .atom (.absent m) => m == 0
  | _ => false

/-- Whether two values are one and the same object, or the very same NaN. -/
def isSame : Value → Value → Bool
  | .ref l, .ref m => l == m
  | .atom (.nan m), .atom (.nan n) => m == n
  | _, _ => false

mutual

/-- A value as a tree, given what stands for a reference. -/
def view (deref : Loc → Data) : Value → Data
  | .atom a => .atom a
  | .tuple cls xs => .tuple cls (viewAll deref xs)
  | .set xs => .set (viewAll deref xs)
  | .frozen cls xs => .record cls (viewAll deref xs)
  | .ref l => deref l

/-- Several values as trees. -/
def viewAll (deref : Loc → Data) : List Value → List Data
  | [] => []
  | x :: xs => view deref x :: viewAll deref xs

end

mutual

/-- The places that a value refers to. -/
def refs : Value → List Loc
  | .atom _ => []
  | .tuple _ xs => refsAll xs
  | .set xs => refsAll xs
  | .frozen _ xs => refsAll xs
  | .ref l => [l]

/-- The places that several values refer to. -/
def refsAll : List Value → List Loc
  | [] => []
  | x :: xs => refs x ++ refsAll xs

end

mutual

/-- The marks of the values for missing parts within a value. -/
def absentMarks : Value → List Nat
  | .atom (.absent m) => [m]
  | .atom _ | .ref _ => []
  | .tuple _ xs => absentMarksAll xs
  | .set xs => absentMarksAll xs
  | .frozen _ xs => absentMarksAll xs

/-- The marks of the values for missing parts within several values. -/
def absentMarksAll : List Value → List Nat
  | [] => []
  | x :: xs => absentMarks x ++ absentMarksAll xs

end

end Value

/-- What becomes of places, and of the marks of values for missing parts, in a copy. -/
structure Relocation where
  place : Loc → Loc
  mark : Nat → Nat

namespace Value

mutual

/-- A value with everything in it relocated. -/
def move (r : Relocation) : Value → Value
  | .atom (.absent m) => .atom (.absent (r.mark m))
  | .atom a => .atom a
  | .tuple cls xs => .tuple cls (moveAll r xs)
  | .set xs => .set (moveAll r xs)
  | .frozen cls xs => .frozen cls (moveAll r xs)
  | .ref l => .ref (r.place l)

/-- Several values with everything in them relocated. -/
def moveAll (r : Relocation) : List Value → List Value
  | [] => []
  | x :: xs => move r x :: moveAll r xs

end

end Value

namespace Object

/-- The values that an object holds. -/
def values : Object → List Value
  | .list xs => xs
  | .mapping es => es.flatMap fun e => [e.1, e.2]
  | .record _ xs extras => xs ++ extras.map (·.2)
  | .slots xs => xs

/-- The places that an object refers to. -/
def refs (o : Object) : List Loc := Value.refsAll o.values

/-- An object with everything in it relocated. -/
def move (r : Relocation) : Object → Object
  | .list xs => .list (Value.moveAll r xs)
  | .mapping es => .mapping (es.map fun e => (e.1.move r, e.2.move r))
  | .record cls xs extras => .record cls (Value.moveAll r xs) (extras.map fun e => (e.1, e.2.move r))
  | .slots xs => .slots (Value.moveAll r xs)

/-- The name of the object's class. -/
def className : Object → String
  | .list _ => "list"
  | .mapping _ => "dict"
  | .record cls _ _ => cls.name
  | .slots _ => "slots"

/-- An object as a tree, given what stands for a reference. -/
def view (deref : Loc → Data) : Object → Data
  | .list xs => .list (Value.viewAll deref xs)
  | .mapping es => .mapping (es.map fun e => (e.1.view deref, e.2.view deref))
  | .record cls xs _ => .record cls (Value.viewAll deref xs)
  | .slots xs => .list (Value.viewAll deref xs)

end Object

namespace Store

/-- A store without objects. -/
def empty : Store := ⟨#[], spelledMarks, []⟩

/-- The object at a place. -/
def get? (s : Store) (l : Loc) : Option Object := s.objects[l]?

/-- The store with the object at a place replaced. -/
def put (s : Store) (l : Loc) (o : Object) : Store := { s with objects := s.objects.setIfInBounds l o }

/-- A new object. -/
def alloc (s : Store) (o : Object) : Loc × Store :=
  (s.objects.size, { s with objects := s.objects.push o })

/-- The attribute that a class or a member of an enumeration has been given. -/
def given? (s : Store) (a : Atom) (name : String) : Option Value :=
  (s.given.find? fun e => e.1 = a && e.2.1 == name).map (·.2.2)

/-- The store with an attribute given to a class or a member of an enumeration. -/
def give (s : Store) (a : Atom) (name : String) (v : Value) : Store :=
  { s with given := (a, name, v) :: s.given }

/-- A new NaN, unlike all others. -/
def freshNaN (s : Store) : Value × Store :=
  (.atom (.nan s.marks), { s with marks := s.marks + 1 })

/-! ## Reading -/

/-- The tree at a place, following at most `fuel` references in a row. A place that is being read
already, as its own part, is elided. -/
def viewAt (s : Store) : (fuel : Nat) → (path : List Loc) → Loc → Data
  | 0, _, _ => .elided "object"
  | fuel + 1, path, l =>
    match s.get? l with
    | none => .elided "object"
    | some o =>
      if path.contains l then .elided o.className
      else o.view (viewAt s fuel (l :: path))

/-- A value as a tree. No chain of references without repetition is longer than the store. -/
def view (s : Store) (v : Value) : Data := v.view (s.viewAt (s.objects.size + 1) [])

/-- Several values as trees. -/
def viewAll (s : Store) (vs : List Value) : List Data := vs.map s.view

/-! ## Building -/

mutual

/-- A value with the contents of a tree, made of new objects. A NaN that some notation spells stays
the same one. -/
def build : Data → Store → Value × Store
  | .atom (.nan m), s => if m < spelledMarks then (.atom (.nan m), s) else s.freshNaN
  | .atom a, s => (.atom a, s)
  | .tuple cls xs, s =>
    let (vs, s) := buildAll xs s
    (.tuple cls vs, s)
  | .set xs, s =>
    let (vs, s) := buildAll xs s
    (.set vs, s)
  | .list xs, s =>
    let (vs, s) := buildAll xs s
    let (l, s) := s.alloc (.list vs)
    (.ref l, s)
  | .mapping es, s =>
    let (es, s) := buildEntries es s
    let (l, s) := s.alloc (.mapping es)
    (.ref l, s)
  | .record cls xs, s =>
    let (vs, s) := buildAll xs s
    if cls.keeping = .frozen then (.frozen cls vs, s)
    else
      let (l, s) := s.alloc (.record cls vs [])
      (.ref l, s)
  | .elided _, s => (.null, s)

/-- The values of several trees. -/
def buildAll : List Data → Store → List Value × Store
  | [], s => ([], s)
  | x :: xs, s =>
    let (v, s) := build x s
    let (vs, s) := buildAll xs s
    (v :: vs, s)

/-- The entries of a mapping. -/
def buildEntries : List (Data × Data) → Store → List (Value × Value) × Store
  | [], s => ([], s)
  | (k, x) :: es, s =>
    let (key, s) := build k s
    let (v, s) := build x s
    let (rest, s) := buildEntries es s
    ((key, v) :: rest, s)

end

/-! ## Mappings -/

/-- The value under a key. -/
def lookup (s : Store) (entries : List (Value × Value)) (key : Data) : Option Value :=
  (entries.find? fun e => (s.view e.1).alike key).map (·.2)

/-- The entries with a value put under a key: in the place of an equal key, which stays as it is, or
at the end. -/
def insertEntry (s : Store) (key value : Value) : List (Value × Value) → List (Value × Value)
  | [] => [(key, value)]
  | (k, v) :: es =>
    if (s.view k).alike (s.view key) then (k, value) :: es
    else (k, v) :: insertEntry s key value es

/-- The values in order, each equal one kept once. -/
def distinctValues (s : Store) (vs : List Value) : List Value :=
  vs.foldl (fun kept v => if (s.view v).isIn (s.viewAll kept) then kept else kept ++ [v]) []

/-! ## Copying -/

/-- The places met from `l` on, added to those `seen`, following at most `fuel` references in a
row. -/
def visit (s : Store) : (fuel : Nat) → (seen : List Loc) → Loc → List Loc
  | 0, seen, _ => seen
  | fuel + 1, seen, l =>
    if seen.contains l then seen
    else
      match s.get? l with
      | none => seen
      | some o => o.refs.foldl (visit s fuel) (l :: seen)

/-- All places that can be reached from the given ones. -/
def reachable (s : Store) (roots : List Loc) : List Loc :=
  roots.foldl (s.visit (s.objects.size + 1)) []

/-- The number that a copy gives to one of those listed: in their order from `base` on. Others stay. -/
def renumber (listed : List Nat) (base : Nat) (n : Nat) : Nat :=
  match listed.idxOf? n with
  | some i => base + i
  | none => n

/-- Copies all objects reachable from the given places, and the values for missing parts in them. The
answer tells where everything went. -/
def copy (s : Store) (roots : List Loc) : Relocation × Store :=
  let region := s.reachable roots
  let sources := region.map fun l => (s.get? l).getD (.slots [])
  let marks := sources.flatMap fun o => Value.absentMarksAll o.values
  let r : Relocation := ⟨renumber region s.objects.size, renumber marks s.marks⟩
  (r, { s with
    objects := s.objects ++ (sources.map (Object.move r)).toArray
    marks := s.marks + marks.length })

/-- The values that a fact's slots hold. -/
def slots (s : Store) (l : Loc) : List Value :=
  match s.get? l with
  | some (.slots vs) => vs
  | _ => []

/-- The value in a fact's slot. -/
def slot (s : Store) (l : Loc) (i : Nat) : Value := ((s.slots l)[i]?).getD .null

/-- The items of the list that a value refers to. -/
def listItems (s : Store) (v : Value) : List Value :=
  match v with
  | .ref l =>
    match s.get? l with
    | some (.list xs) => xs
    | _ => []
  | _ => []

end Store

end Conform
