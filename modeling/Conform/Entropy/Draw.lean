import Conform.Value.Accessor
import Conform.Value.Order

/-!
# Drawing values

Draws from the source of choices: numbers of a range, one of several options, and arbitrary values
of the shape of a template (`Draw.arbitrary`). Supported templates are the atoms other than classes
and the mark of absence, tuples, lists, mappings and records that declare their fields. A template may
contain itself, and then it has values only as long as empty lists are drawn; `likeWithin` counts the
levels.
-/

namespace Conform.Draw

/-- The least arbitrary integer. -/
def leastInt : Int := -2147483648

/-- The greatest arbitrary integer. -/
def greatestInt : Int := 2147483647

/-- The greatest magnitude of an arbitrary floating-point number. -/
def floatSpan : Binary64 := Binary64.ofInt 1000000

/-- The greatest length of an arbitrary list. -/
def longestList : Nat := 8

/-- The greatest length of an arbitrary text or byte string. -/
def longestText : Nat := 16

/-- The characters of arbitrary texts. -/
def alphabet : List Char :=
  "abcdefghijklmnopqrstuvwxyzABCDEFGHIJKLMNOPQRSTUVWXYZ0123456789".toList

/-- A change of the source with an answer. -/
def fromSource {α : Type} (f : Source → α × Source) : Act α := do
  let w ← get
  let (a, source) := f w.source
  set { w with source := source }
  return a

/-- One of the first `n` naturals. -/
def below (n : Nat) : Act Nat := fromSource (Source.below n)

/-- A number of the unit interval. -/
def unit : Act Binary64 := fromSource Source.unit

/-- An integer of an inclusive range whose ends are in order. -/
def intBetween (low high : Int) : Act Int := do
  return low + (← below (high - low + 1).toNat)

/-- Refuses ends of a range that are in the wrong order. -/
def requireOrdered (low high : Value) : Act Unit := do
  let lo ← Act.view low
  let hi ← Act.view high
  match hi.less? lo with
  | none => Act.misuse .unsupported
  | some true => throw (.refused (.range (← Act.display low) (← Act.display high)))
  | some false => return ()

/-- A value that must be a number. -/
def numeral (v : Value) : Act Numeral := do
  match (← Act.view v).numeral? with
  | some n => return n
  | none => Act.misuse .unsupported

/-- A number that must be an integer, of whatever class. -/
def whole : Numeral → Act Int
  | .int n => return n
  | .nan => Act.misuse .invalid
  | .float x =>
    match x.exact with
    | .infinite _ => Act.misuse .overflow
    | .finite n s => if n % twoTo s = 0 then return n / twoTo s else Act.misuse .invalid

/-- A number of a range whose ends are in order: the lower end and what an entry of a tape leaves by
division by the number of integers in the range. -/
def offset (low high : Value) (entry : Int) : Act Value := do
  let a ← numeral low
  let distance ← Act.inRange ((← numeral high).sub? a)
  let size ← Act.inRange (distance.add? (.int 1))
  let part ← Act.inRange (Numeral.mod? (.int entry) size)
  Act.number (← Act.inRange (a.add? part))

/-- An integer of a range whose ends are in order and integers. -/
def drawWhole (low high : Value) : Act Value := do
  let past ← Act.inRange ((← numeral high).add? (.int 1))
  let first ← whole (← numeral low)
  let last := (← whole past) - 1
  if last < first then Act.misuse .invalid
  return .int (← intBetween first last)

/-- An integer of an inclusive range. -/
def intInRange (low high : Value) : Act Value := do
  let source := (← get).source
  if source.isFixed then return low
  requireOrdered low high
  match source.read? with
  | some (entry, source) =>
    modify fun w => { w with source := source }
    offset low high entry
  | none => drawWhole low high

/-- A number of a range: the lower end and a fraction of the distance. Two sets have a difference too,
but no fraction of it. -/
def floatInRange (low high : Value) : Act Value := do
  if (← get).source.isFixed then return low
  requireOrdered low high
  match low, high with
  | .set _, .set _ =>
    let _ ← unit
    Act.misuse .unsupported
  | _, _ =>
    let a ← numeral low
    let span ← Act.inRange ((← numeral high).sub? a)
    let r ← unit
    let part ← Act.inRange (span.mul? (.float r))
    Act.number (← Act.inRange (a.add? part))

/-- The place of one of `n` options. A single option needs no draw. -/
def index (n : Nat) : Act Nat := do
  if n = 0 then
    if (← get).source.isFixed then Act.misuse .noIndex else throw (.refused .noOptions)
  else if n = 1 then return 0
  else below n

/-- One of several options. -/
def choose {α : Type} (options : List α) : Act α := do
  match options[← index options.length]? with
  | some a => return a
  | none => Act.misuse .noIndex

/-- One of the options that a value holds, by its place. -/
def chooseFrom (options : Value) : Act Value := do
  let place (i : Nat) : Act Value := do
    Act.ofExcept (Accessor.getItem (← get).store options (.int i))
  if (← get).source.isFixed then place 0
  else if !(← Act.view options).truthy then throw (.refused .noOptions)
  else
    match ← Act.ask (·.elements? options) with
    | some xs => place (← index xs.length)
    | none => Act.misuse .unsupported

/-- Either truth value. -/
def boolean : Act Bool := do
  if (← get).source.isFixed then return false
  return (← unit).exact.less (.finite 1 1)

/-- An arbitrary text. -/
def arbitraryText : Act String := do
  let n ← intBetween 0 longestText
  return String.ofList (← (List.replicate n.toNat ()).mapM fun _ => choose alphabet)

/-- An arbitrary byte string. -/
def arbitraryBytes : Act (List UInt8) := do
  let n ← intBetween 0 longestText
  (List.replicate n.toNat ()).mapM fun _ => return UInt8.ofNat (← below 256)

/-- An arbitrary atom of the shape of a template. -/
def arbitraryAtom (a : Atom) : Act Value :=
  match a with
  | .null => return .null
  | .bool _ => return .bool (← boolean)
  | .int _ => return .int (← intBetween leastInt greatestInt)
  | .float _ | .nan _ =>
    floatInRange (.atom (.float (Binary64.ofMagnitude true floatSpan.bits.toNat)))
      (.atom (.float floatSpan))
  | .text _ => return .text (← arbitraryText)
  | .bytes _ => return .atom (.bytes (← arbitraryBytes))
  | .member cls _ => return .atom (.member cls (← index cls.members.length))
  | .sealed _ | .enumeration _ | .absent _ => throw (.refused (.template a.className))

/-- A new record of a class, given values for its settable fields; the others take their default. -/
def newRecord (cls : RecordClass) (fields : List Value) : Act Value := do
  match cls.keeping with
  | .frozen => return .frozen cls fields
  | _ => return .ref (← Act.alloc (.record cls fields []))

/-- The greatest number of levels of a template. -/
def deepest : Nat := 490

/-- The fields of a record: settable ones of the same shapes, the others with their default. -/
def likeFields (like : Value → Act Value) : List Field → List Value → Act (List Value)
  | f :: fs, x :: xs => do
    let v ← if f.settable then like x else pure (.atom f.initial)
    return v :: (← likeFields like fs xs)
  | _, _ => return []

/-- A value of the shape of an object. -/
def likeObject (like : Value → Act Value) : Object → Act Value
  | .list [] => return .ref (← Act.alloc (.list []))
  | .list (x :: _) => do
    let n ← intBetween 0 longestList
    let items ← (List.replicate n.toNat ()).mapM fun _ => like x
    return .ref (← Act.alloc (.list items))
  | .mapping es => do
    let entries ← es.mapM fun e => return (e.1, ← like e.2)
    return .ref (← Act.alloc (.mapping entries))
  | .record cls xs _ => do
    if cls.keeping = .plain then throw (.refused (.template cls.name))
    newRecord cls (← likeFields like cls.fields xs)
  | .slots _ => Act.misuse .unsupported

/-- A value of the shape of a template of at most `levels` levels, made of new objects. -/
def likeWithin : (levels : Nat) → Value → Act Value
  | 0, _ => Act.misuse .bottomless
  | levels + 1, v =>
    match v with
    | .atom a => arbitraryAtom a
    | .tuple cls xs => return .tuple cls (← xs.mapM (likeWithin levels))
    | .frozen cls xs => do newRecord cls (← likeFields (likeWithin levels) cls.fields xs)
    | .set _ => throw (.refused (.template "set"))
    | .ref l => do
      match ← Act.ask (·.get? l) with
      | some o => likeObject (likeWithin levels) o
      | none => Act.misuse .unsupported

/-- A value of the shape of a template. The fixed source gives the template itself. -/
def arbitrary (template : Value) : Act Value := do
  if (← get).source.isFixed then return template
  likeWithin deepest template

end Conform.Draw
