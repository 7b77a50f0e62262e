import Conform.Fact.Make

/-!
# Declarative nodes

A fact can be written as data: a mapping with exactly one constructor key and, beside it, an optional
label.

* `always`, `same`, `different`, `distinct` take any argument and ignore it; `never` takes a reason.
* `eq` and `ne` take a value, `in_set` a list.
* `in_range` takes a list of two ends, or a mapping with `low` and `high`.
* `not` and `seq` take a node, `and` a list of nodes, `or` a list of two.
* `attr` takes a mapping with `name`, `fact` and `optional`, and `item` one with `key` and `fact`.
* `vec_len` takes a length, or a mapping with `length` and `like`.
* `consecutive_int` takes the first integer.

Everything else is a fault with the path to the node at which it was found. Keys are looked at before
parts, parts before labels, and earlier parts before later ones.
-/

namespace Conform.Node

/-- The constructors of facts. -/
inductive Constructor
  | always
  | never
  | eq
  | ne
  | inSet
  | inRange
  | not
  | and
  | or
  | attr
  | item
  | seq
  | vecLen
  | consecutiveInt
  | distinct
  | same
  | different
deriving DecidableEq, Repr

/-- The constructors with their keys, in ascending order of the keys. -/
def constructors : List (String × Constructor) :=
  [("always", .always), ("and", .and), ("attr", .attr), ("consecutive_int", .consecutiveInt),
   ("different", .different), ("distinct", .distinct), ("eq", .eq), ("in_range", .inRange),
   ("in_set", .inSet), ("item", .item), ("ne", .ne), ("never", .never), ("not", .not), ("or", .or),
   ("same", .same), ("seq", .seq), ("vec_len", .vecLen)]

/-- The constructor of a key. -/
def constructor? (key : Data) : Option Constructor :=
  match key with
  | .atom (.text k) => constructors.lookup k
  | _ => none

/-- Ends with the fault of a malformed node. -/
def malformed {α : Type} (path message : String) : Act α := throw (.schema path message)

/-- A list of texts as messages show it. -/
def keysText (keys : List String) : String := listText (keys.map Text.quote)

/-- The entries of a mapping. -/
def mapping (node : Value) (path : String) : Act (List (Value × Value)) := do
  let wrong (d : Data) : Act (List (Value × Value)) :=
    malformed path ("expected a mapping, got " ++ d.className ++
      ". Fix: write the node as '<constructor>: <argument>'.")
  match node with
  | .ref l =>
    match ← Act.ask (·.get? l) with
    | some (.mapping es) => return es
    | _ => wrong (← Act.view node)
  | _ => wrong (← Act.view node)

/-- The items of a list. -/
def items (arg : Value) (path : String) : Act (List Value) := do
  let wrong (d : Data) : Act (List Value) :=
    malformed path ("expected a list, got " ++ d.className ++ ".")
  match arg with
  | .ref l =>
    match ← Act.ask (·.get? l) with
    | some (.list xs) => return xs
    | _ => wrong (← Act.view arg)
  | _ => wrong (← Act.view arg)

/-- Whether a value is a truth value. -/
def isBool (d : Data) : Bool := d.className == "bool"

/-- An integer that is not a truth value. -/
def integer (arg : Value) (path : String) : Act Int := do
  let d ← Act.view arg
  let wrong : Act Int := do malformed path ("expected an integer, got " ++ (← Act.render arg) ++ ".")
  match d.integer? with
  | some n => if isBool d then wrong else return n
  | none => wrong

/-- A number that is not a truth value, or nothing. -/
def requireNumber (arg : Value) (path : String) : Act Unit := do
  let d ← Act.view arg
  if arg.isNull || (d.numeral?.isSome && !isBool d) then return ()
  malformed path ("expected a number or null, got " ++ (← Act.render arg) ++ ".")

/-- Refuses keys other than the allowed ones, which are given in ascending order. -/
def requireKeys (entries : List (Value × Value)) (allowed : List String) (path : String) :
    Act Unit := do
  let keys ← Act.viewAll (entries.map (·.1))
  let isAllowed (d : Data) : Bool :=
    match d with
    | .atom (.text k) => allowed.contains k
    | _ => false
  match Data.sorted? (keys.filter fun d => !isAllowed d) with
  | none => Act.misuse .unsupported
  | some [] => return ()
  | some unknown =>
    let given ← Act.written (Data.list unknown).text?
    malformed path ("unknown key(s) " ++ given ++ ". Allowed keys: " ++ keysText allowed ++ ".")

/-- The value under a key, if there is one. -/
def entry? (entries : List (Value × Value)) (key : String) : Act (Option Value) :=
  Act.ask fun s => s.lookup entries (.atom (.text key))

/-- The value under a key, or the empty value. -/
def entry (entries : List (Value × Value)) (key : String) : Act Value := do
  return (← entry? entries key).getD .null

/-- A range with checked ends. -/
def rangeOf (low high : Value) (path : String) : Act Fact := do
  requireNumber low (path ++ ".low")
  requireNumber high (path ++ ".high")
  Fact.mkInRange low high

/-- The argument of `in_range`. -/
def loadRange (arg : Value) (path : String) : Act Fact := do
  let other : Act Fact :=
    malformed path "expected [low, high] or \x7blow: ..., high: ...\x7d."
  match arg with
  | .ref l =>
    match ← Act.ask (·.get? l) with
    | some (.list [low, high]) => rangeOf low high path
    | some (.list xs) =>
      malformed path ("expected [low, high], got " ++ toString xs.length ++ " item(s).")
    | some (.mapping es) =>
      requireKeys es ["high", "low"] path
      rangeOf (← entry es "low") (← entry es "high") path
    | _ => other
  | _ => other

/-- A checked length. -/
def lengthOf (arg like : Value) (path : String) : Act Fact := do
  let n ← integer arg path
  if n < 0 then malformed path ("length must be >= 0, got " ++ (← Act.display (.int n)) ++ ".")
  Fact.mkLength n like

/-- The argument of `vec_len`. -/
def loadLength (arg : Value) (path : String) : Act Fact := do
  match arg with
  | .ref l =>
    match ← Act.ask (·.get? l) with
    | some (.mapping es) =>
      requireKeys es ["length", "like"] path
      match ← entry? es "length" with
      | none => malformed path "missing 'length'. Fix: write '\x7blength: n, like: <value>\x7d'."
      | some n => lengthOf n (← entry es "like") (path ++ ".length")
    | _ => lengthOf arg .null path
  | _ => lengthOf arg .null path

/-- The parts of a projection's mapping: the value under `keyField`, and the node of the fact. -/
def projection (arg : Value) (keyField : String) (allowed : List String) (path : String) :
    Act (List (Value × Value) × Value × Value) := do
  let es ← mapping arg path
  requireKeys es allowed path
  match ← entry? es keyField, ← entry? es "fact" with
  | some key, some node => return (es, key, node)
  | _, _ =>
    malformed path ("missing '" ++ keyField ++ "' or 'fact'. Fix: write '\x7b" ++ keyField ++
      ": ..., fact: <node>\x7d'.")

/-- The argument of `attr`. -/
def loadAttr (load : Value → String → Act Fact) (arg : Value) (path : String) : Act Fact := do
  let (es, key, node) ← projection arg "name" ["fact", "name", "optional"] path
  let f ← load node (path ++ ".fact")
  let wrong : Act Fact := malformed (path ++ ".name") "expected a non-empty attribute name."
  match key with
  | .atom (.text name) =>
    if name = "" then wrong
    else
      let optional := (← Act.view (← entry es "optional")).truthy
      if optional then Fact.mkPrism (.optionalAttr name) f else Fact.mkLens (.attr name) f
  | _ => wrong

/-- The argument of `item`. -/
def loadItem (load : Value → String → Act Fact) (arg : Value) (path : String) : Act Fact := do
  let (_, key, node) ← projection arg "key" ["fact", "key"] path
  let f ← load node (path ++ ".fact")
  Fact.mkLens (← Accessor.ofKey key) f

/-- The nodes of a list, from the place `i` on. -/
def loadParts (load : Value → String → Act Fact) (path : String) : (i : Nat) → List Value →
    Act (List Fact)
  | _, [] => return []
  | i, v :: vs => do
    let f ← load v (path ++ Fact.elementTag i)
    return f :: (← loadParts load path (i + 1) vs)

/-- The argument of `or`. -/
def loadEither (load : Value → String → Act Fact) (arg : Value) (path : String) : Act Fact := do
  match ← loadParts load path 0 (← items arg path) with
  | [a, b] => Fact.mkEither a b
  | fs => malformed path ("or takes exactly 2 facts, got " ++ toString fs.length ++ ".")

/-- What is said of an integer that has too many digits to be written. -/
def tooLongText : String :=
  "Exceeds the limit (" ++ toString digitLimit ++ " digits) for integer string conversion; " ++
    "use sys.set_int_max_str_digits() to increase the limit"

/-- The argument of `not`. A fact that cannot be negated is refused by its description, and where that
cannot be written, by saying so. -/
def loadNegation (load : Value → String → Act Fact) (arg : Value) (path : String) : Act Fact := do
  let f ← load arg path
  tryCatch (Fact.mkNot f) fun e =>
    match e with
    | .refused cause => malformed path cause.message
    | .misuse .invalid => malformed path tooLongText
    | e => throw e

/-- The fact of a constructor with its argument. -/
def loadConstructor (load : Value → String → Act Fact) (k : Constructor) (arg : Value)
    (path : String) : Act Fact :=
  match k with
  | .always => Fact.mkAlways
  | .never => do
    if arg.isNull then Fact.mkNever "declared never" else Fact.mkNever (← Act.display arg)
  | .eq => Fact.mkEq arg
  | .ne => Fact.mkNe arg
  | .inSet => do
    let _ ← items arg path
    Fact.mkInSet arg
  | .inRange => loadRange arg path
  | .not => loadNegation load arg path
  | .and => do Fact.mkAll (← loadParts load path 0 (← items arg path))
  | .or => loadEither load arg path
  | .attr => loadAttr load arg path
  | .item => loadItem load arg path
  | .seq => do Fact.mkEach (← load arg path)
  | .vecLen => loadLength arg path
  | .consecutiveInt => do
    if arg.isNull then Fact.mkConsecutive (.int 0)
    else
      let _ ← integer arg path
      Fact.mkConsecutive arg
  | .distinct => Fact.mkDistinct
  | .same => Fact.mkSame
  | .different => Fact.mkDifferent

/-- A fact under the label that its node gives, if it gives one. -/
def withLabel (entries : List (Value × Value)) (f : Fact) (path : String) : Act Fact := do
  let wrong : Act Fact := malformed (path ++ ".label") "expected a non-empty string."
  match ← entry entries "label" with
  | .atom .null => return f
  | .atom (.text name) => if name = "" then wrong else Fact.mkLabeled f name
  | _ => wrong

/-- Whether a key is that of the label. -/
def isLabel (d : Data) : Bool := d.alike (.atom (.text "label"))

/-- The only constructor key of a mapping. -/
def constructorOf (entries : List (Value × Value)) (path : String) : Act (Constructor × Value) := do
  let viewed ← entries.mapM fun e => return (← Act.view e.1, e.2)
  let keys := viewed.filter fun e => !isLabel e.1
  let unknown := keys.filter fun e => (constructor? e.1).isNone
  if !unknown.isEmpty then
    let names ← unknown.mapM fun e => Act.written e.1.spliced?
    malformed path ("unknown constructor(s) " ++ keysText (Data.sortTexts names) ++
      ". Fix: use one of " ++ keysText (constructors.map (·.1)) ++ ".")
  match keys.filterMap fun e => (constructor? e.1).map fun k => (k, e.2) with
  | [one] => return one
  | found =>
    malformed path ("expected exactly one constructor key, got " ++ toString found.length ++
      ". Fix: nest additional constraints under 'and'.")

/-- The key of a constructor. -/
def Constructor.key (k : Constructor) : String :=
  ((constructors.find? fun e => e.2 == k).map (·.1)).getD ""

/-- The fact of a node that is nested at most `levels` deep. -/
def loadWithin : (levels : Nat) → Value → String → Act Fact
  | 0, _, _ => Act.misuse .bottomless
  | levels + 1, node, path => do
    let entries ← mapping node path
    let (k, arg) ← constructorOf entries path
    let f ← loadConstructor (loadWithin levels) k arg (path ++ "." ++ k.key)
    withLabel entries f path

/-- The fact of a node. A node that does not contain itself is nested no deeper than there are
objects. -/
def load (node : Value) (path : String := "fact") : Act Fact := do
  loadWithin ((← get).store.objects.size + 1) node path

end Conform.Node
