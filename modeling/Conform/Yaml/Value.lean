import Conform.World
import Conform.Yaml.Node
import Conform.Yaml.Scalar

/-!
# Values of documents

The value that the tree of a document stands for. An alias is the very object of its anchor, so a
document can describe values that share parts, or contain themselves. Of equal keys in a mapping the
first is kept with the last value.

Collections are filled level by level: a collection is made where its node is met first, and filled
after all those that were made before it. So of two faults in scalars the one nearer to the root counts.
-/

namespace Conform.Yaml

/-- The fault of a flaw. -/
def faultOf : Flaw → Fault
  | .malformed => .schema "document" "YAML parse error"
  | .invalid => .misuse .invalid
  | .overflow => .misuse .overflow
  | .tooDeep => .misuse .bottomless

/-- The value of a scalar. -/
def scalarValue (text : String) (plain : Bool) : Act Value :=
  if plain then
    match meaning text with
    | .atom a => return .atom a
    | .unreadable => throw (faultOf .invalid)
    | .tooWide => throw (faultOf .overflow)
    | .reserved => throw (faultOf .malformed)
  else return .text text

namespace Node

/-- The anchor of a node. -/
def anchor? : Node → Option String
  | .scalar a _ _ | .sequence a _ | .mapping a _ => a
  | .alias _ => none

mutual

/-- The nodes of a tree, each before its parts. -/
def nodes : Node → List Node
  | .sequence a xs => .sequence a xs :: nodesOfAll xs
  | .mapping a es => .mapping a es :: nodesOfEntries es
  | n => [n]

/-- The nodes of several trees. -/
def nodesOfAll : List Node → List Node
  | [] => []
  | x :: xs => nodes x ++ nodesOfAll xs

/-- The nodes of the entries of a mapping. -/
def nodesOfEntries : List (Node × Node) → List Node
  | [] => []
  | (k, v) :: es => nodes k ++ nodes v ++ nodesOfEntries es

end

end Node

/-- What has been made so far: the values of anchors, and the collections that are still to be filled. -/
structure Site where
  anchors : List (String × Value)
  waiting : List (Loc × Node)

/-- An action that makes values. -/
abbrev Making := StateT Site Act

namespace Making

/-- A new collection, to be filled from a node later. -/
def begin (o : Object) (node : Node) : Making Value := do
  let l ← Act.alloc o
  modify fun site => { site with waiting := site.waiting ++ [(l, node)] }
  return .ref l

/-- A new value of a node that is no alias. -/
def make (node : Node) : Making Value :=
  match node with
  | .scalar _ text plain => scalarValue text plain
  | .sequence _ _ => begin (.list []) node
  | .mapping _ _ => begin (.mapping []) node
  | .alias _ => throw (faultOf .malformed)

/-- The value of a node that is no alias, which is one and the same wherever it is met. -/
def valueOf (node : Node) : Making Value := do
  match node.anchor? with
  | none => make node
  | some name =>
    match (← get).anchors.lookup name with
    | some v => return v
    | none =>
      let v ← make node
      modify fun site => { site with anchors := (name, v) :: site.anchors }
      return v

/-- The value of a node of the document with the given nodes. -/
def valueIn (document : List Node) (node : Node) : Making Value :=
  match node with
  | .alias name =>
    match document.find? (·.anchor? == some name) with
    | some n => valueOf n
    | none => throw (faultOf .malformed)
  | node => valueOf node

/-- The entries of a mapping, added to those before. A key must not be able to change. -/
def entriesIn (document : List Node) (entries : List (Value × Value)) :
    List (Node × Node) → Making (List (Value × Value))
  | [] => return entries
  | (k, v) :: es => do
    let key ← valueIn document k
    if (← Act.view key).unhashable?.isSome then throw (faultOf .malformed)
    let x ← valueIn document v
    entriesIn document (← Act.ask fun s => s.insertEntry key x entries) es

/-- Fills a collection from its node. -/
def fill (document : List Node) (l : Loc) : Node → Making Unit
  | .sequence _ xs => do Act.put l (.list (← xs.mapM (valueIn document)))
  | .mapping _ es => do Act.put l (.mapping (← entriesIn document [] es))
  | _ => return ()

/-- Fills the collections that are waiting, and those that are made on the way, at most `fuel` in
all. -/
def fillAll (document : List Node) : (fuel : Nat) → Making Unit
  | 0 => return ()
  | fuel + 1 => do
    match (← get).waiting with
    | [] => return ()
    | (l, node) :: rest =>
      modify fun site => { site with waiting := rest }
      fill document l node
      fillAll document fuel

/-- The value of a whole document. -/
def wholeValue (root : Node) : Making Value := do
  let document := root.nodes
  let v ← valueIn document root
  fillAll document document.length
  return v

end Making

/-- The value of the only document of a text. -/
def load (text : String) : Act Value := do
  match Node.ofText text with
  | .error f => throw (faultOf f)
  | .ok node => return (← (Making.wholeValue node).run ⟨[], []⟩).1

end Conform.Yaml
