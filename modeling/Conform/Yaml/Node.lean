import Conform.Yaml.Token

/-!
# Nodes

The tree that the tokens of a document describe: scalars, sequences and mappings, each possibly
under an anchor, and aliases that stand for the node of an anchor. `Node.ofText` answers the node of the
only document of a text, or the first flaw: that of the tokens where they end with one, unless another
token before it has no place, or an anchor or an alias is wrong.

A part of a node needs at least one token, or it is an empty scalar; so the readers of entries, which
count the entries they may still read, never run short when they start with the number of tokens. Nodes
may be nested in `deepest` levels.
-/

namespace Conform.Yaml

/-- A part of a document. -/
inductive Node
  | scalar (anchor : Option String) (text : String) (plain : Bool)
  | sequence (anchor : Option String) (items : List Node)
  | mapping (anchor : Option String) (entries : List (Node × Node))
  | alias (name : String)
deriving Inhabited, Repr

namespace Node

/-- What is read where nothing is written. -/
def empty : Node := .scalar none "" true

/-- The node under an anchor, if there is one. -/
def anchored (a : Option String) : Node → Node
  | .scalar _ t p => .scalar a t p
  | .sequence _ xs => .sequence a xs
  | .mapping _ es => .mapping a es
  | .alias n => .alias n

/-- A node as a key: a lone equals sign, which is no value elsewhere, is a text there. -/
def asKey : Node → Node
  | .scalar a "=" _ => .scalar a "=" false
  | n => n

/-- The flaw of tokens of which the first has no place where it stands. -/
def misplaced : List Token → Flaw
  | .flaw f :: _ => f
  | _ => .malformed

/-- A reader of nodes. The flags tell whether block collections may start here, and whether a sequence
may stand at the indentation of the mapping around it. -/
abbrev Reader := (inBlock indentless : Bool) → List Token → Except Flaw (Node × List Token)

/-- The node read unless one of the listed tokens is next, which leaves an empty scalar. -/
def unlessNext (stops : List Token) (read : List Token → Except Flaw (Node × List Token))
    (ts : List Token) : Except Flaw (Node × List Token) :=
  match ts with
  | t :: _ => if stops.contains t then .ok (empty, ts) else read ts
  | [] => read ts

/-- The entries of a block sequence. -/
def blockItems (read : Reader) : (fuel : Nat) → List Token → Except Flaw (List Node × List Token)
  | 0, _ => throw .malformed
  | fuel + 1, .blockEntry :: ts => do
    let (x, ts) ← unlessNext [.blockEntry, .blockEnd] (read true false) ts
    let (xs, ts) ← blockItems read fuel ts
    return (x :: xs, ts)
  | _ + 1, .blockEnd :: ts => return ([], ts)
  | _ + 1, ts => throw (misplaced ts)

/-- The entries of a sequence at the indentation of the mapping around it. -/
def indentlessItems (read : Reader) : (fuel : Nat) → List Token → Except Flaw (List Node × List Token)
  | 0, _ => throw .malformed
  | fuel + 1, .blockEntry :: ts => do
    let (x, ts) ← unlessNext [.blockEntry, .key, .value, .blockEnd] (read true false) ts
    let (xs, ts) ← indentlessItems read fuel ts
    return (x :: xs, ts)
  | _ + 1, ts => return ([], ts)

/-- The entries of a block mapping. -/
def blockEntries (read : Reader) :
    (fuel : Nat) → List Token → Except Flaw (List (Node × Node) × List Token)
  | 0, _ => throw .malformed
  | fuel + 1, .key :: ts => do
    let stops : List Token := [.key, .value, .blockEnd]
    let (k, ts) ← unlessNext stops (read true true) ts
    let (v, ts) ←
      match ts with
      | .value :: ts => unlessNext stops (read true true) ts
      | ts => pure (empty, ts)
    let (es, ts) ← blockEntries read fuel ts
    return ((k.asKey, v) :: es, ts)
  | _ + 1, .blockEnd :: ts => return ([], ts)
  | _ + 1, ts => throw (misplaced ts)

/-- A key of a flow collection and its value, from the token after the mark of the key on. -/
def flowPair (read : Reader) (closing : Token) (ts : List Token) :
    Except Flaw ((Node × Node) × List Token) := do
  let (k, ts) ← unlessNext [.value, .flowEntry, closing] (read false false) ts
  match ts with
  | .value :: ts =>
    let (v, ts) ← unlessNext [.flowEntry, closing] (read false false) ts
    return ((k.asKey, v), ts)
  | ts => return ((k.asKey, empty), ts)

/-- The comma in front of every entry of a flow collection but the first. -/
def separated (first : Bool) : List Token → Except Flaw (List Token)
  | .flowEntry :: ts => return if first then .flowEntry :: ts else ts
  | ts => if first then return ts else throw (misplaced ts)

/-- The entries of a flow sequence. A single pair stands for a mapping of its own. -/
def flowItems (read : Reader) :
    (fuel : Nat) → (first : Bool) → List Token → Except Flaw (List Node × List Token)
  | 0, _, _ => throw .malformed
  | _ + 1, _, .flowSequenceEnd :: ts => return ([], ts)
  | fuel + 1, first, ts => do
    match ← separated first ts with
    | .key :: ts =>
      let (e, ts) ← flowPair read .flowSequenceEnd ts
      let (xs, ts) ← flowItems read fuel false ts
      return (.mapping none [e] :: xs, ts)
    | .flowSequenceEnd :: ts => return ([], ts)
    | ts =>
      let (x, ts) ← read false false ts
      let (xs, ts) ← flowItems read fuel false ts
      return (x :: xs, ts)

/-- The entries of a flow mapping. A node without the mark of a key has an empty value. -/
def flowEntries (read : Reader) : (fuel : Nat) → (first : Bool) → List Token →
    Except Flaw (List (Node × Node) × List Token)
  | 0, _, _ => throw .malformed
  | _ + 1, _, .flowMappingEnd :: ts => return ([], ts)
  | fuel + 1, first, ts => do
    match ← separated first ts with
    | .key :: ts =>
      let (e, ts) ← flowPair read .flowMappingEnd ts
      let (es, ts) ← flowEntries read fuel false ts
      return (e :: es, ts)
    | .flowMappingEnd :: ts => return ([], ts)
    | ts =>
      let (k, ts) ← read false false ts
      let (es, ts) ← flowEntries read fuel false ts
      return ((k.asKey, empty) :: es, ts)

/-- The anchor in front of a node, if there is one, and the tokens after it. -/
def takeAnchor : List Token → Option String × List Token
  | .anchor name :: ts => (some name, ts)
  | ts => (none, ts)

/-- The greatest number of levels in which nodes are nested. -/
def deepest : Nat := 490

/-- A node of at most `levels` levels. -/
def read : (levels : Nat) → Reader
  | 0, _, _, _ => throw .tooDeep
  | _ + 1, _, _, .alias name :: ts => return (.alias name, ts)
  | levels + 1, inBlock, indentless, ts =>
    let parts := read levels
    let n := ts.length + 1
    let (a, ts) := takeAnchor ts
    match ts with
    | .scalar t p :: ts => return (.scalar a t p, ts)
    | .flowSequenceStart :: ts => (flowItems parts n true ts).map fun (xs, ts) => (.sequence a xs, ts)
    | .flowMappingStart :: ts => (flowEntries parts n true ts).map fun (es, ts) => (.mapping a es, ts)
    | ts =>
      match inBlock, indentless, ts with
      | _, true, .blockEntry :: _ =>
        (indentlessItems parts n ts).map fun (xs, ts) => (.sequence a xs, ts)
      | true, _, .blockSequenceStart :: ts =>
        (blockItems parts n ts).map fun (xs, ts) => (.sequence a xs, ts)
      | true, _, .blockMappingStart :: ts =>
        (blockEntries parts n ts).map fun (es, ts) => (.mapping a es, ts)
      | _, _, ts => if a.isSome then return (anchored a empty, ts) else throw (misplaced ts)

/-! ## Documents -/

/-- What the directives of a document have told. -/
structure Directives where
  versions : Nat
  handles : List String

/-- The directives with one more. The version may be told once, and its major part is 1; a handle for
tags may be introduced once. -/
def Directives.add (d : Directives) : Directive → Except Flaw Directives
  | .version major =>
    if d.versions = 0 ∧ major = 1 then return { d with versions := 1 } else throw .malformed
  | .tagHandle handle =>
    if d.handles.contains handle then throw .malformed
    else return { d with handles := handle :: d.handles }
  | .other => return d

/-- The tokens after the directives and the mark at the start of a document, and whether there was
such a mark. A directive needs the mark after it. -/
def documentStart (d : Directives) (directed : Bool) : List Token → Except Flaw (Bool × List Token)
  | .directive told :: ts => do documentStart (← d.add told) true ts
  | .documentStart :: ts => return (true, ts)
  | ts => if directed then throw (misplaced ts) else return (false, ts)

/-- Demands that nothing but marks of the end of a document is left. -/
def requireEnd (ts : List Token) : Except Flaw Unit := do
  let ts := ts.dropWhile (· == .documentEnd)
  if !ts.isEmpty then
    let (marked, ts) ← documentStart ⟨0, []⟩ false ts
    throw (if marked then .malformed else misplaced ts)

/-- The only document of a list of tokens; an empty text has an empty one. -/
def ofTokens (ts : List Token) : Except Flaw Node := do
  let (marked, ts) ← documentStart ⟨0, []⟩ false ts
  match marked, ts with
  | _, [] => return empty
  | true, .documentEnd :: _ | true, .documentStart :: _ | true, .directive _ :: _ =>
    requireEnd ts
    return empty
  | _, ts =>
    let (node, ts) ← read deepest true false ts
    requireEnd ts
    return node

/-- Whether every alias follows its anchor and no anchor is set twice, given the anchors before. A node
has its anchor once the token after that is there. -/
def anchorsAgree (known : List String) : List Token → Bool
  | [] => true
  | .alias name :: ts => known.contains name && anchorsAgree known ts
  | .anchor _ :: .flaw _ :: _ => true
  | .anchor name :: ts => !known.contains name && anchorsAgree (name :: known) ts
  | _ :: ts => anchorsAgree known ts

/-- The only document of a text. -/
def ofText (text : String) : Except Flaw Node :=
  let ts := scan text
  if anchorsAgree [] ts then ofTokens ts else throw .malformed

end Node

end Conform.Yaml
