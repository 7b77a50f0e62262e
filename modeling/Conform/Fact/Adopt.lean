import Conform.Fact.Description

/-!
# Adopting the state of another fact

`Fact.adopt target source` makes the target take over everything that the source holds. Parts of the
same class are updated where they are, so that whoever else holds such a part sees the change; a part
of another class is replaced by the source's own part.

A tree does not change in place. Adopting therefore answers `Edits`, which say what the node at a cell
has become, and `Fact.edited` brings a tree up to date with them. A source that has the target among its
own parts may make the target a part of itself, and then there is no such tree.
-/

namespace Conform

/-- What the nodes at some cells have become, the latest change first. -/
abbrev Edits := List (Loc × Fact)

namespace Fact

/-- A node with its parts replaced. -/
def mapParts (g : Fact → Fact) : Fact → Fact
  | .all c fs n s => .all c (fs.map g) n s
  | .either c a b s => .either c (g a) (g b) s
  | .negation c f n s => .negation c (g f) n s
  | .lens c acc f s => .lens c acc (g f) s
  | .prism c acc f s => .prism c acc (g f) s
  | .each c f s => .each c (g f) s
  | .mapped c name tests fs f => .mapped c name tests (fs.map g) (g f)
  | .choice c f s => .choice c (f.map g) s
  | .labeled c name f s => .labeled c name (g f) s
  | f => f

/-- A tree with the edited nodes in place of the ones at their cells, down to `levels` levels. -/
def editedWithin (edits : Edits) : (levels : Nat) → Fact → Fact
  | 0, f => f
  | levels + 1, f => mapParts (editedWithin edits levels) ((edits.lookup f.cell).getD f)

/-- The greatest depth that edits can give to a tree. -/
def reach (edits : Edits) (f : Fact) : Nat := edits.foldl (fun n e => n + e.2.depth) f.depth

/-- A tree brought up to date with edits. -/
def edited (edits : Edits) (f : Fact) : Fact := editedWithin edits (f.reach edits) f

/-- The node of the source at the cell of the target, with parts made by `part` from those of the two.
All else is the source's, also whether it is stateful. -/
def merge (part : Fact → Fact → Fact) (target source : Fact) : Fact :=
  let c := target.cell
  match target, source with
  | .all _ fs _ _, .all _ gs n s =>
    let alike := fs.length == gs.length && !fs.isEmpty &&
      (fs.zip gs).all fun p => p.1.className == p.2.className
    .all c (if alike then (fs.zip gs).map fun p => part p.1 p.2 else gs) n s
  | .either _ a b _, .either _ a' b' s => .either c (part a a') (part b b') s
  | .negation _ f _ _, .negation _ g n s => .negation c (part f g) n s
  | .lens _ _ f _, .lens _ acc g s => .lens c acc (part f g) s
  | .prism _ _ f _, .prism _ acc g s => .prism c acc (part f g) s
  | .each _ f _, .each _ g s => .each c (part f g) s
  | .choice _ (some f) _, .choice _ (some g) s => .choice c (some (part f g)) s
  | .labeled _ _ f _, .labeled _ name g s => .labeled c name (part f g) s
  | _, .all _ gs n s => .all c gs n s
  | _, .either _ a b s => .either c a b s
  | _, .negation _ g n s => .negation c g n s
  | _, .lens _ acc g s => .lens c acc g s
  | _, .prism _ acc g s => .prism c acc g s
  | _, .each _ g s => .each c g s
  | _, .choice _ g s => .choice c g s
  | _, .labeled _ name g s => .labeled c name g s
  | _, .always _ => .always c
  | _, .never _ reason => .never c reason
  | _, .equality _ equal g n => .equality c equal g n
  | _, .membership _ => .membership c
  | _, .range _ inside => .range c inside
  | _, .pair _ equal g n => .pair c equal g n
  | _, .counter _ => .counter c
  | _, .distinct _ g n => .distinct c g n
  | _, .length _ n g => .length c n g
  | _, .mapped _ name tests gs g => .mapped c name tests gs g
  | _, .predicate _ name test => .predicate c name test
  | _, .brute _ name test g n => .brute c name test g n
  | _, .foreign _ kind => .foreign c kind

/-- The parts of two nodes that stand in the same position. -/
def partPairs : Fact → Fact → List (Fact × Fact)
  | .all _ fs _ _, .all _ gs _ _ =>
    let alike := fs.length == gs.length && (fs.zip gs).all fun p => p.1.className == p.2.className
    if alike then fs.zip gs else []
  | .either _ a b _, .either _ a' b' _ => [(a, a'), (b, b')]
  | .negation _ f _ _, .negation _ g _ _ | .lens _ _ f _, .lens _ _ g _ | .prism _ _ f _, .prism _ _ g _
  | .each _ f _, .each _ g _ | .choice _ (some f) _, .choice _ (some g) _
  | .labeled _ _ f _, .labeled _ _ g _ => [(f, g)]
  | _, _ => []

/-- Adopts the source in the target and, where the classes agree, in its parts, down to `levels`
levels. -/
def adoptWithin : (levels : Nat) → Edits → Fact → Fact → Act Edits
  | 0, edits, _, _ => return edits
  | levels + 1, edits, target, source => do
    let target := target.edited edits
    let source := source.edited edits
    if target.cell = source.cell then return edits
    let edits ← (partPairs target source).foldlM (fun edits p =>
      if p.1.className == p.2.className then adoptWithin levels edits p.1 p.2 else pure edits) edits
    Act.put target.cell (.slots (← Act.ask (·.slots source.cell)))
    let part (f g : Fact) : Fact := if f.className == g.className then f else g
    return (target.cell, merge part target source) :: edits

/-- The parts of a node. Facts chosen from the value are not among them. -/
def parts : Fact → List Fact
  | .all _ fs _ _ => fs
  | .either _ a b _ => [a, b]
  | .negation _ f _ _ | .lens _ _ f _ | .prism _ _ f _ | .each _ f _ | .labeled _ _ f _ => [f]
  | .choice _ f _ => f.toList
  | _ => []

/-- Whether edits make a node below the given path a part of itself. -/
def reenters (edits : Edits) : (levels : Nat) → (path : List Loc) → Fact → Bool
  | 0, _, _ => false
  | levels + 1, path, f =>
    path.contains f.cell ||
      (parts ((edits.lookup f.cell).getD f)).any (reenters edits levels (f.cell :: path))

/-- Makes the target take over everything that the source holds. -/
def adopt (target source : Fact) : Act Edits := do
  let edits ← adoptWithin (target.depth + source.depth) [] target source
  if reenters edits (target.reach edits + 1) [] target then Act.misuse .bottomless
  return edits

end Fact

end Conform
