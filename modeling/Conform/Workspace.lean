import Conform.Fact.Adopt
import Conform.Satisfy

/-!
# Workspaces

Facts and values under names, so that later steps can use the very objects that earlier ones made.
-/

namespace Conform

/-- Named facts and values, the latest first. -/
structure Workspace where
  facts : List (String × Fact)
  values : List (String × Value)
deriving Inhabited

namespace Workspace

/-- A workspace without names. -/
def empty : Workspace := ⟨[], []⟩

/-- The fact of a name. -/
def fact? (w : Workspace) (name : String) : Option Fact := w.facts.lookup name

/-- The value of a name. -/
def value? (w : Workspace) (name : String) : Option Value := w.values.lookup name

/-- Puts a fact under a name. -/
def define (w : Workspace) (name : String) (f : Fact) : Workspace :=
  { w with facts := (name, f) :: w.facts }

/-- Puts a value under a name. -/
def keep (w : Workspace) (name : String) (v : Value) : Workspace :=
  { w with values := (name, v) :: w.values }

/-- Makes one fact adopt another, and brings all named facts up to date. -/
def adopt (w : Workspace) (target source : Fact) : Act Workspace := do
  let edits ← target.adopt source
  return { w with facts := w.facts.map fun p => (p.1, p.2.edited edits) }

end Workspace

end Conform
