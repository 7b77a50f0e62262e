import Conform.Fact.Basic

/-!
# Copies

`Fact.copy` takes a copy of a fact to try something on: the copy has cells of its own, and copies of
all objects in them, so that nothing done with it shows in the fact itself. Sharing inside the tree is
kept. `Fact.commit` makes a fact take over what the slots of a copy of it hold.
-/

namespace Conform.Fact

/-- Copies of several facts, which share among them what the facts share. -/
def copyAll (fs : List Fact) : Act (List Fact) := do
  let r ← Act.onStore fun s => s.copy (cellsAll fs)
  return moveAll r.place fs

/-- A copy of a fact. -/
def copy (f : Fact) : Act Fact := do
  let r ← Act.onStore fun s => s.copy f.cells
  return f.move r.place

/-- A copy of a fact if using it advances it, else the fact itself. -/
def probe (f : Fact) : Act Fact := if f.stateful then f.copy else return f

/-- Makes every cell of the first list hold what its counterpart in the second holds. -/
def commitCells (targets sources : List Loc) : Act Unit :=
  (targets.zip sources).forM fun p => do
    Act.put p.1 (.slots (← Act.ask (·.slots p.2)))

/-- Makes a fact hold what a copy of it holds. -/
def commit (target trial : Fact) : Act Unit := commitCells target.cells trial.cells

end Conform.Fact
