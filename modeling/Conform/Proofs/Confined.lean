import Conform.Proofs.Stateless

/-!
# Facts confined to a region

A fact is *confined* to a region if its cells lie there, and with them all that it holds, hands out or remembers.
Using it on a value of the region, or on a new one, writes to the region and to new places only, whether it answers or
raises: mutating a value (`Fact.Confined.mutate_outside`), mutating several one after the other
(`Fact.Confined.mutateElements_outside`), and satisfying a value, with the copies that a stateful fact is tried out on
(`Fact.Confined.runs_satisfy`).
-/

namespace Conform

open Act

namespace Fact

/-- Whether a fact is confined to a region: its cells lie there, its accessors read and write there, and its generators
make values that name places of it only. A stateful fact is copied, and a copy may name whatever takes attributes. -/
structure Confined (s : Store) (U : Set Place) (f : Fact) : Prop where
  formed : f.Formed
  region : s.Region U
  attributes : f.stateful = true → ∀ o, Place.attributes o ∈ U
  cells : ∀ n ∈ f.everyNode, Place.object n.cell ∈ U
  accessors : ∀ n ∈ f.everyNode, ∀ a ∈ n.accessor?, a.Fits (Arena.around s U False)
  generators : ∀ n ∈ f.everyNode, Draws (Arena.around s U False) n.generator?

variable {s : Store} {U : Set Place} {f : Fact} {v : Value} {xs : List Value} {w : World} {l : Loc}

namespace Confined

theorem free (h : f.Confined s U) {n : Fact} (hn : n ∈ f.everyNode) : (Arena.around s U False).Free n.cell :=
  ⟨.inl (h.cells n hn), .inl (h.cells n hn)⟩

theorem free_cells (h : f.Confined s U) : ∀ c ∈ f.cells, (Arena.around s U False).Free c := by
  intro c hc
  rw [← map_cell_nodes] at hc
  obtain ⟨n, hn, rfl⟩ := List.mem_map.mp hc
  exact h.free (List.mem_append_left _ hn)

theorem nodeFits (h : f.Confined s U) {n : Fact} (hn : n ∈ f.everyNode) (copied : Bool) :
    NodeFits (Arena.around s U False) copied n :=
  ⟨fun _ => (h.free hn).readable, h.accessors n hn, h.generators n hn⟩

theorem copies (h : f.Confined s U) : (Arena.around s U False).Copies f.stateful :=
  fun hs => Arena.TakesCopies.copyable fun o => .inl (h.attributes hs o)

/-- A confined fact can be used as it is. -/
theorem fits (h : f.Confined s U) : f.Fits (Arena.around s U False) false := by
  have hcopied : f.Fits (Arena.around s U False) true :=
    Fits.of_nodes h.formed (fun hs => ⟨h.copies hs, rfl⟩)
      (fun n hn => h.nodeFits (List.mem_append_left _ hn) true)
      fun n hn => h.nodeFits (List.mem_append_right _ hn) false
  -- a copy that stays where it is
  have hmove := hcopied.move (m := id) h.free_cells
  rwa [Fact.move_id] at hmove

theorem holds (h : f.Confined s U) (ho : s.Owned) : (Arena.around s U False).Holds s := h.region.holds ho

/-- What a run in the arena around the region leaves alone. -/
theorem outside (h : f.Confined w.store U) (ho : w.store.Owned) {α : Type} {a : Act α} {P : α → Prop}
    (ha : (Arena.around w.store U False).Runs a P) (hl : l < w.store.size) (hU : Place.object l ∉ U) :
    (exec a w).2.store.get? l = w.store.get? l :=
  (ha w (h.holds ho)).1.frame.outside hl hU

/-- Mutating a value of the region leaves alone what is outside. -/
theorem mutate_outside (h : f.Confined w.store U) (ho : w.store.Owned) (hv : v.Within U) (hl : l < w.store.size)
    (hU : Place.object l ∉ U) : (exec (f.mutate v) w).2.store.get? l = w.store.get? l :=
  h.outside ho (Arena.runs_mutate Arena.around_mutable h.fits (hv.mono Store.subset_around)) hl hU

end Confined

end Fact

namespace Arena

open Conform.Fact

variable {A : Arena}

/-- The loop around a fact that has its cells in the arena keeps the invariant, whether it answers or raises: every
attempt is made with the fact or with a copy, and what is taken over from a copy lies in the arena. -/
theorem runs_satisfyFrom_free (hA : A.Mutable) (hstrict : ¬ A.strict) {f : Fact} {budget : Int} (hf : f.Fits A false)
    (hcopies : A.Copies f.stateful) (hfree : f.stateful = true → ∀ c ∈ f.cells, A.Free c) :
    ∀ {left : Nat} {last : Report} {v : Value}, v.Within A.values →
      A.Runs (satisfyFrom f budget left last v) fun w => w.Within A.values := by
  intro left
  induction left with
  | zero =>
    intro last v _
    exact runs_log.bind fun _ _ => runs_rethrow fun h => absurd h hstrict
  | succ left ih =>
    intro last v hv
    rw [satisfyFrom]
    refine (runs_probe hcopies hf.probed).bind fun trial htrial => ?_
    refine (runs_mutate hA htrial.1 hv).attempt.bind fun r hr => ?_
    cases r with
    | ok w =>
      have hw := hr.1 w rfl
      refine (runs_verify hcopies hf.probed hw).bind fun report _ => ?_
      have hanswer : A.Runs (do
          if 1 < budget - left then
            Act.log .debug satisfyLogger
              ("satisfy succeeded on attempt " ++ (toString (budget - left) ++ "/" ++ toString budget))
          return w) fun w => w.Within A.values := by
        split
        · exact runs_log.bind fun _ _ => runs_pure hw
        · exact runs_pure hw
      dsimp only
      split
      · split
        · next hs => exact (runs_commitCells hA (hfree hs) (htrial.2 hs)).bind fun _ _ => hanswer
        · exact hanswer
      · exact runs_log.bind fun _ _ => ih hw
    | error e =>
      -- an attempt that has given up is reported and followed by the next; any other fault ends the loop
      cases e with
      | exhausted fact reason lastCheck =>
        refine (runs_reportGivenUp hcopies hf.probed hv).bind fun report _ => ?_
        exact runs_log.bind fun _ _ => ih hv
      | _ => exact runs_rethrow fun h => absurd h hstrict

end Arena

/-- Satisfying a value of the region, or a new one, writes to the region and to new places only. -/
theorem Fact.Confined.runs_satisfy {s : Store} {U : Set Place} {f : Fact} {v : Value} {attempts : Int}
    (h : f.Confined s U) (hv : v.Within (Arena.around s U False).values) :
    (Arena.around s U False).Runs (satisfy f v attempts) fun w => w.Within (Arena.around s U False).values := by
  unfold satisfy
  split
  · exact Arena.runs_rethrow fun hstrict => hstrict.elim
  · exact Arena.runs_satisfyFrom_free Arena.around_mutable id h.fits h.copies (fun _ => h.free_cells) hv

end Conform
