import Conform.Proofs.Forming
import Conform.Proofs.Quiet

/-!
# Checks give no attributes

A check of a stateful fact advances the fact, but classes and enumerations keep the attributes that they
have been given (`given_check`). Only storing a part gives attributes, and no check stores one.
-/

namespace Conform

open Act

namespace Act

/-- Whether an action leaves the attributes that have been given as they are. -/
def Ungiving {α : Type} (a : Act α) : Prop := ∀ w, (exec a w).2.store.given = w.store.given

variable {α β : Type}

theorem Quiet.ungiving {a : Act α} (h : a.Quiet) : Ungiving a := fun w => by rw [h w]

theorem Ungiving.bind {a : Act α} {f : α → Act β} (ha : Ungiving a) (hf : ∀ x, Ungiving (f x)) :
    Ungiving (a >>= f) := by
  intro w
  have hfirst := ha w
  rw [exec_bind]
  rcases hrun : exec a w with ⟨e | x, u⟩
  · rw [hrun] at hfirst
    exact hfirst
  · rw [hrun] at hfirst
    exact (hf x u).trans hfirst

theorem ungiving_put {l : Loc} {o : Object} : Ungiving (put l o) := fun _ => rfl

theorem ungiving_number {n : Numeral} : Ungiving (number n) := by
  cases n with
  | nan => exact fun _ => rfl
  | _ => exact quiet_pure.ungiving

end Act

namespace Fact

/-! ## Copies -/

section

variable {f : Fact} {fs : List Fact}

theorem ungiving_copy : Ungiving f.copy := fun _ => rfl

theorem ungiving_copyAll : Ungiving (copyAll fs) := fun _ => rfl

theorem ungiving_probe : Ungiving f.probe := by
  unfold probe
  split
  · exact ungiving_copy
  · exact quiet_pure.ungiving

theorem ungiving_commitCells {targets sources : List Loc} : Ungiving (commitCells targets sources) := by
  have hpairs : ∀ ps : List (Loc × Loc),
      Ungiving (ps.forM fun p => do Act.put p.1 (.slots (← Act.ask (·.slots p.2)))) := by
    intro ps
    induction ps with
    | nil => exact quiet_pure.ungiving
    | cons p ps ih => exact (quiet_ask.ungiving.bind fun _ => ungiving_put).bind fun _ => ih
  exact hpairs _

end

/-! ## Checks -/

theorem ungiving_takeNext {c : Loc} : Ungiving (takeNext c) := by
  have hsum : ∀ a b : Value, Ungiving (sum a b) := by
    intro a b
    refine quiet_view.ungiving.bind fun _ => quiet_view.ungiving.bind fun _ => ?_
    split
    · next m n _ _ =>
      refine Ungiving.bind (a := inRange (m.add? n)) ?_ fun _ => ungiving_number
      intro w
      rw [exec_inRange]
    · exact quiet_misuse.ungiving
  refine quiet_ask.ungiving.bind fun _ => quiet_ask.ungiving.bind fun _ => ?_
  exact (hsum _ _).bind fun _ => ungiving_put.bind fun _ => quiet_pure.ungiving

theorem ungiving_remember {c : Loc} {v : Value} : Ungiving (remember c v) := by
  refine quiet_ask.ungiving.bind fun _ => ?_
  split
  · exact quiet_ask.ungiving.bind fun _ => ungiving_put
  · exact quiet_pure.ungiving

theorem ungiving_checkCounter {c : Loc} {v : Value} : Ungiving (checkCounter c v) := by
  refine ungiving_takeNext.bind fun _ => quiet_equal.ungiving.bind fun _ => Quiet.ungiving ?_
  refine quiet_reportUnless (quiet_ask.bind fun _ => ?_)
  exact (quiet_ask.bind fun _ => quiet_written).bind fun _ => quiet_render.bind fun _ =>
    quiet_render.bind fun _ => quiet_pure

theorem ungiving_checkDistinct {c : Loc} {v : Value} : Ungiving (checkDistinct c v) := by
  refine quiet_ask.ungiving.bind fun _ => quiet_isIn.ungiving.bind fun _ => ?_
  refine ungiving_remember.bind fun _ => Quiet.ungiving (quiet_reportUnless ?_)
  exact quiet_render.bind fun _ => quiet_pure

theorem ungiving_checkElements {check : Value → Act Report} (h : ∀ x, Ungiving (check x)) :
    ∀ (i : Nat) (xs : List Value), Ungiving (checkElements check i xs)
  | _, [] => quiet_pure.ungiving
  | i, x :: xs =>
    (h x).bind fun _ => (ungiving_checkElements h (i + 1) xs).bind fun _ => quiet_pure.ungiving

mutual

/-- A check leaves the attributes that have been given as they are. -/
theorem given_check : ∀ {f : Fact}, f.Formed → ∀ v, Ungiving (f.check v)
  | .always _, hf, v | .never _ _, hf, v | .equality _ _ _ _, hf, v | .membership _, hf, v
  | .range _ _, hf, v | .pair _ _ _ _, hf, v | .length _ _ _, hf, v | .mapped _ _ _ _ _, hf, v
  | .predicate _ _ _, hf, v | .brute _ _ _ _ _, hf, v => (quiet_check hf rfl v).ungiving
  | .choice _ none _, _, _ => quiet_checkCandidates.ungiving
  | .counter _, _, _ => ungiving_checkCounter
  | .distinct _ _ _, _, _ => ungiving_checkDistinct
  | .all _ fs _ _, hf, v =>
    (given_checkAll (show FormedAll fs from hf.2) 0 v).bind fun _ => quiet_pure.ungiving
  | .either _ f g _, hf, v =>
    (given_check hf.2.1 v).bind fun _ => (given_check hf.2.2 v).bind fun _ => quiet_pure.ungiving
  | .negation _ f _ _, hf, v => by
    refine (given_check hf.2 v).bind fun _ => Quiet.ungiving (quiet_reportUnless ?_)
    exact quiet_described.bind fun _ => quiet_render.bind fun _ => quiet_pure
  | .lens _ _ f _, hf, v => by
    refine quiet_part?.ungiving.bind fun o => ?_
    cases o with
    | none => exact quiet_pure.ungiving
    | some x => exact (given_check hf.2 x).bind fun _ => quiet_pure.ungiving
  | .prism _ _ f _, hf, v => by
    refine quiet_part?.ungiving.bind fun o => ?_
    cases o with
    | none => exact quiet_pure.ungiving
    | some x =>
      show Ungiving (if x.isAbsent then _ else _)
      split
      · exact quiet_pure.ungiving
      · exact (given_check hf.2 x).bind fun _ => quiet_pure.ungiving
  | .each _ f _, hf, v => by
    refine quiet_elements.ungiving.bind fun xs => ?_
    exact (ungiving_checkElements (fun x => given_check hf.2 x) 0 xs).bind fun _ => quiet_pure.ungiving
  | .choice _ (some f) _, hf, v =>
    quiet_checkCandidates.ungiving.bind fun _ =>
      (given_check hf.2 v).bind fun _ => quiet_pure.ungiving
  | .labeled _ _ f _, hf, v => (given_check hf.2 v).bind fun _ => quiet_pure.ungiving
  | .foreign _ _, hf, _ => hf.elim

theorem given_checkAll : ∀ {fs : List Fact}, FormedAll fs → ∀ (i : Nat) (v : Value),
    Ungiving (checkAll fs i v)
  | [], _, _, _ => quiet_pure.ungiving
  | _ :: fs, hf, i, v =>
    (given_check hf.1 v).bind fun _ =>
      (given_checkAll (show FormedAll fs from hf.2) (i + 1) v).bind fun _ => quiet_pure.ungiving

end

end Fact

end Conform
