import Conform.Proofs.Forming

/-!
# Checks that change nothing

`Act.Quiet a` says that an action leaves the world as it finds it, however it ends. Checking a stateless fact
is quiet (`quiet_check`): only counters and lists of values seen are written to by checks, and a stateless fact
has none. So what a stateless fact reports is a function of the world alone.
-/

namespace Conform

open Act

namespace Act

/-- Whether an action leaves every world as it is. -/
def Quiet {α : Type} (a : Act α) : Prop := ∀ w, (exec a w).2 = w

variable {α β : Type}

theorem quiet_pure {x : α} : Quiet (pure x) := fun _ => rfl

theorem quiet_throw {e : Fault} : Quiet (throw e : Act α) := fun _ => rfl

theorem quiet_misuse {m : Misuse} : Quiet (misuse m : Act α) := fun _ => rfl

theorem quiet_ask {f : Store → α} : Quiet (ask f) := fun _ => rfl

theorem quiet_get : Quiet (get : Act World) := fun _ => rfl

theorem Quiet.bind {a : Act α} {f : α → Act β} (ha : a.Quiet) (hf : ∀ x, (f x).Quiet) :
    (a >>= f).Quiet := by
  intro w
  have hw := ha w
  rw [exec_bind]
  rcases h : exec a w with ⟨_ | x, u⟩ <;> rw [h] at hw <;> subst hw
  · rfl
  · exact hf x u

/-- The rest of a quiet action runs in the world that the action was started in. -/
theorem Quiet.exec_bind {a : Act α} (ha : a.Quiet) (f : α → Act β) (w : World) :
    exec (a >>= f) w =
      match (exec a w).1 with
      | .ok x => exec (f x) w
      | .error e => (.error e, w) := by
  have hw := ha w
  rw [Act.exec_bind]
  rcases h : exec a w with ⟨_ | x, u⟩ <;> rw [h] at hw <;> subst hw <;> rfl

theorem Quiet.exec_eq {a : Act α} (ha : a.Quiet) (w : World) : exec a w = ((exec a w).1, w) :=
  Prod.ext rfl (ha w)

/-- The world that a quiet action leaves is the one that it was started in. -/
theorem Quiet.eq_of_exec {a : Act α} (ha : a.Quiet) {w u : World} {r : Except Fault α}
    (h : exec a w = (r, u)) : w = u := by
  have hw := ha w
  rw [h] at hw
  exact hw.symm

theorem quiet_written {o : Option String} : Quiet (written o) := by
  cases o
  · exact quiet_misuse
  · exact quiet_pure

theorem quiet_decided {o : Option Bool} : Quiet (decided o) := by
  cases o
  · exact quiet_misuse
  · exact quiet_pure

theorem quiet_view {v : Value} : Quiet (view v) := quiet_ask

theorem quiet_equal {v x : Value} : Quiet (equal v x) := quiet_ask.bind fun _ => quiet_decided

theorem quiet_isIn {v : Value} {xs : List Value} : Quiet (isIn v xs) :=
  quiet_ask.bind fun _ => quiet_decided

theorem quiet_render {v : Value} : Quiet (render v) := quiet_view.bind fun _ => quiet_written

end Act

namespace Fact

/-! ## What checks are made of -/

theorem quiet_described {f : Fact} : Quiet f.described := quiet_ask.bind fun _ => quiet_written

theorem quiet_reportUnless {ok : Bool} {message : Act String} (h : message.Quiet) :
    Quiet (reportUnless ok message) := by
  unfold reportUnless
  split
  · exact quiet_pure
  · exact h.bind fun _ => quiet_pure

theorem quiet_equalityReport {equal : Bool} {v x : Value} : Quiet (equalityReport equal v x) := by
  refine quiet_equal.bind fun _ => quiet_reportUnless ?_
  exact quiet_render.bind fun _ => quiet_render.bind fun _ => quiet_pure

theorem quiet_checkRange {c : Loc} {inside : Bool} {v : Value} : Quiet (checkRange c inside v) := by
  have hspan : Quiet (do written (← ask (spanText · c)) : Act String) :=
    quiet_ask.bind fun _ => quiet_written
  refine quiet_ask.bind fun _ => quiet_view.bind fun _ => quiet_ask.bind fun _ => ?_
  refine quiet_view.bind fun _ => quiet_view.bind fun _ => ?_
  split
  · exact hspan.bind fun _ => quiet_render.bind fun _ => quiet_pure
  · refine quiet_reportUnless ?_
    exact quiet_render.bind fun _ => hspan.bind fun _ => quiet_pure

theorem quiet_items {v : Value} : Quiet (items v) := by
  refine quiet_ask.bind fun o => ?_
  split
  · exact quiet_pure
  · exact quiet_misuse
  · exact quiet_misuse

theorem quiet_elements {v : Value} : Quiet (elements v) := by
  refine quiet_ask.bind fun o => ?_
  split
  · exact quiet_pure
  · exact quiet_misuse

theorem quiet_part? {a : Accessor} {v : Value} : Quiet (part? a v) := by
  refine quiet_get.bind fun w => ?_
  split
  · exact quiet_pure
  · split
    · exact quiet_pure
    · exact quiet_throw

theorem quiet_checkTest {name : String} {test : Data → Bool} {v : Value} :
    Quiet (checkTest name test v) :=
  quiet_view.bind fun _ => quiet_reportUnless (quiet_render.bind fun _ => quiet_pure)

theorem quiet_checkMembership {c : Loc} {v : Value} : Quiet (checkMembership c v) := by
  refine quiet_ask.bind fun _ => quiet_isIn.bind fun _ => quiet_reportUnless ?_
  exact quiet_ask.bind fun _ => quiet_written.bind fun _ => quiet_render.bind fun _ => quiet_pure

theorem quiet_checkCandidates {c : Loc} {v : Value} : Quiet (checkCandidates c v) := by
  refine quiet_ask.bind fun _ => quiet_isIn.bind fun _ => quiet_reportUnless ?_
  exact quiet_render.bind fun _ => quiet_pure

theorem quiet_checkLength {size : Int} {v : Value} : Quiet (checkLength size v) := by
  refine quiet_elements.bind fun _ => quiet_reportUnless ?_
  exact quiet_render.bind fun _ => quiet_pure

theorem quiet_checkElements {check : Value → Act Report} (h : ∀ x, (check x).Quiet) :
    ∀ (i : Nat) (xs : List Value), Quiet (checkElements check i xs) := by
  intro i xs
  induction xs generalizing i with
  | nil => exact quiet_pure
  | cons x xs ih => exact (h x).bind fun _ => (ih (i + 1)).bind fun _ => quiet_pure

/-! ## Stateless facts -/

mutual

/-- Checking a stateless fact changes nothing. -/
theorem quiet_check : ∀ {f : Fact}, f.Formed → f.stateful = false → ∀ v, Quiet (f.check v)
  | .always _, _, _, _ | .never _ _, _, _, _ => quiet_pure
  | .equality _ _ _ _, _, _, _ => quiet_ask.bind fun _ => quiet_equalityReport
  | .membership _, _, _, _ => quiet_checkMembership
  | .range _ _, _, _, _ => quiet_checkRange
  | .pair _ _ _ _, _, _, _ => quiet_items.bind fun _ => quiet_equalityReport
  | .counter _, _, hs, _ | .distinct _ _ _, _, hs, _ => nomatch hs
  | .all _ fs _ _, hf, hs, v =>
    (quiet_checkAll (show FormedAll fs from hf.2) (hf.1.symm.trans hs) 0 v).bind fun _ => quiet_pure
  | .either _ f g _, hf, hs, v => by
    obtain ⟨hfs, hgs⟩ := Bool.or_eq_false_iff.mp (hf.1.symm.trans hs)
    exact (quiet_check hf.2.1 hfs v).bind fun _ => (quiet_check hf.2.2 hgs v).bind fun _ => quiet_pure
  | .negation _ f _ _, hf, _, v => by
    refine (quiet_check hf.2 hf.1.2 v).bind fun _ => quiet_reportUnless ?_
    exact quiet_described.bind fun _ => quiet_render.bind fun _ => quiet_pure
  | .lens _ _ f _, hf, hs, v => by
    refine quiet_part?.bind fun o => ?_
    cases o with
    | none => exact quiet_pure
    | some x => exact (quiet_check hf.2 (hf.1.symm.trans hs) x).bind fun _ => quiet_pure
  | .prism _ _ f _, hf, hs, v => by
    refine quiet_part?.bind fun o => ?_
    cases o with
    | none => exact quiet_pure
    | some x =>
      -- the part is looked at only if it is not the stand-in for a missing one
      show Quiet (if x.isAbsent then _ else _)
      split
      · exact quiet_pure
      · exact (quiet_check hf.2 (hf.1.symm.trans hs) x).bind fun _ => quiet_pure
  | .each _ f _, hf, hs, v => by
    refine quiet_elements.bind fun xs => ?_
    refine Quiet.bind ?_ fun _ => quiet_pure
    exact quiet_checkElements (fun x => quiet_check hf.2 (hf.1.symm.trans hs) x) 0 xs
  | .length _ _ _, _, _, _ => quiet_checkLength
  | .mapped _ _ tests fs f, hf, _, v => by
    refine quiet_view.bind fun d => Quiet.bind ?_ fun _ => quiet_pure
    exact quiet_checkPick hf.2.1 hf.1.1 d tests (quiet_check hf.2.2 hf.1.2 v) v
  | .predicate _ _ _, _, _, _ | .brute _ _ _ _ _, _, _, _ => quiet_checkTest
  | .choice _ none _, _, _, _ => quiet_checkCandidates
  | .choice _ (some f) _, hf, hs, v =>
    quiet_checkCandidates.bind fun _ =>
      (quiet_check hf.2 (hf.1.symm.trans hs) v).bind fun _ => quiet_pure
  | .labeled _ _ f _, hf, hs, v => (quiet_check hf.2 (hf.1.symm.trans hs) v).bind fun _ => quiet_pure
  | .foreign _ _, hf, _, _ => hf.elim

theorem quiet_checkAll : ∀ {fs : List Fact}, FormedAll fs → fs.any stateful = false →
    ∀ (i : Nat) (v : Value), Quiet (checkAll fs i v)
  | [], _, _, _, _ => quiet_pure
  | f :: fs, hf, hs, i, v => by
    rw [List.any_cons] at hs
    obtain ⟨hfs, hrest⟩ := Bool.or_eq_false_iff.mp hs
    refine (quiet_check hf.1 hfs v).bind fun _ => ?_
    exact (quiet_checkAll hf.2 hrest (i + 1) v).bind fun _ => quiet_pure

theorem quiet_checkPick : ∀ {fs : List Fact}, FormedAll fs → fs.any stateful = false →
    ∀ (d : Data) (tests : List (Data → Bool)) {other : Act Report}, other.Quiet → ∀ v : Value,
    Quiet (checkPick d tests fs other v)
  | [], _, _, _, tests, _, hother, _ => by cases tests <;> exact hother
  | f :: fs, hf, hs, d, tests, other, hother, v => by
    rw [List.any_cons] at hs
    obtain ⟨hfs, hrest⟩ := Bool.or_eq_false_iff.mp hs
    cases tests with
    | nil => exact hother
    | cons test tests =>
      rw [checkPick]
      split
      · exact quiet_check hf.1 hfs v
      · exact quiet_checkPick hf.2 hrest d tests hother v

end

end Fact

end Conform
