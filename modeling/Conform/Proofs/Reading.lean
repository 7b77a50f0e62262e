import Conform.Proofs.Quiet
import Conform.Proofs.Twins

/-!
# Checks read the store alone

How a check ends depends on nothing but the store: neither on what the source has still to give nor on what has been
logged. `Act.Reads` says so of an action, with one rule for every way of putting actions together; it is the case of
`Alike` in which the two stores are the same. Stateful facts are no exception, since what they advance is in the store.
-/

namespace Conform

open Act

/-- Whether an action does the same to every world with the same store, as far as the store goes. -/
def Act.Reads {α : Type} (a : Act α) : Prop := Alike Eq a a Eq

namespace Act

variable {α β : Type}

theorem reads_pure {x : α} : Reads (pure x) := alike_pure rfl

theorem reads_throw {e : Fault} : Reads (throw e : Act α) := alike_throw

theorem reads_misuse {m : Misuse} : Reads (misuse m : Act α) := alike_misuse

theorem reads_ask {f : Store → α} : Reads (ask f) := alike_ask fun _ _ h => congrArg f h

theorem Reads.bind {a : Act α} {f : α → Act β} (ha : a.Reads) (hf : ∀ x, (f x).Reads) : (a >>= f).Reads :=
  Alike.eq ha hf

theorem reads_put {l : Loc} {o : Object} : Reads (put l o) := by
  intro w u h
  rw [exec_put, exec_put, h]
  exact ⟨rfl, rfl⟩

theorem reads_freshNaN : Reads (onStore (·.freshNaN)) := by
  intro w u h
  rw [exec_onStore, exec_onStore, h]
  exact ⟨rfl, rfl⟩

theorem reads_written {o : Option String} : Reads (written o) := alike_written

theorem reads_decided {o : Option Bool} : Reads (decided o) := alike_decided

theorem reads_inRange {o : Option α} : Reads (inRange o) := by
  cases o with
  | none => exact reads_misuse
  | some x => exact reads_pure

theorem reads_view {v : Value} : Reads (view v) := reads_ask

theorem reads_equal {v w : Value} : Reads (equal v w) := reads_ask.bind fun _ => reads_decided

theorem reads_isIn {v : Value} {ws : List Value} : Reads (isIn v ws) := reads_ask.bind fun _ => reads_decided

theorem reads_render {v : Value} : Reads (render v) := reads_view.bind fun _ => reads_written

theorem reads_display {v : Value} : Reads (display v) := reads_view.bind fun _ => reads_written

theorem reads_number {n : Numeral} : Reads (number n) := by
  cases n with
  | nan => exact reads_freshNaN
  | _ => exact reads_pure

end Act

namespace Fact

theorem reads_described {f : Fact} : Reads f.described := reads_ask.bind fun _ => reads_written

theorem reads_reportUnless {ok : Bool} {message : Act String} (h : message.Reads) : Reads (reportUnless ok message) :=
  alike_reportUnless h

theorem reads_equalityReport {equal : Bool} {v x : Value} : Reads (equalityReport equal v x) :=
  reads_equal.bind fun _ => reads_reportUnless
    (reads_render.bind fun _ => reads_render.bind fun _ => reads_pure)

theorem reads_checkRange {c : Loc} {inside : Bool} {v : Value} : Reads (checkRange c inside v) := by
  have hspan : Reads (do written (← ask (spanText · c)) : Act String) := reads_ask.bind fun _ => reads_written
  refine reads_ask.bind fun _ => reads_view.bind fun _ => reads_ask.bind fun _ => ?_
  refine reads_view.bind fun _ => reads_view.bind fun _ => ?_
  split
  · exact hspan.bind fun _ => reads_render.bind fun _ => reads_pure
  · exact reads_reportUnless (reads_render.bind fun _ => hspan.bind fun _ => reads_pure)

theorem reads_items {v : Value} : Reads (items v) := by
  refine reads_ask.bind fun o => ?_
  split
  · exact reads_pure
  · exact reads_misuse
  · exact reads_misuse

theorem reads_elements {v : Value} : Reads (elements v) := by
  refine reads_ask.bind fun o => ?_
  split
  · exact reads_pure
  · exact reads_misuse

theorem reads_sum {x y : Value} : Reads (sum x y) := by
  refine reads_view.bind fun _ => reads_view.bind fun _ => ?_
  split
  · exact reads_inRange.bind fun _ => reads_number
  · exact reads_misuse

theorem reads_checkCounter {c : Loc} {v : Value} : Reads (checkCounter c v) := by
  have htake : Reads (takeNext c) := reads_ask.bind fun _ => reads_ask.bind fun _ => reads_sum.bind fun _ =>
    reads_put.bind fun _ => reads_pure
  refine htake.bind fun _ => reads_equal.bind fun _ => reads_reportUnless ?_
  exact reads_ask.bind fun _ => reads_display.bind fun _ => reads_render.bind fun _ => reads_render.bind fun _ =>
    reads_pure

theorem reads_checkDistinct {c : Loc} {v : Value} : Reads (checkDistinct c v) := by
  have hremember : Reads (remember c v) := by
    refine reads_ask.bind fun x => ?_
    split
    · exact reads_ask.bind fun _ => reads_put
    · exact reads_pure
  refine reads_ask.bind fun _ => reads_isIn.bind fun _ => hremember.bind fun _ => reads_reportUnless ?_
  exact reads_render.bind fun _ => reads_pure

theorem reads_checkTest {name : String} {test : Data → Bool} {v : Value} : Reads (checkTest name test v) :=
  reads_view.bind fun _ => reads_reportUnless (reads_render.bind fun _ => reads_pure)

theorem reads_part? {a : Accessor} {v : Value} : Reads (part? a v) := by
  refine Alike.bind alike_get fun w u (h : w.store = u.store) => ?_
  rw [h]
  split
  · exact reads_pure
  · split
    · exact reads_pure
    · exact reads_throw

theorem reads_checkMembership {c : Loc} {v : Value} : Reads (checkMembership c v) := by
  refine reads_ask.bind fun _ => reads_isIn.bind fun _ => reads_reportUnless ?_
  exact reads_ask.bind fun _ => reads_written.bind fun _ => reads_render.bind fun _ => reads_pure

theorem reads_checkCandidates {c : Loc} {v : Value} : Reads (checkCandidates c v) :=
  reads_ask.bind fun _ => reads_isIn.bind fun _ => reads_reportUnless (reads_render.bind fun _ => reads_pure)

theorem reads_checkLength {size : Int} {v : Value} : Reads (checkLength size v) :=
  reads_elements.bind fun _ => reads_reportUnless (reads_render.bind fun _ => reads_pure)

theorem reads_checkElements {check : Value → Act Report} (h : ∀ x, (check x).Reads) :
    ∀ (i : Nat) (xs : List Value), Reads (checkElements check i xs)
  | _, [] => reads_pure
  | i, x :: xs => (h x).bind fun _ => (reads_checkElements h (i + 1) xs).bind fun _ => reads_pure

mutual

/-- How a check ends depends on the store alone. -/
theorem reads_check : ∀ {f : Fact}, f.Formed → ∀ v, Reads (f.check v)
  | .always _, _, _ | .never _ _, _, _ => reads_pure
  | .equality _ _ _ _, _, _ => reads_ask.bind fun _ => reads_equalityReport
  | .membership _, _, _ => reads_checkMembership
  | .range _ _, _, _ => reads_checkRange
  | .pair _ _ _ _, _, _ => reads_items.bind fun _ => reads_equalityReport
  | .counter _, _, _ => reads_checkCounter
  | .distinct _ _ _, _, _ => reads_checkDistinct
  | .all _ _ _ _, hf, v => (reads_checkAll hf.2 0 v).bind fun _ => reads_pure
  | .either _ _ _ _, hf, v => (reads_check hf.2.1 v).bind fun _ => (reads_check hf.2.2 v).bind fun _ => reads_pure
  | .negation _ _ _ _, hf, v => (reads_check hf.2 v).bind fun _ => reads_reportUnless
      (reads_described.bind fun _ => reads_render.bind fun _ => reads_pure)
  | .lens _ _ _ _, hf, v => by
    refine reads_part?.bind fun o => ?_
    cases o with
    | none => exact reads_pure
    | some x => exact (reads_check hf.2 x).bind fun _ => reads_pure
  | .prism _ _ f _, hf, v => by
    refine reads_part?.bind fun o => ?_
    cases o with
    | none => exact reads_pure
    | some x =>
      -- the part is looked at only if it is not the stand-in for a missing one
      show Reads (if x.isAbsent then _ else _)
      split
      · exact reads_pure
      · exact (reads_check hf.2 x).bind fun _ => reads_pure
  | .each _ f _, hf, _ => reads_elements.bind fun xs =>
      (reads_checkElements (fun x => reads_check (f := f) hf.2 x) 0 xs).bind fun _ => reads_pure
  | .length _ _ _, _, _ => reads_checkLength
  | .mapped _ _ tests _ _, hf, v => reads_view.bind fun d =>
      (reads_checkPick hf.2.1 d tests (reads_check hf.2.2 v) v).bind fun _ => reads_pure
  | .predicate _ _ _, _, _ | .brute _ _ _ _ _, _, _ => reads_checkTest
  | .choice _ none _, _, _ => reads_checkCandidates
  | .choice _ (some _) _, hf, v => reads_checkCandidates.bind fun _ => (reads_check hf.2 v).bind fun _ => reads_pure
  | .labeled _ _ _ _, hf, v => (reads_check hf.2 v).bind fun _ => reads_pure
  | .foreign _ _, hf, _ => hf.elim

theorem reads_checkAll : ∀ {fs : List Fact}, FormedAll fs → ∀ (i : Nat) (v : Value), Reads (checkAll fs i v)
  | [], _, _, _ => reads_pure
  | _ :: _, hf, i, v => (reads_check hf.1 v).bind fun _ => (reads_checkAll hf.2 (i + 1) v).bind fun _ => reads_pure

theorem reads_checkPick : ∀ {fs : List Fact}, FormedAll fs → ∀ (d : Data) (tests : List (Data → Bool))
    {other : Act Report}, other.Reads → ∀ v : Value, Reads (checkPick d tests fs other v)
  | [], _, _, tests, _, hother, _ => by cases tests <;> exact hother
  | f :: fs, hf, d, tests, _, hother, v => by
    cases tests with
    | nil => exact hother
    | cons test tests =>
      rw [checkPick]
      split
      · exact reads_check hf.1 v
      · exact reads_checkPick hf.2 d tests hother v

end

/-- A stateless fact is checked in the same way in every world with the same store. -/
theorem exec_check_congr {f : Fact} (hf : f.Formed) (hs : f.stateful = false) {w u : World} (h : u.store = w.store)
    {v : Value} {r : Except Fault Report} (hr : exec (f.check v) w = (r, w)) : exec (f.check v) u = (r, u) := by
  have hends : (exec (f.check v) u).1 = (exec (f.check v) w).1 := Alike.ends (reads_check hf v) h
  rw [(quiet_check hf hs v).exec_eq u, hends, hr]

end Fact

end Conform
