import Conform.Proofs.Fitting

/-!
# Checking in an arena

Checking a fact that fits an arena keeps the invariant of the arena, however it ends: the only places
that it writes to are the cells of counters and the lists of the values seen.
-/

namespace Conform

namespace Arena

open Conform.Fact

variable {A : Arena}

theorem runs_described {f : Fact} : A.Runs f.described fun _ => True :=
  (runs_ask fun _ _ => trivial).bind fun _ (_ : True) => runs_written

theorem runs_giveUp {α : Type} {P : α → Prop} {f : Fact} {reason : String} {last : Option Report} :
    A.Runs (f.giveUp reason last : Act α) P :=
  runs_described.bind fun _ _ => runs_throw nofun

theorem runs_reportUnless {ok : Bool} {message : Act String} (h : A.Runs message fun _ => True) :
    A.Runs (reportUnless ok message) fun _ => True := by
  unfold reportUnless
  split
  · exact runs_pure trivial
  · exact h.bind fun _ _ => runs_pure trivial

theorem runs_equalityReport {equal : Bool} {v w : Value} :
    A.Runs (equalityReport equal v w) fun _ => True := by
  refine runs_equal.bind fun same _ => runs_reportUnless ?_
  exact runs_render.bind fun _ _ => runs_render.bind fun _ _ => runs_pure trivial

theorem runs_slot {c : Loc} {i : Nat} (hc : A.Readable c) :
    A.Runs (Act.ask (·.slot c i)) fun v => v.Within A.values :=
  runs_ask fun s hs => Value.within_getD (hc s hs)

/-- What is in a slot, where it does not matter where it lies. -/
theorem runs_anySlot {c : Loc} {i : Nat} : A.Runs (Act.ask (·.slot c i)) fun _ => True :=
  runs_ask fun _ _ => trivial

theorem runs_checkRange {c : Loc} {inside : Bool} {v : Value} :
    A.Runs (checkRange c inside v) fun _ => True := by
  have hspan : A.Runs (do Act.written (← Act.ask (spanText · c))) fun _ => True :=
    (runs_ask fun _ _ => trivial).bind fun _ (_ : True) => runs_written
  refine runs_anySlot.bind fun low _ => runs_view.bind fun dl _ => ?_
  refine runs_anySlot.bind fun high _ => runs_view.bind fun dh _ => ?_
  refine runs_view.bind fun d _ => ?_
  split
  · exact hspan.bind fun _ _ => runs_render.bind fun _ _ => runs_pure trivial
  · refine runs_reportUnless ?_
    exact runs_render.bind fun _ _ => hspan.bind fun _ _ => runs_pure trivial

theorem runs_elements? {v : Value} (hv : v.Within A.values) :
    A.Runs (Act.ask (·.elements? v)) fun o => ∀ xs, o = some xs → ∀ x ∈ xs, x.Within A.values :=
  runs_ask fun _ hs _ h => Store.elements?_within hs.closed hv h

theorem runs_items {v : Value} (hv : v.Within A.values) :
    A.Runs (items v) fun p => p.1.Within A.values ∧ p.2.Within A.values := by
  refine (runs_elements? hv).bind fun o ho => ?_
  split
  · next a b =>
    have hxs := ho [a, b] rfl
    exact runs_pure ⟨hxs a (by simp), hxs b (by simp)⟩
  · exact runs_misuse
  · exact runs_misuse

theorem runs_elements {v : Value} (hv : v.Within A.values) :
    A.Runs (elements v) fun xs => ∀ x ∈ xs, x.Within A.values := by
  refine (runs_elements? hv).bind fun o ho => ?_
  split
  · next xs => exact runs_pure (ho xs rfl)
  · exact runs_misuse

theorem runs_sum {a b : Value} : A.Runs (sum a b) fun v => ∀ R, v.Within R := by
  refine runs_view.bind fun da _ => runs_view.bind fun db _ => ?_
  split
  · exact runs_inRange.bind fun _ _ => runs_number
  · exact runs_misuse

/-- A number is no reference. -/
theorem ne_ref_of_within {v : Value} (h : ∀ R, v.Within R) {l : Loc} : v ≠ .ref l := by
  rintro rfl
  exact Value.within_ref.mp (h ∅)

theorem runs_takeNext {c : Loc} (hc : A.Free c) :
    A.Runs (takeNext c) fun v => v.Within A.values := by
  have hinitial : A.Runs (Act.ask (·.slot c 0)) fun v =>
      v.Within A.values ∧ ∀ l, v = .ref l → Place.object l ∈ A.writable := by
    refine runs_ask fun s hs => ⟨Value.within_getD (hs.slots_within hc.2), fun l hl => ?_⟩
    cases h : (s.slots c)[0]? with
    | none => simp [Store.slot, h, Value.null] at hl
    | some x =>
      rw [Store.slot, h] at hl
      cases hl
      exact hs.slots_writable hc.1 (List.mem_of_getElem? h)
  refine hinitial.bind fun initial hi => (runs_slot hc.readable).bind fun expected he => ?_
  refine runs_sum.bind fun next hn => ?_
  refine Runs.bind (P := fun _ => True) (runs_put hc.1 ?_ ?_) fun _ _ => runs_pure he
  · refine Object.within_slots.mpr fun v hv => ?_
    simp only [List.mem_cons, List.not_mem_nil, or_false] at hv
    rcases hv with rfl | rfl
    · exact hi.1
    · exact hn _
  · rintro vs ⟨⟩ m hm
    simp only [List.mem_cons, List.not_mem_nil, or_false] at hm
    rcases hm with hm | hm
    · exact hi.2 m hm.symm
    · exact absurd hm.symm (ne_ref_of_within hn)

theorem runs_seen {c : Loc} (hc : A.Free c) :
    A.Runs (seen c) fun vs => ∀ v ∈ vs, v.Within A.values := by
  refine runs_ask fun s hs v hv => ?_
  have hslot : (s.slot c 0).Within A.values := Value.within_getD (hs.slots_within hc.2)
  unfold Store.listItems at hv
  split at hv
  · next l heq =>
    split at hv
    · next xs hget =>
      rw [heq, Value.within_ref] at hslot
      exact Object.within_list.mp (hs.object hslot hget) v hv
    · cases hv
  · cases hv

theorem runs_remember {c : Loc} {v : Value} (hc : A.Free c) (hv : v.Within A.values) :
    A.Runs (remember c v) fun _ => True := by
  have hslot : A.Runs (Act.ask (·.slot c 0)) fun x =>
      ∀ l, x = .ref l → Place.object l ∈ A.writable := by
    refine runs_ask fun s hs l hl => ?_
    cases h : (s.slots c)[0]? with
    | none => simp [Store.slot, h, Value.null] at hl
    | some x =>
      rw [Store.slot, h] at hl
      cases hl
      exact hs.slots_writable hc.1 (List.mem_of_getElem? h)
  refine hslot.bind fun x hx => ?_
  split
  · next l =>
    refine (runs_seen hc).bind fun vs hvs => runs_put (hx l rfl) (Object.within_list.mpr ?_) nofun
    intro y hy
    rcases List.mem_append.mp hy with hy | hy
    · exact hvs y hy
    · cases List.mem_singleton.mp hy
      exact hv
  · exact runs_pure trivial

theorem runs_checkCounter {c : Loc} {v : Value} (hc : A.Free c) :
    A.Runs (checkCounter c v) fun _ => True := by
  refine (runs_takeNext hc).bind fun expected _ => runs_equal.bind fun same _ => ?_
  refine runs_reportUnless ?_
  refine runs_anySlot.bind fun _ _ => runs_display.bind fun _ _ => ?_
  exact runs_render.bind fun _ _ => runs_render.bind fun _ _ => runs_pure trivial

theorem runs_checkDistinct {c : Loc} {v : Value} (hc : A.Free c) (hv : v.Within A.values) :
    A.Runs (checkDistinct c v) fun _ => True := by
  refine (runs_seen hc).bind fun vs _ => runs_isIn.bind fun repeated _ => ?_
  refine (runs_remember hc hv).bind fun _ _ => runs_reportUnless ?_
  exact runs_render.bind fun _ _ => runs_pure trivial

theorem runs_checkTest {name : String} {test : Data → Bool} {v : Value} :
    A.Runs (checkTest name test v) fun _ => True := by
  refine runs_view.bind fun d _ => runs_reportUnless ?_
  exact runs_render.bind fun _ _ => runs_pure trivial

theorem runs_checkElements {check : Value → Act Report} : ∀ {xs : List Value} {i : Nat},
    (∀ x ∈ xs, A.Runs (check x) fun _ => True) → A.Runs (checkElements check i xs) fun _ => True := by
  intro xs
  induction xs with
  | nil =>
    intro i _
    exact runs_pure trivial
  | cons x xs ih =>
    intro i h
    refine (h x (by simp)).bind fun r _ => ?_
    exact (ih fun y hy => h y (by simp [hy])).bind fun _ _ => runs_pure trivial

theorem runs_part? {a : Accessor} {v : Value} (ha : a.Fits A) (hv : v.Within A.values) :
    A.Runs (part? a v) fun o => ∀ x, o = some x → x.Within A.values := by
  refine runs_get.bind fun w hw => ?_
  split
  · next x hx =>
    refine runs_pure ?_
    rintro y ⟨⟩
    exact Accessor.get_within ha.reads hw.closed hw.owned hv hx
  · next e he =>
    split
    · exact runs_pure nofun
    · exact runs_rethrow (Accessor.get_plain ha hw hv he)

theorem runs_checkMembership {c : Loc} {v : Value} :
    A.Runs (checkMembership c v) fun _ => True := by
  refine Runs.bind (P := fun _ => True) (runs_ask fun _ _ => trivial) fun vs _ => ?_
  refine runs_isIn.bind fun _ _ => runs_reportUnless ?_
  refine Runs.bind (P := fun _ => True) (runs_ask fun _ _ => trivial) fun t _ => ?_
  exact runs_written.bind fun _ _ => runs_render.bind fun _ _ => runs_pure trivial

theorem runs_checkCandidates {c : Loc} {v : Value} :
    A.Runs (checkCandidates c v) fun _ => True := by
  refine Runs.bind (P := fun _ => True) (runs_ask fun _ _ => trivial) fun vs _ => ?_
  refine runs_isIn.bind fun _ _ => runs_reportUnless ?_
  exact runs_render.bind fun _ _ => runs_pure trivial

theorem runs_checkLength {size : Int} {v : Value} (hv : v.Within A.values) :
    A.Runs (checkLength size v) fun _ => True := by
  refine (runs_elements hv).bind fun xs _ => runs_reportUnless ?_
  exact runs_render.bind fun _ _ => runs_pure trivial

mutual

/-- Checking a fact that fits an arena keeps its invariant. -/
theorem runs_check : ∀ {f : Fact} {v : Value}, f.Fits A false → v.Within A.values →
    A.Runs (f.check v) fun _ => True
  | .always _, _, _, _ | .never _ _, _, _, _ => runs_pure trivial
  | .equality _ _ _ _, _, _, _ => runs_anySlot.bind fun _ _ => runs_equalityReport
  | .membership _, _, _, _ => runs_checkMembership
  | .range _ _, _, _, _ => runs_checkRange
  | .pair _ _ _ _, _, _, hv => (runs_items hv).bind fun _ _ => runs_equalityReport
  | .counter _, _, h, _ => runs_checkCounter (h rfl)
  | .distinct _ _ _, _, h, hv => runs_checkDistinct (h.1 rfl) hv
  | .all _ _ _ _, _, h, hv => (runs_checkAll h.1 hv).bind fun _ _ => runs_pure trivial
  | .either _ _ _ _, _, h, hv =>
    (runs_check h.1 hv).bind fun _ _ => (runs_check h.2.1 hv).bind fun _ _ => runs_pure trivial
  | .negation _ _ _ _, _, h, hv => by
    refine (runs_check h.1 hv).bind fun r _ => runs_reportUnless ?_
    exact runs_described.bind fun _ _ => runs_render.bind fun _ _ => runs_pure trivial
  | .lens _ _ f _, _, h, hv => by
    refine (runs_part? h.1 hv).bind fun o ho => ?_
    split
    · next x => exact (runs_check h.2 (ho x rfl)).bind fun _ _ => runs_pure trivial
    · exact runs_pure trivial
  | .prism _ _ f _, _, h, hv => by
    refine (runs_part? h.1 hv).bind fun o ho => ?_
    split
    · next x =>
      split
      · exact runs_pure trivial
      · exact (runs_check h.2 (ho x rfl)).bind fun _ _ => runs_pure trivial
    · exact runs_pure trivial
  | .each _ f _, _, h, hv => by
    refine (runs_elements hv).bind fun xs hxs => ?_
    exact (runs_checkElements fun x hx => runs_check (f := f) h (hxs x hx)).bind
      fun _ _ => runs_pure trivial
  | .length _ _ _, _, _, hv => runs_checkLength hv
  | .mapped _ _ _ fs f, _, h, hv => by
    refine runs_view.bind fun d _ => ?_
    exact (runs_checkPick h.1 (runs_check h.2 hv) hv).bind fun _ _ => runs_pure trivial
  | .predicate _ _ _, _, _, _ | .brute _ _ _ _ _, _, _, _ => runs_checkTest
  | .choice _ none _, _, _, _ => runs_checkCandidates
  | .choice _ (some _) _, _, h, hv =>
    runs_checkCandidates.bind fun _ _ => (runs_check h.2.2.1 hv).bind fun _ _ => runs_pure trivial
  | .labeled _ _ f _, _, h, hv => (runs_check (f := f) h hv).bind fun _ _ => runs_pure trivial

theorem runs_checkAll : ∀ {fs : List Fact} {i : Nat} {v : Value}, FitsAll A false fs →
    v.Within A.values → A.Runs (checkAll fs i v) fun _ => True
  | [], _, _, _, _ => runs_pure trivial
  | _ :: _, _, _, h, hv =>
    (runs_check h.1 hv).bind fun _ _ => (runs_checkAll h.2 hv).bind fun _ _ => runs_pure trivial

theorem runs_checkPick : ∀ {fs : List Fact} {d : Data} {tests : List (Data → Bool)}
    {otherwise : Act Report} {v : Value}, FitsAll A false fs → A.Runs otherwise (fun _ => True) →
    v.Within A.values → A.Runs (checkPick d tests fs otherwise v) fun _ => True
  | [], _, tests, _, _, _, ho, _ => by cases tests <;> exact ho
  | f :: fs, d, tests, _, _, h, ho, hv => by
    cases tests with
    | nil => exact ho
    | cons test tests =>
      rw [checkPick]
      split
      · exact runs_check h.1 hv
      · exact runs_checkPick h.2 ho hv

end

end Arena

end Conform
