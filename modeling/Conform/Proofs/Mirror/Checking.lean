import Conform.Proofs.Fitting
import Conform.Proofs.Mirror.Drawing

/-!
# Checking in step

A fact whose cells are cells of a mirroring, and the same fact over the cells where these stand, check in
step (`agrees_check`): they end with the same report or the same fault, and leave worlds that mirror each
other. Only parts brought from outside are in question: accessors, of which the condition is asked, and
constraints and facts chosen from the value, whose cells a copy of the fact does not have of its own.
-/

namespace Conform

/-- Whether reading and storing a part go the same way in stores that mirror each other. Only keys and
code brought from outside are in question. -/
def Accessor.Mirrors (M : Mirroring) : Accessor → Prop
  | .item _ key => key.Within M.values
  | .custom _ get set => ∀ s t, M.Holds s t → ∀ v, v.Within M.values →
      get s v = get t v ∧ (∀ x, get t v = .ok x → x.Within M.values) ∧
        ∀ part, part.Within M.values → M.Outcome (Value.Within M.values) (set s v part) (set t v part)
  | _ => True

namespace Mirroring

namespace Holds

variable {M : Mirroring} {s t : Store} {v x part : Value} {a : Accessor}

theorem accessor_get_eq (h : M.Holds s t) (ha : a.Mirrors M) (hv : v.Within M.values) :
    a.get s v = a.get t v := by
  cases a with
  | attr n => exact h.getAttribute_eq hv n
  | item shown key => exact h.getItem_eq hv ha
  | optionalAttr n => simp only [Accessor.get, Accessor.getOptional, h.getAttribute_eq hv]
  | variant cls => simp only [Accessor.get, h.view_eq hv]
  | custom n get set => exact (ha s t h v hv).1

theorem accessor_get_within (h : M.Holds s t) (ha : a.Mirrors M) (hv : v.Within M.values)
    (hx : a.get t v = .ok x) : x.Within M.values := by
  cases a with
  | custom n get set => exact (ha s t h v hv).2.1 x hx
  | attr n => exact Accessor.get_within (a := .attr n) trivial h.closed h.owned hv hx
  | item shown key => exact Accessor.get_within (a := .item shown key) trivial h.closed h.owned hv hx
  | optionalAttr n => exact Accessor.get_within (a := .optionalAttr n) trivial h.closed h.owned hv hx
  | variant cls => exact Accessor.get_within (a := .variant cls) trivial h.closed h.owned hv hx

theorem accessor_set (h : M.Holds s t) (ha : a.Mirrors M) (hv : v.Within M.values)
    (hpart : part.Within M.values) :
    M.Outcome (Value.Within M.values) (a.set s v part) (a.set t v part) := by
  cases a with
  | attr n => exact h.setAttribute hv hpart
  | item shown key => exact h.setItem hv ha hpart
  | optionalAttr n => exact h.setAttribute hv hpart
  | variant cls => exact .ok ⟨rfl, hpart, h⟩
  | custom n get set => exact (ha s t h v hv).2.2 part hpart

end Holds

end Mirroring

namespace Fact

mutual

/-- Whether a fact has its cells among those of a mirroring. Facts chosen from the value and constraints
brought from outside are left aside. -/
def Lodged (M : Mirroring) : Fact → Prop
  | .all c fs _ _ => c ∈ M.cells ∧ LodgedAll M fs
  | .either c f g _ => c ∈ M.cells ∧ f.Lodged M ∧ g.Lodged M
  | .negation c f _ _ | .each c f _ | .labeled c _ f _ | .choice c (some f) _ => c ∈ M.cells ∧ f.Lodged M
  | .lens c a f _ | .prism c a f _ => c ∈ M.cells ∧ a.Mirrors M ∧ f.Lodged M
  | .mapped _ _ _ _ _ | .foreign _ _ => False
  | f => f.cell ∈ M.cells

/-- The same of several facts. -/
def LodgedAll (M : Mirroring) : List Fact → Prop
  | [] => True
  | f :: fs => f.Lodged M ∧ LodgedAll M fs

end

variable {M : Mirroring}

mutual

theorem Lodged.cells : ∀ {f : Fact}, f.Lodged M → ∀ c ∈ f.cells, c ∈ M.cells
  | .always _, h, _, hc | .never _ _, h, _, hc | .predicate _ _ _, h, _, hc | .pair _ _ _ _, h, _, hc
  | .brute _ _ _ _ _, h, _, hc | .membership _, h, _, hc | .range _ _, h, _, hc | .counter _, h, _, hc
  | .equality _ _ _ _, h, _, hc | .length _ _ _, h, _, hc | .distinct _ _ _, h, _, hc
  | .choice _ none _, h, _, hc => List.mem_singleton.mp hc ▸ h
  | .all _ fs _ _, h, c, hc => by
    rcases List.mem_cons.mp hc with rfl | hc
    · exact h.1
    · exact h.2.cells c hc
  | .either _ f g _, h, c, hc => by
    rcases List.mem_cons.mp hc with rfl | hc
    · exact h.1
    · rcases List.mem_append.mp hc with hc | hc
      · exact h.2.1.cells c hc
      · exact h.2.2.cells c hc
  | .negation _ f _ _, h, c, hc | .each _ f _, h, c, hc | .labeled _ _ f _, h, c, hc
  | .choice _ (some f) _, h, c, hc => by
    rcases List.mem_cons.mp hc with rfl | hc
    · exact h.1
    · exact h.2.cells c hc
  | .lens _ _ f _, h, c, hc | .prism _ _ f _, h, c, hc => by
    rcases List.mem_cons.mp hc with rfl | hc
    · exact h.1
    · exact h.2.2.cells c hc
  | .mapped _ _ _ _ _, h, _, _ | .foreign _ _, h, _, _ => h.elim

theorem LodgedAll.cells : ∀ {fs : List Fact}, LodgedAll M fs → ∀ c ∈ cellsAll fs, c ∈ M.cells
  | [], _, _, hc => absurd hc List.not_mem_nil
  | f :: fs, h, c, hc => by
    rcases List.mem_append.mp hc with hc | hc
    · exact h.1.cells c hc
    · exact h.2.cells c hc

end

theorem Lodged.cell {f : Fact} (h : f.Lodged M) : f.cell ∈ M.cells := by
  cases f with
  | choice c f b => cases f with
    | none => exact h
    | some f => exact h.1
  | all c fs n b => exact h.1
  | either c f g b => exact h.1
  | negation c f n b => exact h.1
  | lens c a f b => exact h.1
  | prism c a f b => exact h.1
  | each c f b => exact h.1
  | labeled c name f b => exact h.1
  | mapped c name tests fs f => exact h.elim
  | foreign c kind => exact h.elim
  | _ => exact h

end Fact

namespace Mirroring

open Conform.Fact

variable {M : Mirroring} {s t : Store} {c : Loc} {f : Fact} {v : Value}

/-! ## Cells -/

namespace Holds

theorem slots_eq (h : M.Holds s t) (hc : c ∈ M.cells) : s.slots (M.place c) = t.slots c := by
  rw [Store.slots, Store.slots, h.get c hc]

theorem slot_eq (h : M.Holds s t) (hc : c ∈ M.cells) (i : Nat) : s.slot (M.place c) i = t.slot c i := by
  rw [Store.slot, Store.slot, h.slots_eq hc]

theorem slots_within (h : M.Holds s t) (hc : c ∈ M.cells) : ∀ v ∈ t.slots c, v.Within M.values := by
  intro v hv
  unfold Store.slots at hv
  split at hv
  · next vs hget => exact Object.within_slots.mp (h.held c hc _ hget) v hv
  · cases hv

theorem slot_within (h : M.Holds s t) (hc : c ∈ M.cells) (i : Nat) : (t.slot c i).Within M.values :=
  Value.within_getD (h.slots_within hc)

/-! ## Texts -/

theorem spanText_eq (h : M.Holds s t) (hc : c ∈ M.cells) : spanText s (M.place c) = spanText t c := by
  have hlow := h.view_eq (h.slot_within hc 0)
  have hhigh := h.view_eq (h.slot_within hc 1)
  simp only [spanText, h.slot_eq hc, hlow, hhigh]

theorem optionsText_eq (h : M.Holds s t) (hc : c ∈ M.cells) :
    optionsText s (M.place c) = optionsText t c := by
  rw [optionsText, optionsText, h.slots_eq hc, h.viewAll_eq (h.slots_within hc)]

mutual

/-- A fact is written the same where its cells stand. -/
theorem text_eq (h : M.Holds s t) : ∀ (labels : Bool) (f : Fact), f.Lodged M →
    (f.move M.place).text s labels = f.text t labels
  | _, .always _, _ | _, .never _ _, _ | _, .predicate _ _ _, _ | _, .pair _ _ _ _, _
  | _, .brute _ _ _ _ _, _ | _, .length _ _ _, _ | _, .distinct _ _ _, _ => rfl
  | _, .mapped _ _ _ _ _, hf | _, .foreign _ _, hf => hf.elim
  | _, .membership c, hf => congrArg (call? "in_set") (h.optionsText_eq hf)
  | _, .range c inside, hf => congrArg (call? _) (h.spanText_eq hf)
  | _, .equality c _ _ _, hf | _, .counter c, hf => by
    have hc : c ∈ M.cells := hf
    simp only [move, text, h.slot_eq hc, h.view_eq (h.slot_within hc 0)]
  | _, .all _ fs _ _, hf => by simp only [move, text, h.textAll_eq fs hf.2]
  | _, .either _ f g _, hf => by
    simp only [move, text, h.text_eq true f hf.2.1, h.text_eq true g hf.2.2]
  | _, .negation _ f _ _, hf | _, .each _ f _, hf => by simp only [move, text, h.text_eq true f hf.2]
  | _, .lens _ a f _, hf | _, .prism _ a f _, hf => by simp only [move, text, h.text_eq true f hf.2.2]
  | labels, .labeled _ name f _, hf => by simp only [move, text, h.text_eq false f hf.2]
  | _, .choice c none _, hf => by
    have hc : c ∈ M.cells := hf
    simp only [move, text, h.slots_eq hc]
  | _, .choice c (some f) _, hf => by simp only [move, text, h.slots_eq hf.1, h.text_eq true f hf.2]

theorem textAll_eq (h : M.Holds s t) : ∀ fs : List Fact, LodgedAll M fs →
    textAll s (moveAll M.place fs) = textAll t fs
  | [], _ => rfl
  | f :: fs, hf => by simp only [moveAll, textAll, h.text_eq true f hf.1, h.textAll_eq fs hf.2]

end

end Holds

theorem agrees_described (hf : f.Lodged M) :
    M.Agrees (f.move M.place).described f.described fun _ => True :=
  Agrees.bind (p := fun _ => True) (agrees_ask fun _ _ h => ⟨h.text_eq true f hf, trivial⟩) fun _ _ =>
    agrees_written

theorem relates_giveUp {α β : Type} {P : α → β → Prop} {reason : String} {last : Option Report}
    (hf : f.Lodged M) : M.Relates ((f.move M.place).giveUp reason last) (f.giveUp reason last) P :=
  (agrees_described hf).bind fun _ _ => relates_throw

theorem relates_giveUp_bind {α β γ δ : Type} {P : γ → δ → Prop} {reason : String} {last : Option Report}
    {k : α → Act γ} {k' : β → Act δ} (hf : f.Lodged M) :
    M.Relates ((f.move M.place).giveUp reason last >>= k) (f.giveUp reason last >>= k') P :=
  (relates_giveUp (P := fun _ _ => False) hf).bind fun _ _ h => h.elim

/-! ## Reports -/

theorem agrees_slot (hc : c ∈ M.cells) {i : Nat} :
    M.Agrees (Act.ask (·.slot (M.place c) i)) (Act.ask (·.slot c i)) (Value.Within M.values) :=
  agrees_ask fun _ _ h => ⟨h.slot_eq hc i, h.slot_within hc i⟩

theorem agrees_slots (hc : c ∈ M.cells) :
    M.Agrees (Act.ask (·.slots (M.place c))) (Act.ask (·.slots c)) fun vs => ∀ v ∈ vs, v.Within M.values :=
  agrees_ask fun _ _ h => ⟨h.slots_eq hc, h.slots_within hc⟩

theorem agrees_reportUnless {ok : Bool} {a b : Act String} (h : M.Agrees a b fun _ => True) :
    M.Agrees (reportUnless ok a) (reportUnless ok b) fun _ => True := by
  unfold reportUnless
  split
  · exact agrees_pure trivial
  · exact h.bind fun _ _ => agrees_pure trivial

theorem agrees_equalityReport {equal : Bool} {w : Value} (hv : v.Within M.values) (hw : w.Within M.values) :
    M.Agrees (equalityReport equal v w) (equalityReport equal v w) fun _ => True := by
  refine (agrees_equal hv hw).bind fun same _ => agrees_reportUnless ?_
  exact (agrees_render hv).bind fun _ _ => (agrees_render hw).bind fun _ _ => agrees_pure trivial

theorem agrees_span (hc : c ∈ M.cells) : M.Agrees (do Act.written (← Act.ask (spanText · (M.place c))))
    (do Act.written (← Act.ask (spanText · c))) fun _ => True :=
  Agrees.bind (p := fun _ => True) (agrees_ask fun _ _ h => ⟨h.spanText_eq hc, trivial⟩) fun _ _ =>
    agrees_written

theorem agrees_checkRange {inside : Bool} (hc : c ∈ M.cells) (hv : v.Within M.values) :
    M.Agrees (checkRange (M.place c) inside v) (checkRange c inside v) fun _ => True := by
  refine (agrees_slot hc).bind fun low hlow => (agrees_view hlow).bind fun dl _ => ?_
  refine (agrees_slot hc).bind fun high hhigh => (agrees_view hhigh).bind fun dh _ => ?_
  refine (agrees_view hv).bind fun d _ => ?_
  split
  · exact (agrees_span hc).bind fun _ _ => (agrees_render hv).bind fun _ _ => agrees_pure trivial
  · refine agrees_reportUnless ?_
    exact (agrees_render hv).bind fun _ _ => (agrees_span hc).bind fun _ _ => agrees_pure trivial

theorem agrees_elements? (hv : v.Within M.values) : M.Agrees (Act.ask (·.elements? v)) (Act.ask (·.elements? v))
    fun o => ∀ xs, o = some xs → ∀ x ∈ xs, x.Within M.values :=
  agrees_ask fun _ _ h => ⟨h.elements?_eq hv, fun _ ho => Store.elements?_within h.closed hv ho⟩

theorem agrees_items (hv : v.Within M.values) :
    M.Agrees (items v) (items v) fun p => p.1.Within M.values ∧ p.2.Within M.values := by
  refine (agrees_elements? hv).bind fun o ho => ?_
  split
  · next a b =>
    have hxs := ho [a, b] rfl
    exact agrees_pure ⟨hxs a (by simp), hxs b (by simp)⟩
  · exact relates_misuse
  · exact relates_misuse

theorem agrees_elements (hv : v.Within M.values) :
    M.Agrees (elements v) (elements v) fun xs => ∀ x ∈ xs, x.Within M.values := by
  refine (agrees_elements? hv).bind fun o ho => ?_
  split
  · next xs => exact agrees_pure (ho xs rfl)
  · exact relates_misuse

theorem agrees_sum {a b : Value} (ha : a.Within M.values) (hb : b.Within M.values) :
    M.Agrees (sum a b) (sum a b) fun v => ∀ R, v.Within R := by
  refine (agrees_view ha).bind fun da _ => (agrees_view hb).bind fun db _ => ?_
  split
  · exact agrees_inRange.bind fun _ _ => agrees_number
  · exact relates_misuse

theorem agrees_takeNext (hc : c ∈ M.cells) :
    M.Agrees (takeNext (M.place c)) (takeNext c) (Value.Within M.values) := by
  refine (agrees_slot hc).bind fun initial hinitial => (agrees_slot hc).bind fun expected hexpected => ?_
  refine (agrees_sum hexpected (within_atom _)).bind fun next hnext => ?_
  refine (agrees_put hc ?_).bind fun _ _ => agrees_pure hexpected
  intro x hx
  simp only [List.mem_cons, List.not_mem_nil, or_false] at hx
  rcases hx with rfl | rfl
  · exact hinitial
  · exact hnext _

theorem agrees_seen (hc : c ∈ M.cells) :
    M.Agrees (seen (M.place c)) (seen c) fun vs => ∀ v ∈ vs, v.Within M.values := by
  refine agrees_ask fun s t h => ?_
  rw [h.slot_eq hc]
  have hslot := h.slot_within hc 0
  unfold Store.listItems
  split
  · next l heq =>
    rw [heq, Value.within_ref] at hslot
    rw [h.value hslot]
    split
    · next xs hget => exact ⟨rfl, Object.within_list.mp (h.object hslot hget)⟩
    · exact ⟨rfl, nofun⟩
  · exact ⟨rfl, nofun⟩

theorem agrees_remember (hc : c ∈ M.cells) (hv : v.Within M.values) :
    M.Agrees (remember (M.place c) v) (remember c v) fun _ => True := by
  refine (agrees_slot hc).bind fun x hx => ?_
  split
  · next l =>
    refine (agrees_seen hc).bind fun vs hvs => ?_
    refine agrees_put_value (Value.within_ref.mp hx) (Object.within_list.mpr fun y hy => ?_)
    rcases List.mem_append.mp hy with hy | hy
    · exact hvs y hy
    · cases List.mem_singleton.mp hy
      exact hv
  · exact agrees_pure trivial

theorem agrees_checkCounter (hc : c ∈ M.cells) (hv : v.Within M.values) :
    M.Agrees (checkCounter (M.place c) v) (checkCounter c v) fun _ => True := by
  refine (agrees_takeNext hc).bind fun expected hexpected => (agrees_equal hv hexpected).bind fun same _ => ?_
  refine agrees_reportUnless ?_
  refine (agrees_slot hc).bind fun initial hinitial => (agrees_display hinitial).bind fun _ _ => ?_
  exact (agrees_render hexpected).bind fun _ _ => (agrees_render hv).bind fun _ _ => agrees_pure trivial

theorem agrees_checkDistinct (hc : c ∈ M.cells) (hv : v.Within M.values) :
    M.Agrees (checkDistinct (M.place c) v) (checkDistinct c v) fun _ => True := by
  refine (agrees_seen hc).bind fun vs hvs => (agrees_isIn hv hvs).bind fun repeated _ => ?_
  refine (agrees_remember hc hv).bind fun _ _ => agrees_reportUnless ?_
  exact (agrees_render hv).bind fun _ _ => agrees_pure trivial

theorem agrees_checkTest {name : String} {test : Data → Bool} (hv : v.Within M.values) :
    M.Agrees (checkTest name test v) (checkTest name test v) fun _ => True := by
  refine (agrees_view hv).bind fun d _ => agrees_reportUnless ?_
  exact (agrees_render hv).bind fun _ _ => agrees_pure trivial

theorem agrees_checkElements {check check' : Value → Act Report} : ∀ {xs : List Value} {i : Nat},
    (∀ x ∈ xs, M.Agrees (check x) (check' x) fun _ => True) →
      M.Agrees (checkElements check i xs) (checkElements check' i xs) fun _ => True := by
  intro xs
  induction xs with
  | nil =>
    intro i _
    exact agrees_pure trivial
  | cons x xs ih =>
    intro i h
    refine (h x (by simp)).bind fun r _ => ?_
    exact (ih fun y hy => h y (by simp [hy])).bind fun _ _ => agrees_pure trivial

theorem agrees_part? {a : Accessor} (ha : a.Mirrors M) (hv : v.Within M.values) :
    M.Agrees (part? a v) (part? a v) fun o => ∀ x, o = some x → x.Within M.values := by
  refine relates_get.bind fun w u h => ?_
  rw [h.store.accessor_get_eq ha hv]
  split
  · next x hx =>
    refine agrees_pure ?_
    rintro y ⟨⟩
    exact h.store.accessor_get_within ha hv hx
  · split
    · exact agrees_pure nofun
    · exact relates_throw

theorem agrees_checkMembership (hc : c ∈ M.cells) (hv : v.Within M.values) :
    M.Agrees (checkMembership (M.place c) v) (checkMembership c v) fun _ => True := by
  refine (agrees_slots hc).bind fun vs hvs => (agrees_isIn hv hvs).bind fun _ _ => agrees_reportUnless ?_
  refine Agrees.bind (p := fun _ => True) (agrees_ask fun _ _ h => ⟨h.optionsText_eq hc, trivial⟩) fun t _ => ?_
  exact agrees_written.bind fun _ _ => (agrees_render hv).bind fun _ _ => agrees_pure trivial

theorem agrees_checkCandidates (hc : c ∈ M.cells) (hv : v.Within M.values) :
    M.Agrees (checkCandidates (M.place c) v) (checkCandidates c v) fun _ => True := by
  refine (agrees_slots hc).bind fun vs hvs => (agrees_isIn hv hvs).bind fun _ _ => agrees_reportUnless ?_
  exact (agrees_render hv).bind fun _ _ => agrees_pure trivial

theorem agrees_checkLength {size : Int} (hv : v.Within M.values) :
    M.Agrees (checkLength size v) (checkLength size v) fun _ => True := by
  refine (agrees_elements hv).bind fun xs _ => agrees_reportUnless ?_
  exact (agrees_render (within_atom _)).bind fun _ _ => agrees_pure trivial

/-! ## Facts -/

mutual

/-- A fact over the cells of a mirroring and the same fact where these stand check in step. -/
theorem agrees_check : ∀ {f : Fact} {v : Value}, f.Lodged M → v.Within M.values →
    M.Agrees ((f.move M.place).check v) (f.check v) fun _ => True
  | .always _, _, _, _ | .never _ _, _, _, _ => agrees_pure trivial
  | .equality _ _ _ _, _, h, hv => (agrees_slot h).bind fun _ hx => agrees_equalityReport hv hx
  | .membership _, _, h, hv => agrees_checkMembership h hv
  | .range _ _, _, h, hv => agrees_checkRange h hv
  | .pair _ _ _ _, _, _, hv => (agrees_items hv).bind fun _ hp => agrees_equalityReport hp.1 hp.2
  | .counter _, _, h, hv => agrees_checkCounter h hv
  | .distinct _ _ _, _, h, hv => agrees_checkDistinct h hv
  | .all _ _ _ _, _, h, hv => (agrees_checkAll h.2 hv).bind fun _ _ => agrees_pure trivial
  | .either _ _ _ _, _, h, hv =>
    (agrees_check h.2.1 hv).bind fun _ _ => (agrees_check h.2.2 hv).bind fun _ _ => agrees_pure trivial
  | .negation _ _ _ _, _, h, hv => by
    refine (agrees_check h.2 hv).bind fun r _ => agrees_reportUnless ?_
    exact (agrees_described h.2).bind fun _ _ => (agrees_render hv).bind fun _ _ => agrees_pure trivial
  | .lens _ _ _ _, _, h, hv => by
    refine (agrees_part? h.2.1 hv).bind fun o ho => ?_
    cases o with
    | none => exact agrees_pure trivial
    | some x => exact (agrees_check h.2.2 (ho x rfl)).bind fun _ _ => agrees_pure trivial
  | .prism _ _ _ _, _, h, hv => by
    refine (agrees_part? h.2.1 hv).bind fun o ho => ?_
    cases o with
    | none => exact agrees_pure trivial
    | some x =>
      dsimp only
      split
      · exact agrees_pure trivial
      · exact (agrees_check h.2.2 (ho x rfl)).bind fun _ _ => agrees_pure trivial
  | .each _ _ _, _, h, hv => by
    refine (agrees_elements hv).bind fun xs hxs => ?_
    exact (agrees_checkElements fun x hx => agrees_check h.2 (hxs x hx)).bind fun _ _ => agrees_pure trivial
  | .length _ _ _, _, _, hv => agrees_checkLength hv
  | .mapped _ _ _ _ _, _, h, _ | .foreign _ _, _, h, _ => h.elim
  | .predicate _ _ _, _, _, hv | .brute _ _ _ _ _, _, _, hv => agrees_checkTest hv
  | .choice _ none _, _, h, hv => agrees_checkCandidates h hv
  | .choice _ (some _) _, _, h, hv =>
    (agrees_checkCandidates h.1 hv).bind fun _ _ =>
      (agrees_check h.2 hv).bind fun _ _ => agrees_pure trivial
  | .labeled _ _ _ _, _, h, hv => (agrees_check h.2 hv).bind fun _ _ => agrees_pure trivial

theorem agrees_checkAll : ∀ {fs : List Fact} {i : Nat} {v : Value}, LodgedAll M fs → v.Within M.values →
    M.Agrees (checkAll (moveAll M.place fs) i v) (checkAll fs i v) fun _ => True
  | [], _, _, _, _ => agrees_pure trivial
  | f :: _, _, _, h, hv => by
    refine (agrees_check h.1 hv).bind fun r _ => ?_
    rw [label?_move]
    exact (agrees_checkAll h.2 hv).bind fun _ _ => agrees_pure trivial

end

end Mirroring

end Conform
