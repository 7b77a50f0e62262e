import Conform.Fact.Check
import Conform.Proofs.Fitting
import Conform.Proofs.Likeness
import Conform.Proofs.Run

/-!
# Checking twins

Two facts of the same shape are twins in two stores if what their cells hold corresponds. `Twins` says so
of pairs of cells, beside the image of the places that values lie in; `Fact.Twinned` says that the cells
of a fact and of its moved form are such pairs. Checking corresponding values then ends with the same
report, or with the same fault, and leaves twins behind (`alike_check`).

`Alike T a b P` relates two actions: started in stores related by `T` they end in such stores, with
answers related by `P` or with the same fault. There is one lemma for every way of putting actions
together, as for `Arena.Runs`.
-/

namespace Conform

open Act

/-! ## Actions side by side -/

/-- Whether two actions end alike from related stores, and leave related stores. -/
def Alike {α β : Type} (T : Store → Store → Prop) (a : Act α) (b : Act β) (P : α → β → Prop) : Prop :=
  ∀ w u : World, T w.store u.store → T (exec a w).2.store (exec b u).2.store ∧
    match (exec a w).1, (exec b u).1 with
    | .ok x, .ok y => P x y
    | .error e, .error f => e = f
    | _, _ => False

section

variable {T : Store → Store → Prop} {α β γ δ : Type} {P : α → β → Prop} {Q : γ → δ → Prop}

theorem alike_pure {x : α} {y : β} (h : P x y) : Alike T (pure x) (pure y) P :=
  fun _ _ hT => ⟨hT, h⟩

theorem alike_throw {e : Fault} : Alike T (throw e : Act α) (throw e : Act β) P :=
  fun _ _ hT => ⟨hT, rfl⟩

theorem alike_misuse {m : Misuse} : Alike T (misuse m : Act α) (misuse m : Act β) P := alike_throw

theorem Alike.bind {a : Act α} {b : Act β} {f : α → Act γ} {g : β → Act δ} (hab : Alike T a b P)
    (hfg : ∀ x y, P x y → Alike T (f x) (g y) Q) : Alike T (a >>= f) (b >>= g) Q := by
  intro w u hT
  obtain ⟨hT', hmatch⟩ := hab w u hT
  rw [exec_bind, exec_bind]
  rcases ha : exec a w with ⟨_ | x, w'⟩ <;> rcases hb : exec b u with ⟨_ | y, u'⟩
  · rw [ha, hb] at hT' hmatch
    exact ⟨hT', hmatch⟩
  · rw [ha, hb] at hmatch
    exact hmatch.elim
  · rw [ha, hb] at hmatch
    exact hmatch.elim
  · rw [ha, hb] at hT' hmatch
    exact hfg x y hmatch w' u' hT'

/-- Actions that end alike with equal answers end the same way. -/
theorem Alike.ends {a b : Act α} {w u : World} (hab : Alike T a b Eq) (hT : T w.store u.store) :
    (exec a w).1 = (exec b u).1 := by
  have hmatch := (hab w u hT).2
  rcases ha : (exec a w).1 with _ | x <;> rcases hb : (exec b u).1 with _ | y <;>
    rw [ha, hb] at hmatch
  · rw [hmatch]
  · exact hmatch.elim
  · exact hmatch.elim
  · rw [hmatch]

theorem alike_ask {f : Store → α} {g : Store → β} (h : ∀ s t, T s t → P (f s) (g t)) :
    Alike T (ask f) (ask g) P :=
  fun _ _ hT => ⟨hT, h _ _ hT⟩

theorem alike_get : Alike T (get : Act World) get fun w u => T w.store u.store :=
  fun _ _ hT => ⟨hT, hT⟩

theorem alike_written {o : Option String} : Alike T (written o) (written o) Eq := by
  cases o with
  | none => exact alike_misuse
  | some t => exact alike_pure rfl

theorem alike_decided {o : Option Bool} : Alike T (decided o) (decided o) Eq := by
  cases o with
  | none => exact alike_misuse
  | some b => exact alike_pure rfl

/-- Actions that go on with equal answers. -/
theorem Alike.eq {a : Act α} {b : Act α} {f : α → Act γ} {g : α → Act δ} (hab : Alike T a b Eq)
    (hfg : ∀ x, Alike T (f x) (g x) Q) : Alike T (a >>= f) (b >>= g) Q := by
  refine hab.bind fun x y hxy => ?_
  subst hxy
  exact hfg x

end

/-! ## Twins -/

/-- What the cells of a fact are for. -/
inductive CellKind
  | reference
  | counter
  | memory

/-- Whether pairs of cells hold what corresponds, beside the image of the places that values lie in. The
cells of counters are no such places, and each belongs to one pair only, so that advancing both of a pair
changes nothing else. -/
structure Twins (r : Relocation) (R : Set Place) (attrs : Prop) (K : CellKind → Loc → Loc → Prop)
    (s t : Store) : Prop extends Store.Image r R attrs s t where
  reference : ∀ c d, K .reference c d →
    (∀ v ∈ s.slots c, v.Refers R) ∧ t.slots d = (s.slots c).map (Value.move r)
  counter : ∀ c d, K .counter c d → ∃ a b n, b.integer? = some n ∧
    s.get? c = some (.slots [.atom a, .atom b]) ∧ t.get? d = some (.slots [.atom a, .atom b])
  memory : ∀ c d, K .memory c d → ∃ l xs, Place.object l ∈ R ∧ s.get? l = some (.list xs) ∧
    s.slots c = [.ref l] ∧ t.slots d = [.ref (r.place l)]
  once : ∀ c d, K .counter c d → ∀ k c' d', K k c' d' → (c = c' ↔ d = d')
  apart : ∀ c d, K .counter c d → Place.object c ∉ R ∧ ∀ l, Place.object l ∈ R → r.place l ≠ d

namespace Store

theorem slots_put_same {s : Store} {c : Loc} {vs : List Value} (h : c < s.size) :
    (s.put c (.slots vs)).slots c = vs := by
  rw [slots, get?_put_same h]

theorem slots_put_of_ne {s : Store} {c d : Loc} {o : Object} (h : c ≠ d) :
    (s.put c o).slots d = s.slots d := by
  rw [slots, slots, get?_put_of_ne h]

/-- A list in the place of a list changes no slots. -/
theorem slots_put_list {s : Store} {l c : Loc} {xs ys : List Value} (h : s.get? l = some (.list xs)) :
    (s.put l (.list ys)).slots c = s.slots c := by
  by_cases hlc : l = c
  · subst hlc
    rw [slots, slots, get?_put_same (lt_size_of_get? h), h]
  · exact slots_put_of_ne hlc

theorem slots_of_get? {s : Store} {c : Loc} {vs : List Value} (h : s.get? c = some (.slots vs)) :
    s.slots c = vs := by
  rw [slots, h]

theorem get?_of_slots {s : Store} {c : Loc} {vs : List Value} (h : s.slots c = vs) (hne : vs ≠ []) :
    s.get? c = some (.slots vs) := by
  unfold slots at h
  split at h
  · next us hget =>
    subst h
    exact hget
  · exact absurd h.symm hne

end Store

namespace Twins

variable {r : Relocation} {R : Set Place} {attrs : Prop} {K : CellKind → Loc → Loc → Prop}
  {s t : Store}

/-- Advancing both counters of a pair leaves twins. -/
theorem advance (h : Twins r R attrs K s t) {c d : Loc} (hK : K .counter c d) {a b : Atom} {n : Int}
    (hb : b.integer? = some n) :
    Twins r R attrs K (s.put c (.slots [.atom a, .atom b])) (t.put d (.slots [.atom a, .atom b])) := by
  obtain ⟨a₀, b₀, n₀, hb₀, hc, hd⟩ := h.counter c d hK
  obtain ⟨hcR, hdR⟩ := h.apart c d hK
  have hclt := Store.lt_size_of_get? hc
  have hdlt := Store.lt_size_of_get? hd
  have hother : ∀ k c' d', K k c' d' → c ≠ c' → d ≠ d' := fun k c' d' hK' hne heq =>
    hne ((h.once c d hK k c' d' hK').mpr heq)
  refine ⟨⟨?_, h.marks, ?_, h.inj, h.owned, h.given⟩, ?_, ?_, ?_, h.once, h.apart⟩
  · intro p hp q hq
    cases p with
    | attributes o => exact h.closed _ hp q hq
    | object m =>
      obtain ⟨o, ho, hq⟩ := hq
      have hne : c ≠ m := by
        rintro rfl
        exact hcR hp
      rw [Store.get?_put_of_ne hne] at ho
      exact h.closed _ hp q ⟨o, ho, hq⟩
  · intro l hl
    obtain ⟨o, ho, ho'⟩ := h.get l hl
    have hne : c ≠ l := by
      rintro rfl
      exact hcR hl
    refine ⟨o, ?_, ?_⟩
    · rw [Store.get?_put_of_ne hne, ho]
    · rw [Store.get?_put_of_ne fun heq => hdR l hl heq.symm, ho']
  · intro c' d' hK'
    by_cases hcc : c = c'
    · have hdd := (h.once c d hK _ c' d' hK').mp hcc
      subst hcc hdd
      rw [Store.slots_put_same hclt, Store.slots_put_same hdlt]
      refine ⟨fun v hv => ?_, by simp [Value.move_atom h.marks]⟩
      simp only [List.mem_cons, List.not_mem_nil, or_false] at hv
      rcases hv with rfl | rfl <;> exact Value.refers_of_refs rfl
    · rw [Store.slots_put_of_ne hcc, Store.slots_put_of_ne (hother _ c' d' hK' hcc)]
      exact h.reference c' d' hK'
  · intro c' d' hK'
    by_cases hcc : c = c'
    · have hdd := (h.once c d hK _ c' d' hK').mp hcc
      subst hcc hdd
      exact ⟨a, b, n, hb, Store.get?_put_same hclt, Store.get?_put_same hdlt⟩
    · rw [Store.get?_put_of_ne hcc, Store.get?_put_of_ne (hother _ c' d' hK' hcc)]
      exact h.counter c' d' hK'
  · intro c' d' hK'
    obtain ⟨l, xs, hl, hget, hslot, hslot'⟩ := h.memory c' d' hK'
    have hcc : c ≠ c' := by
      rintro rfl
      rw [Store.slots_of_get? hc] at hslot
      cases hslot
    have hne : c ≠ l := by
      rintro rfl
      exact hcR hl
    refine ⟨l, xs, hl, ?_, ?_, ?_⟩
    · rw [Store.get?_put_of_ne hne, hget]
    · rw [Store.slots_put_of_ne hcc, hslot]
    · rw [Store.slots_put_of_ne (hother _ c' d' hK' hcc), hslot']

/-- Remembering corresponding values in both lists of a pair leaves twins. -/
theorem remember (h : Twins r R attrs K s t) {l : Loc} {xs ys : List Value}
    (hl : Place.object l ∈ R) (hget : s.get? l = some (.list xs)) (hys : ∀ y ∈ ys, y.Within R) :
    Twins r R attrs K (s.put l (.list ys)) (t.put (r.place l) (.list (ys.map (Value.move r)))) := by
  obtain ⟨o, ho, ho'⟩ := h.get l hl
  rw [hget] at ho
  cases ho
  have hlt := Store.lt_size_of_get? hget
  have hlt' := Store.lt_size_of_get? ho'
  refine ⟨⟨?_, h.marks, ?_, h.inj, h.owned, h.given⟩, ?_, ?_, ?_, h.once, h.apart⟩
  · intro p hp q hq
    cases p with
    | attributes o => exact h.closed _ hp q hq
    | object m =>
      obtain ⟨o, ho, hq⟩ := hq
      by_cases hlm : l = m
      · subst hlm
        rw [Store.get?_put_same hlt] at ho
        cases ho
        exact Object.within_list.mpr hys q hq
      · rw [Store.get?_put_of_ne hlm] at ho
        exact h.closed _ hp q ⟨o, ho, hq⟩
  · intro m hm
    by_cases hlm : l = m
    · subst hlm
      refine ⟨.list ys, Store.get?_put_same hlt, ?_⟩
      rw [Store.get?_put_same hlt', Object.move, Value.moveAll_eq_map]
    · obtain ⟨o, ho, ho'⟩ := h.get m hm
      refine ⟨o, ?_, ?_⟩
      · rw [Store.get?_put_of_ne hlm, ho]
      · rw [Store.get?_put_of_ne fun heq => hlm (h.inj l m hl hm heq), ho']
  · intro c d hK
    rw [Store.slots_put_list hget, Store.slots_put_list ho']
    exact h.reference c d hK
  · intro c d hK
    obtain ⟨a, b, n, hb, hc, hd⟩ := h.counter c d hK
    have hne : l ≠ c := by
      rintro rfl
      rw [hget] at hc
      cases hc
    have hne' : r.place l ≠ d := by
      rintro rfl
      rw [ho'] at hd
      cases hd
    refine ⟨a, b, n, hb, ?_, ?_⟩
    · rw [Store.get?_put_of_ne hne, hc]
    · rw [Store.get?_put_of_ne hne', hd]
  · intro c d hK
    obtain ⟨m, zs, hm, hzs, hslot, hslot'⟩ := h.memory c d hK
    rw [Store.slots_put_list hget, Store.slots_put_list ho']
    by_cases hlm : l = m
    · subst hlm
      exact ⟨l, ys, hl, Store.get?_put_same hlt, hslot, hslot'⟩
    · exact ⟨m, zs, hm, by rw [Store.get?_put_of_ne hlm, hzs], hslot, hslot'⟩

end Twins

namespace Fact

mutual

/-- Whether the cells of a fact and of its moved form are pairs. A fact chosen from the value is not
moved, so its cells are paired with themselves. -/
def Twinned (attrs : Prop) (K : CellKind → Loc → Loc → Prop) : (m : Loc → Loc) → Fact → Prop
  | _, .always _ | _, .never _ _ | _, .predicate _ _ _ | _, .pair _ _ _ _ | _, .brute _ _ _ _ _
  | _, .length _ _ _ => True
  | m, .membership c | m, .range c _ | m, .equality c _ _ _ | m, .choice c none _ =>
    K .reference c (m c)
  | m, .counter c => K .counter c (m c)
  | m, .distinct c _ _ => K .memory c (m c)
  | m, .all _ fs _ _ => TwinnedAll attrs K m fs
  | m, .either _ f g _ => Twinned attrs K m f ∧ Twinned attrs K m g
  | m, .negation _ f _ _ | m, .each _ f _ | m, .labeled _ _ f _ => Twinned attrs K m f
  | m, .lens _ a f _ | m, .prism _ a f _ => a.Uniform attrs ∧ Twinned attrs K m f
  | _, .mapped _ _ _ fs f => TwinnedAll attrs K id fs ∧ Twinned attrs K id f
  | m, .choice c (some f) _ => K .reference c (m c) ∧ Twinned attrs K m f
  | _, .foreign _ _ => False

/-- The same of several facts. -/
def TwinnedAll (attrs : Prop) (K : CellKind → Loc → Loc → Prop) : (m : Loc → Loc) → List Fact → Prop
  | _, [] => True
  | m, f :: fs => Twinned attrs K m f ∧ TwinnedAll attrs K m fs

end

mutual

/-- A relocation that moves nothing changes no fact. -/
theorem move_id : ∀ f : Fact, f.move id = f
  | .always _ | .never _ _ | .predicate _ _ _ | .pair _ _ _ _ | .brute _ _ _ _ _ | .membership _
  | .range _ _ | .counter _ | .equality _ _ _ _ | .length _ _ _ | .distinct _ _ _ | .choice _ none _
  | .mapped _ _ _ _ _ | .foreign _ _ => rfl
  | .all _ fs _ _ => by simp [move, moveAll_id fs]
  | .either _ f g _ => by simp [move, move_id f, move_id g]
  | .negation _ f _ _ | .lens _ _ f _ | .prism _ _ f _ | .each _ f _ | .labeled _ _ f _
  | .choice _ (some f) _ => by simp [move, move_id f]

theorem moveAll_id : ∀ fs : List Fact, moveAll id fs = fs
  | [] => rfl
  | f :: fs => by simp [moveAll, move_id f, moveAll_id fs]

end

section

variable {r : Relocation} {R : Set Place} {attrs : Prop} {K : CellKind → Loc → Loc → Prop}
  {s t : Store} {m : Loc → Loc}

theorem view_slot (h : Twins r R attrs K s t) {c d : Loc} (hK : K .reference c d) {i : Nat} :
    (s.slot c i).Refers R ∧ t.slot d i = (s.slot c i).move r := by
  obtain ⟨hrefers, hslots⟩ := h.reference c d hK
  rw [Store.slot, Store.slot, hslots, List.getElem?_map]
  cases hx : (s.slots c)[i]? with
  | none => exact ⟨Value.refers_of_refs rfl, (Value.move_atom h.marks _).symm⟩
  | some x => exact ⟨hrefers x (List.mem_of_getElem? hx), rfl⟩

theorem spanText_eq (h : Twins r R attrs K s t) {c d : Loc} (hK : K .reference c d) :
    spanText t d = spanText s c := by
  obtain ⟨hl, hl'⟩ := view_slot h hK (i := 0)
  obtain ⟨hh, hh'⟩ := view_slot h hK (i := 1)
  simp only [spanText, hl', hh', Value.isNull_move h.marks, h.view_eq hl, h.view_eq hh]

theorem optionsText_eq (h : Twins r R attrs K s t) {c d : Loc} (hK : K .reference c d) :
    optionsText t d = optionsText s c := by
  obtain ⟨hrefers, hslots⟩ := h.reference c d hK
  rw [optionsText, optionsText, hslots, h.viewAll_eq hrefers]

mutual

/-- Twins have the same text. -/
theorem text_eq (h : Twins r R attrs K s t) : ∀ (labels : Bool) (f : Fact), Twinned attrs K m f →
    (f.move m).text t labels = f.text s labels
  | _, .always _, _ | _, .never _ _, _ | _, .predicate _ _ _, _ | _, .pair _ _ _ _, _
  | _, .brute _ _ _ _ _, _ | _, .length _ _ _, _ | _, .distinct _ _ _, _
  | _, .mapped _ _ _ _ _, _ => rfl
  | _, .membership c, hf => by simp only [move, text, optionsText_eq h hf]
  | _, .range c _, hf => by simp only [move, text, spanText_eq h hf]
  | _, .equality c _ _ _, hf => by
    obtain ⟨hrefers, heq⟩ := view_slot h hf (i := 0)
    simp only [move, text, heq, h.view_eq hrefers]
  | _, .counter c, hf => by
    obtain ⟨a, b, n, -, hc, hd⟩ := h.counter c (m c) hf
    simp only [move, text, Store.slot, Store.slots_of_get? hc, Store.slots_of_get? hd]
    rfl
  | _, .all _ fs _ _, hf => by simp only [move, text, textAll_eq h fs hf]
  | _, .either _ f g _, hf => by simp only [move, text, text_eq h true f hf.1, text_eq h true g hf.2]
  | _, .negation _ f _ _, hf => by simp only [move, text, text_eq h true f hf]
  | _, .each _ f _, hf => by simp only [move, text, text_eq h true f hf]
  | _, .lens _ a f _, hf => by simp only [move, text, text_eq h true f hf.2]
  | _, .prism _ a f _, hf => by simp only [move, text, text_eq h true f hf.2]
  | labels, .labeled _ name f _, hf => by simp only [move, text, text_eq h false f hf]
  | _, .choice c none _, hf => by
    simp only [move, text, (h.reference c (m c) hf).2, List.length_map]
  | _, .choice c (some f) _, hf => by
    simp only [move, text, (h.reference c (m c) hf.1).2, List.length_map, text_eq h true f hf.2]

theorem textAll_eq (h : Twins r R attrs K s t) : ∀ fs : List Fact, TwinnedAll attrs K m fs →
    textAll t (moveAll m fs) = textAll s fs
  | [], _ => rfl
  | f :: fs, hf => by simp only [moveAll, textAll, text_eq h true f hf.1, textAll_eq h fs hf.2]

end

end

end Fact

/-! ## Checking -/

section

open Conform.Fact

variable {r : Relocation} {R : Set Place} {attrs : Prop} {K : CellKind → Loc → Loc → Prop}
  {m : Loc → Loc} {v w : Value} {c d : Loc}

/-- That a value is the moved form of one whose objects are in the set. -/
def Moved (r : Relocation) (R : Set Place) (v w : Value) : Prop := v.Refers R ∧ w = v.move r

theorem alike_view (hv : v.Refers R) :
    Alike (Twins r R attrs K) (view v) (view (v.move r)) Eq :=
  alike_ask fun _ _ h => (h.view_eq hv).symm

theorem alike_render (hv : v.Refers R) :
    Alike (Twins r R attrs K) (render v) (render (v.move r)) Eq :=
  (alike_view hv).eq fun _ => alike_written

theorem alike_display (hv : v.Refers R) :
    Alike (Twins r R attrs K) (display v) (display (v.move r)) Eq :=
  (alike_view hv).eq fun _ => alike_written

theorem alike_equal (hv : v.Refers R) (hw : w.Refers R) :
    Alike (Twins r R attrs K) (equal v w) (equal (v.move r) (w.move r)) Eq :=
  Alike.eq (alike_ask fun _ _ h => (h.equal?_move v w hv hw).symm) fun _ => alike_decided

theorem alike_isIn (hv : v.Refers R) {ws : List Value} (hws : ∀ w ∈ ws, w.Refers R) :
    Alike (Twins r R attrs K) (isIn v ws) (isIn (v.move r) (ws.map (Value.move r))) Eq :=
  Alike.eq (alike_ask fun _ _ h => (h.isIn?_move hv hws).symm) fun _ => alike_decided

theorem alike_reportUnless {ok : Bool} {a b : Act String} {T : Store → Store → Prop}
    (h : Alike T a b Eq) : Alike T (reportUnless ok a) (reportUnless ok b) Eq := by
  unfold reportUnless
  split
  · exact alike_pure rfl
  · exact h.eq fun _ => alike_pure rfl

theorem alike_equalityReport {equal : Bool} (hv : v.Refers R) (hw : w.Refers R) :
    Alike (Twins r R attrs K) (equalityReport equal v w)
      (equalityReport equal (v.move r) (w.move r)) Eq := by
  refine (alike_equal hv hw).eq fun same => alike_reportUnless ?_
  exact (alike_render hv).eq fun _ => (alike_render hw).eq fun _ => alike_pure rfl

theorem alike_slot (hK : K .reference c d) {i : Nat} :
    Alike (Twins r R attrs K) (ask (·.slot c i)) (ask (·.slot d i)) (Moved r R) :=
  alike_ask fun _ _ h => view_slot h hK

theorem alike_slots (hK : K .reference c d) :
    Alike (Twins r R attrs K) (ask (·.slots c)) (ask (·.slots d))
      fun vs ws => (∀ v ∈ vs, v.Refers R) ∧ ws = vs.map (Value.move r) :=
  alike_ask fun _ _ h => h.reference c d hK

theorem alike_span (hK : K .reference c d) :
    Alike (Twins r R attrs K) (do written (← ask (spanText · c)))
      (do written (← ask (spanText · d))) Eq :=
  Alike.eq (alike_ask fun _ _ h => (spanText_eq h hK).symm) fun _ => alike_written

theorem alike_checkRange (hK : K .reference c d) {inside : Bool} (hv : v.Refers R) :
    Alike (Twins r R attrs K) (checkRange c inside v) (checkRange d inside (v.move r)) Eq := by
  refine (alike_slot hK).bind fun low low' hlow => ?_
  obtain ⟨hl, rfl⟩ := hlow
  refine (alike_view hl).eq fun dl => (alike_slot hK).bind fun high high' hhigh => ?_
  obtain ⟨hh, rfl⟩ := hhigh
  refine (alike_view hh).eq fun dh => (alike_view hv).eq fun dv => ?_
  split
  · exact (alike_span hK).eq fun _ => (alike_render hv).eq fun _ => alike_pure rfl
  · refine alike_reportUnless ?_
    exact (alike_render hv).eq fun _ => (alike_span hK).eq fun _ => alike_pure rfl

theorem alike_elements? (hv : v.Within R) :
    Alike (Twins r R attrs K) (ask (·.elements? v)) (ask (·.elements? (v.move r)))
      fun o p => p = o.map (List.map (Value.move r)) ∧ ∀ xs, o = some xs → ∀ x ∈ xs, x.Within R :=
  alike_ask fun _ _ h => ⟨h.elements?_move hv.refers, fun _ hxs =>
    Store.elements?_within h.closed hv hxs⟩

theorem alike_items (hv : v.Within R) :
    Alike (Twins r R attrs K) (items v) (items (v.move r))
      fun p q => (p.1.Within R ∧ p.2.Within R) ∧ q = (p.1.move r, p.2.move r) := by
  refine (alike_elements? hv).bind fun o p hop => ?_
  obtain ⟨rfl, hxs⟩ := hop
  rcases o with _ | (_ | ⟨a, _ | ⟨b, _ | ⟨e, rest⟩⟩⟩)
  · exact alike_misuse
  · exact alike_misuse
  · exact alike_misuse
  · exact alike_pure ⟨⟨hxs _ rfl a (by simp), hxs _ rfl b (by simp)⟩, rfl⟩
  · exact alike_misuse

theorem alike_elements (hv : v.Within R) :
    Alike (Twins r R attrs K) (elements v) (elements (v.move r))
      fun xs ys => (∀ x ∈ xs, x.Within R) ∧ ys = xs.map (Value.move r) := by
  refine (alike_elements? hv).bind fun o p hop => ?_
  obtain ⟨rfl, hxs⟩ := hop
  cases o with
  | none => exact alike_misuse
  | some xs => exact alike_pure ⟨hxs xs rfl, rfl⟩

theorem numeral?_of_integer? {a : Atom} {n : Int} (h : a.integer? = some n) :
    a.numeral? = some (.int n) := by
  cases a with
  | float x => cases h
  | nan k => cases h
  | _ => simp only [Atom.numeral?, h, Option.map_some]

/-- A counter gives the integer it expects and goes on to the next one. -/
theorem exec_takeNext {a b : Atom} {n : Int} {u : World} (hb : b.integer? = some n)
    (hget : u.store.get? c = some (.slots [.atom a, .atom b])) :
    exec (takeNext c) u =
      (.ok (.atom b), { u with store := u.store.put c (.slots [.atom a, .atom (.int (n + 1))]) }) := by
  have hslots := Store.slots_of_get? hget
  have hinitial : u.store.slot c 0 = .atom a := by rw [Store.slot, hslots]; rfl
  have hexpected : u.store.slot c 1 = .atom b := by rw [Store.slot, hslots]; rfl
  have hnumeral : (u.store.view (.atom b)).numeral? = some (.int n) := numeral?_of_integer? hb
  have hone : (u.store.view (.int 1)).numeral? = some (.int 1) := rfl
  have hsum : exec (sum (.atom b) (.int 1)) u = (.ok (.int (n + 1)), u) := by
    simp only [sum, exec_bind, exec_view, hnumeral, hone]
    rfl
  simp only [takeNext, exec_bind, exec_ask, hinitial, hexpected, hsum, exec_put, exec_pure]
  rfl

theorem alike_takeNext (hK : K .counter c d) :
    Alike (Twins r R attrs K) (takeNext c) (takeNext d) fun x y => Moved r R x y := by
  intro u u' h
  obtain ⟨a, b, n, hb, hc, hd⟩ := h.counter c d hK
  rw [exec_takeNext hb hc, exec_takeNext hb hd]
  refine ⟨h.advance hK rfl, Value.refers_of_refs rfl, (Value.move_atom h.marks b).symm⟩

theorem alike_firstSlot (hK : K .counter c d) :
    Alike (Twins r R attrs K) (ask (·.slot c 0)) (ask (·.slot d 0)) (Moved r R) := by
  refine alike_ask fun s t h => ?_
  obtain ⟨a, b, n, -, hc, hd⟩ := h.counter c d hK
  rw [Store.slot, Store.slot, Store.slots_of_get? hc, Store.slots_of_get? hd]
  exact ⟨Value.refers_of_refs rfl, (Value.move_atom h.marks a).symm⟩

theorem alike_checkCounter (hK : K .counter c d) (hv : v.Refers R) :
    Alike (Twins r R attrs K) (checkCounter c v) (checkCounter d (v.move r)) Eq := by
  refine (alike_takeNext hK).bind fun x y hxy => ?_
  obtain ⟨hx, rfl⟩ := hxy
  refine (alike_equal hv hx).eq fun same => alike_reportUnless ?_
  refine (alike_firstSlot hK).bind fun i j hij => ?_
  obtain ⟨hi, rfl⟩ := hij
  refine (alike_display hi).eq fun _ => (alike_render hx).eq fun _ => ?_
  exact (alike_render hv).eq fun _ => alike_pure rfl

/-- What a twin of a distinct fact holds in its slot and in its list. -/
theorem seen_twin {s t : Store} (h : Twins r R attrs K s t) (hK : K .memory c d) :
    ∃ l xs, Place.object l ∈ R ∧ s.get? l = some (.list xs) ∧ s.slot c 0 = .ref l ∧
      t.slot d 0 = .ref (r.place l) ∧ s.listItems (s.slot c 0) = xs ∧
      t.listItems (t.slot d 0) = xs.map (Value.move r) ∧ ∀ x ∈ xs, x.Within R := by
  obtain ⟨l, xs, hl, hget, hslot, hslot'⟩ := h.memory c d hK
  obtain ⟨o, ho, ho'⟩ := h.get l hl
  rw [hget] at ho
  cases ho
  have hs : s.slot c 0 = .ref l := by rw [Store.slot, hslot]; rfl
  have ht : t.slot d 0 = .ref (r.place l) := by rw [Store.slot, hslot']; rfl
  refine ⟨l, xs, hl, hget, hs, ht, ?_, ?_, ?_⟩
  · rw [hs, Store.listItems, hget]
  · rw [ht, Store.listItems, ho', Object.move, Value.moveAll_eq_map]
  · exact Object.within_list.mp (h.closed.object hl hget)

theorem alike_seen (hK : K .memory c d) :
    Alike (Twins r R attrs K) (seen c) (seen d)
      fun xs ys => (∀ x ∈ xs, x.Within R) ∧ ys = xs.map (Value.move r) := by
  refine alike_ask fun s t h => ?_
  obtain ⟨l, xs, -, -, -, -, hxs, hys, hR⟩ := seen_twin h hK
  rw [hxs, hys]
  exact ⟨hR, rfl⟩

theorem alike_remember (hK : K .memory c d) (hv : v.Within R) :
    Alike (Twins r R attrs K) (remember c v) (remember d (v.move r)) Eq := by
  intro u u' h
  obtain ⟨l, xs, hl, hget, hs, ht, hxs, hys, hR⟩ := seen_twin h hK
  simp only [remember, seen, exec_bind, exec_ask, hs, ht, exec_put]
  rw [hs] at hxs
  rw [ht] at hys
  rw [hxs, hys]
  refine ⟨?_, trivial⟩
  have hnew : ∀ y ∈ xs ++ [v], y.Within R := by
    intro y hy
    rcases List.mem_append.mp hy with hy | hy
    · exact hR y hy
    · cases List.mem_singleton.mp hy
      exact hv
  simpa using h.remember hl hget hnew

theorem alike_checkDistinct (hK : K .memory c d) (hv : v.Within R) :
    Alike (Twins r R attrs K) (checkDistinct c v) (checkDistinct d (v.move r)) Eq := by
  refine (alike_seen hK).bind fun xs ys hxs => ?_
  obtain ⟨hR, rfl⟩ := hxs
  refine (alike_isIn hv.refers fun x hx => (hR x hx).refers).eq fun repeated => ?_
  refine (alike_remember hK hv).eq fun _ => alike_reportUnless ?_
  exact (alike_render hv.refers).eq fun _ => alike_pure rfl

theorem alike_checkTest {name : String} {test : Data → Bool} (hv : v.Refers R) :
    Alike (Twins r R attrs K) (checkTest name test v) (checkTest name test (v.move r)) Eq := by
  refine (alike_view hv).eq fun dv => alike_reportUnless ?_
  exact (alike_render hv).eq fun _ => alike_pure rfl

theorem alike_checkElements {check check' : Value → Act Report} :
    ∀ {xs : List Value} {i : Nat},
      (∀ x ∈ xs, Alike (Twins r R attrs K) (check x) (check' (x.move r)) Eq) →
      Alike (Twins r R attrs K) (checkElements check i xs)
        (checkElements check' i (xs.map (Value.move r))) Eq := by
  intro xs
  induction xs with
  | nil =>
    intro i _
    exact alike_pure rfl
  | cons x xs ih =>
    intro i hxs
    refine (hxs x (by simp)).eq fun report => ?_
    exact (ih fun y hy => hxs y (by simp [hy])).eq fun _ => alike_pure rfl

theorem alike_part? {a : Accessor} (ha : a.Uniform attrs) (hv : v.Within R) :
    Alike (Twins r R attrs K) (part? a v) (part? a (v.move r))
      fun o p => p = o.map (Value.move r) ∧ ∀ x, o = some x → x.Within R := by
  refine Alike.bind alike_get fun u u' h => ?_
  rw [Accessor.get_move h.toImage ha hv]
  cases hget : a.get u.store v with
  | error e =>
    simp only [Except.map]
    split
    · exact alike_pure ⟨rfl, nofun⟩
    · exact alike_throw
  | ok x =>
    refine alike_pure ⟨rfl, ?_⟩
    rintro y ⟨⟩
    exact Accessor.get_within ha.reads h.closed h.owned hv hget

theorem alike_checkMembership (hK : K .reference c d) (hv : v.Refers R) :
    Alike (Twins r R attrs K) (checkMembership c v) (checkMembership d (v.move r)) Eq := by
  refine (alike_slots hK).bind fun vs ws hvs => ?_
  obtain ⟨hR, rfl⟩ := hvs
  refine (alike_isIn hv hR).eq fun found => alike_reportUnless ?_
  refine Alike.eq (alike_ask fun _ _ h => (optionsText_eq h hK).symm) fun options => ?_
  exact alike_written.eq fun _ => (alike_render hv).eq fun _ => alike_pure rfl

theorem alike_checkCandidates (hK : K .reference c d) (hv : v.Refers R) :
    Alike (Twins r R attrs K) (checkCandidates c v) (checkCandidates d (v.move r)) Eq := by
  refine (alike_slots hK).bind fun vs ws hvs => ?_
  obtain ⟨hR, rfl⟩ := hvs
  refine (alike_isIn hv hR).eq fun found => ?_
  rw [List.length_map]
  refine alike_reportUnless ?_
  exact (alike_render hv).eq fun _ => alike_pure rfl

theorem alike_checkLength {size : Int} (hv : v.Within R) :
    Alike (Twins r R attrs K) (checkLength size v) (checkLength size (v.move r)) Eq := by
  refine (alike_elements hv).bind fun xs ys hxs => ?_
  obtain ⟨-, rfl⟩ := hxs
  rw [List.length_map]
  refine alike_reportUnless ?_
  have hrender : Alike (Twins r R attrs K) (render (.int size)) (render (.int size)) Eq :=
    Alike.eq (alike_ask fun _ _ _ => rfl) fun _ => alike_written
  exact hrender.eq fun _ => alike_pure rfl

theorem alike_described {f : Fact} (hf : Twinned attrs K m f) :
    Alike (Twins r R attrs K) f.described (f.move m).described Eq :=
  Alike.eq (alike_ask fun _ _ h => (text_eq h true f hf).symm) fun _ => alike_written

mutual

/-- Checking twins ends with the same report or the same fault, and leaves twins. -/
theorem alike_check : ∀ {f : Fact} {m : Loc → Loc} {v : Value}, Twinned attrs K m f → v.Within R →
    Alike (Twins r R attrs K) (f.check v) ((f.move m).check (v.move r)) Eq
  | .always _, _, _, _, _ | .never _ _, _, _, _, _ => alike_pure rfl
  | .equality _ _ _ _, _, _, hf, hv => by
    refine (alike_slot hf).bind fun x y hxy => ?_
    obtain ⟨hx, rfl⟩ := hxy
    exact alike_equalityReport hv.refers hx
  | .membership _, _, _, hf, hv => alike_checkMembership hf hv.refers
  | .range _ _, _, _, hf, hv => alike_checkRange hf hv.refers
  | .pair _ _ _ _, _, _, _, hv => by
    refine (alike_items hv).bind fun p q hpq => ?_
    obtain ⟨⟨ha, hb⟩, rfl⟩ := hpq
    exact alike_equalityReport ha.refers hb.refers
  | .counter _, _, _, hf, hv => alike_checkCounter hf hv.refers
  | .distinct _ _ _, _, _, hf, hv => alike_checkDistinct hf hv
  | .all _ fs _ _, _, _, hf, hv => by
    have hall : TwinnedAll attrs K _ fs := hf
    exact (alike_checkAll hall hv).eq fun _ => alike_pure rfl
  | .either _ _ _ _, _, _, hf, hv =>
    (alike_check hf.1 hv).eq fun _ => (alike_check hf.2 hv).eq fun _ => alike_pure rfl
  | .negation _ f _ _, _, _, hf, hv => by
    refine (alike_check (f := f) hf hv).eq fun report => alike_reportUnless ?_
    exact (alike_described (f := f) hf).eq fun _ => (alike_render hv.refers).eq fun _ => alike_pure rfl
  | .lens _ _ f _, _, _, hf, hv => by
    refine (alike_part? hf.1 hv).bind fun o p hop => ?_
    obtain ⟨rfl, ho⟩ := hop
    cases o with
    | none => exact alike_pure rfl
    | some x => exact (alike_check hf.2 (ho x rfl)).eq fun _ => alike_pure rfl
  | .prism _ _ f _, _, _, hf, hv => by
    intro u u' h
    refine Alike.bind (alike_part? hf.1 hv) (fun o p hop => ?_) u u' h
    obtain ⟨rfl, ho⟩ := hop
    cases o with
    | none => exact alike_pure rfl
    | some x =>
      simp only [Option.map_some, Value.isAbsent_move h.marks]
      split
      · exact alike_pure rfl
      · exact (alike_check hf.2 (ho x rfl)).eq fun _ => alike_pure rfl
  | .each _ f _, _, _, hf, hv => by
    refine (alike_elements hv).bind fun xs ys hxs => ?_
    obtain ⟨hR, rfl⟩ := hxs
    refine Alike.eq (alike_checkElements fun x hx => ?_) fun _ => alike_pure rfl
    exact alike_check (f := f) hf (hR x hx)
  | .length _ _ _, _, _, _, hv => alike_checkLength hv
  | .mapped _ _ tests fs f, _, v, hf, hv => by
    have hother : Alike (Twins r R attrs K) (f.check v) (f.check (v.move r)) Eq := by
      have hcheck := alike_check hf.2 hv
      rwa [move_id] at hcheck
    refine (alike_view hv.refers).eq fun dv => ?_
    refine Alike.eq (alike_checkPick (d := dv) hf.1 hother hv) fun _ => alike_pure rfl
  | .predicate _ _ _, _, _, _, hv | .brute _ _ _ _ _, _, _, _, hv => alike_checkTest hv.refers
  | .choice _ none _, _, _, hf, hv => alike_checkCandidates hf hv.refers
  | .choice _ (some _) _, _, _, hf, hv =>
    (alike_checkCandidates hf.1 hv.refers).eq fun _ =>
      (alike_check hf.2 hv).eq fun _ => alike_pure rfl
  | .labeled _ _ f _, _, _, hf, hv => (alike_check (f := f) hf hv).eq fun _ => alike_pure rfl

theorem alike_checkAll : ∀ {fs : List Fact} {m : Loc → Loc} {i : Nat} {v : Value},
    TwinnedAll attrs K m fs → v.Within R →
    Alike (Twins r R attrs K) (checkAll fs i v) (checkAll (moveAll m fs) i (v.move r)) Eq
  | [], _, _, _, _, _ => alike_pure rfl
  | f :: fs, m, i, v, hf, hv => by
    rw [moveAll, checkAll, checkAll]
    simp only [label?_move]
    exact (alike_check hf.1 hv).eq fun _ => (alike_checkAll hf.2 hv).eq fun _ => alike_pure rfl

theorem alike_checkPick : ∀ {fs : List Fact} {d : Data} {tests : List (Data → Bool)}
    {a b : Act Report} {v : Value}, TwinnedAll attrs K id fs → Alike (Twins r R attrs K) a b Eq →
    v.Within R →
    Alike (Twins r R attrs K) (checkPick d tests fs a v) (checkPick d tests fs b (v.move r)) Eq
  | [], _, tests, _, _, _, _, hab, _ => by cases tests <;> exact hab
  | f :: fs, d, tests, _, _, v, hf, hab, hv => by
    cases tests with
    | nil => exact hab
    | cons test tests =>
      rw [checkPick, checkPick]
      split
      · have hcheck := alike_check hf.1 hv
        rwa [move_id] at hcheck
      · exact alike_checkPick hf.2 hab hv

end

end

end Conform
