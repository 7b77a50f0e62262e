import Conform.Fact.Check
import Conform.Proofs.Whole

/-!
# Drawing and checking leave no dangling reference

Drawing and checking keep a store whole and never give an object back, and what is drawn leads to objects
only. What a fact itself holds does not matter, since it is in the store; only its accessors do, if they are
brought from outside.
-/

namespace Conform

open Act Draw

variable {n : Nat}

/-! ## Drawing -/

section

variable {α : Type} {P : Nat → α → Prop}

theorem sound_fromSource {f : Source → α × Source} : Sound n (fromSource f) Anything :=
  sound_still (fun _ => rfl) fun _ _ => trivial

theorem sound_below {k : Nat} : Sound n (below k) Anything := sound_fromSource

theorem sound_unit : Sound n unit Anything := sound_fromSource

theorem sound_intBetween {low high : Int} : Sound n (intBetween low high) Anything :=
  sound_below.bind fun _ _ _ _ => sound_pure fun _ _ => trivial

theorem sound_index {k : Nat} : Sound n (index k) Anything := by
  unfold index
  split
  · refine sound_get.bind fun _ w _ _ => ?_
    split
    · exact sound_misuse
    · exact sound_throw
  · split
    · exact sound_pure fun _ _ => trivial
    · exact sound_below

theorem sound_choose {xs : List α} (h : ∀ m, n ≤ m → ∀ x ∈ xs, P m x) : Sound n (choose xs) P := by
  refine sound_index.bind fun m i hm _ => ?_
  split
  · next x hx => exact sound_pure fun k hk => h k (Nat.le_trans hm hk) x (List.mem_of_getElem? hx)
  · exact sound_misuse

theorem sound_boolean : Sound n boolean Anything := by
  refine sound_get.bind fun _ w _ _ => ?_
  split
  · exact sound_pure fun _ _ => trivial
  · exact sound_unit.bind fun _ _ _ _ => sound_pure fun _ _ => trivial

end

theorem sound_requireOrdered {low high : Value} : Sound n (requireOrdered low high) Anything := by
  refine sound_view.bind fun _ lo _ _ => sound_view.bind fun _ hi _ _ => ?_
  split
  · exact sound_misuse
  · exact sound_display.bind fun _ _ _ _ => sound_display.bind fun _ _ _ _ => sound_throw
  · exact sound_pure fun _ _ => trivial

theorem sound_numeral {v : Value} : Sound n (numeral v) Anything := by
  refine sound_view.bind fun _ d _ _ => ?_
  split
  · exact sound_pure fun _ _ => trivial
  · exact sound_misuse

theorem sound_whole {k : Numeral} : Sound n (whole k) Anything := by
  unfold whole
  split
  · exact sound_pure fun _ _ => trivial
  · exact sound_misuse
  · split
    · exact sound_misuse
    · split
      · exact sound_pure fun _ _ => trivial
      · exact sound_misuse

theorem sound_offset {low high : Value} {entry : Int} : Sound n (offset low high entry) Unbound := by
  refine sound_numeral.bind fun _ a _ _ => sound_numeral.bind fun _ b _ _ => ?_
  refine sound_inRange.bind fun _ distance _ _ => sound_inRange.bind fun _ size _ _ => ?_
  exact sound_inRange.bind fun _ part _ _ => sound_inRange.bind fun _ k _ _ => sound_number

theorem sound_drawWhole {low high : Value} : Sound n (drawWhole low high) Unbound := by
  refine sound_numeral.bind fun _ a _ _ => sound_inRange.bind fun _ past _ _ => ?_
  refine sound_numeral.bind fun _ b _ _ => sound_whole.bind fun _ first _ _ => ?_
  refine sound_whole.bind fun _ last _ _ => ?_
  dsimp only
  split
  · exact (sound_misuse (P := fun _ _ => False)).bind fun _ _ _ h => h.elim
  · exact sound_intBetween.bind fun _ k _ _ => sound_pure fun _ _ => rfl

theorem sound_intInRange {low high : Value} (h : low.bound ≤ n) :
    Sound n (intInRange low high) Bounded := by
  refine sound_get.bind fun m w hm _ => ?_
  dsimp only
  split
  · exact sound_pure fun k hk => show low.bound ≤ k by omega
  · refine sound_requireOrdered.bind fun _ _ _ _ => ?_
    split
    · refine Sound.bind (P := Anything) (sound_still (fun _ => rfl) fun _ _ => trivial) fun _ _ _ _ => ?_
      exact sound_offset.bounded
    · exact sound_drawWhole.bounded

theorem sound_floatInRange {low high : Value} (h : low.bound ≤ n) :
    Sound n (floatInRange low high) Bounded := by
  refine sound_get.bind fun m w hm _ => ?_
  split
  · exact sound_pure fun k hk => show low.bound ≤ k by omega
  · refine sound_requireOrdered.bind fun _ _ _ _ => ?_
    split
    · exact sound_unit.bind fun _ _ _ _ => sound_misuse
    · refine sound_numeral.bind fun _ a _ _ => sound_numeral.bind fun _ b _ _ => ?_
      refine sound_inRange.bind fun _ span _ _ => sound_unit.bind fun _ r _ _ => ?_
      refine sound_inRange.bind fun _ part _ _ => sound_inRange.bind fun _ k _ _ => ?_
      exact sound_number.bounded

theorem sound_arbitraryAtom {a : Atom} : Sound n (arbitraryAtom a) Bounded := by
  have hzero : ∀ {v : Value} {m : Nat}, v.bound = 0 → Sound m (pure v) Bounded := fun hv =>
    (show Sound _ (pure _) Unbound from sound_pure fun _ _ => hv).bounded
  have hmapM : ∀ {β γ : Type} {f : β → Act γ} {xs : List β} {m : Nat},
      (∀ x k, Sound k (f x) Anything) → Sound m (xs.mapM f) Anything := fun hf =>
    (sound_mapM (fun _ _ _ _ _ => trivial) fun x _ m _ => hf x m).mono fun _ _ _ _ => trivial
  cases a with
  | null => exact hzero rfl
  | bool b => exact sound_boolean.bind fun _ _ _ _ => hzero rfl
  | int k => exact sound_intBetween.bind fun _ _ _ _ => hzero rfl
  | float x => exact sound_floatInRange (Nat.zero_le _)
  | nan k => exact sound_floatInRange (Nat.zero_le _)
  | text t =>
    have htext : Sound n arbitraryText Anything := by
      refine sound_intBetween.bind fun _ k _ _ => ?_
      refine (hmapM fun _ m => sound_choose fun _ _ _ _ => trivial).bind fun _ cs _ _ => ?_
      exact sound_pure fun _ _ => trivial
    exact htext.bind fun _ _ _ _ => hzero rfl
  | bytes bs =>
    have hbytes : Sound n arbitraryBytes Anything := by
      refine sound_intBetween.bind fun _ k _ _ => ?_
      exact hmapM fun _ m => sound_below.bind fun _ _ _ _ => sound_pure fun _ _ => trivial
    exact hbytes.bind fun _ _ _ _ => hzero rfl
  | member cls i => exact sound_index.bind fun _ _ _ _ => hzero rfl
  | sealed cls => exact sound_throw
  | enumeration cls => exact sound_throw
  | absent m => exact sound_throw

theorem sound_newRecord {cls : RecordClass} {xs : List Value} (hxs : Value.boundAll xs ≤ n) :
    Sound n (newRecord cls xs) Bounded := by
  unfold newRecord
  split
  · exact sound_pure fun m hm => show Value.boundAll xs ≤ m by omega
  · exact sound_newObject (by simpa [Object.bound, Object.values] using hxs)

/-- Values that are bounded at a size are bounded at a greater one. -/
theorem bounded_mono (m k : Nat) (v : Value) (hk : m ≤ k) (hv : Bounded m v) : Bounded k v :=
  Nat.le_trans hv hk

theorem sound_mapValues {α : Type} {a : α → Act Value} {xs : List α}
    (h : ∀ x ∈ xs, ∀ m, n ≤ m → Sound m (a x) Bounded) : Sound n (xs.mapM a) BoundedAll :=
  (sound_mapM bounded_mono h).mono fun _ _ _ hys => Value.boundAll_le.mpr hys

theorem sound_likeFields {like : Value → Act Value} :
    ∀ {fs : List Field} {xs : List Value} {n : Nat},
      (∀ x ∈ xs, ∀ m, n ≤ m → Sound m (like x) Bounded) → Sound n (likeFields like fs xs) BoundedAll := by
  intro fs
  induction fs with
  | nil =>
    intro xs n _
    exact sound_pure fun _ _ => Nat.zero_le _
  | cons f fs ih =>
    intro xs n hxs
    cases xs with
    | nil => exact sound_pure fun _ _ => Nat.zero_le _
    | cons x xs =>
      have hrest : ∀ m v, n ≤ m → Bounded m v →
          Sound m (do return v :: (← likeFields like fs xs)) BoundedAll := by
        intro m v hm hv
        refine (ih fun y hy k hk => hxs y (by simp [hy]) k (Nat.le_trans hm hk)).bind fun k ys hk hys => ?_
        refine sound_pure fun j hj => ?_
        simp only [BoundedAll, Bounded, Value.boundAll_cons] at hv hys ⊢
        omega
      rw [likeFields]
      split
      · exact (hxs x (by simp) n (Nat.le_refl _)).bind hrest
      · exact (sound_pure (P := Bounded) fun _ _ => Nat.zero_le _).bind hrest

theorem sound_likeEntries {like : Value → Act Value} {es : List (Value × Value)}
    (hlike : ∀ e ∈ es, ∀ m, n ≤ m → Sound m (like e.2) Bounded) (hkeys : ∀ e ∈ es, e.1.bound ≤ n) :
    Sound n (es.mapM fun e => return (e.1, ← like e.2)) fun m fs => ∀ e ∈ fs, e.1.bound ≤ m ∧ e.2.bound ≤ m := by
  refine sound_mapM (fun m k e hk he => ⟨Nat.le_trans he.1 hk, Nat.le_trans he.2 hk⟩) fun e he m hm => ?_
  have hkey := hkeys e he
  refine (hlike e he m hm).bind fun k y hk hy => sound_pure fun j hj => ⟨?_, Nat.le_trans hy hj⟩
  show e.1.bound ≤ j
  omega

theorem sound_likeObject {like : Value → Act Value} {o : Object}
    (hlike : ∀ x m, n ≤ m → x.bound ≤ m → Sound m (like x) Bounded) (ho : o.bound ≤ n) :
    Sound n (likeObject like o) Bounded := by
  have hpart : ∀ x ∈ o.values, ∀ m, n ≤ m → Sound m (like x) Bounded := fun x hx m hm =>
    hlike x m hm (Nat.le_trans (Nat.le_trans (Value.bound_le_boundAll hx) ho) hm)
  unfold likeObject
  split
  · exact sound_newObject ho
  · next x xs =>
    refine sound_intBetween.bind fun m k hm _ => ?_
    refine (sound_mapValues fun _ _ j hj => hpart x (by simp [Object.values]) j ?_).bind ?_
    · exact Nat.le_trans hm hj
    · exact fun j ys _ hys => sound_newObject hys
  · next es =>
    have hkey : ∀ e ∈ es, e.1 ∈ (Object.mapping es).values := fun e he => List.mem_flatMap.mpr ⟨e, he, by simp⟩
    have hentry : ∀ e ∈ es, e.2 ∈ (Object.mapping es).values := fun e he => List.mem_flatMap.mpr ⟨e, he, by simp⟩
    have hentries := sound_likeEntries (fun e he => hpart e.2 (hentry e he)) fun e he =>
      Nat.le_trans (Value.bound_le_boundAll (hkey e he)) ho
    refine hentries.bind fun m fs _ hfs => sound_newObject (Value.boundAll_le.mpr fun x hx => ?_)
    obtain ⟨e, he, hx⟩ := List.mem_flatMap.mp hx
    simp only [List.mem_cons, List.not_mem_nil, or_false] at hx
    rcases hx with rfl | rfl
    · exact (hfs e he).1
    · exact (hfs e he).2
  · next cls xs extras =>
    have hrecord : Sound n (do newRecord cls (← likeFields like cls.fields xs)) Bounded := by
      refine (sound_likeFields fun x hx => hpart x (by simp [Object.values, hx])).bind fun m ys _ hys => ?_
      exact sound_newRecord hys
    split
    · exact sound_throw
    · exact hrecord
  · exact sound_misuse

theorem sound_likeWithin (levels : Nat) :
    ∀ (v : Value) (n : Nat), v.bound ≤ n → Sound n (likeWithin levels v) Bounded := by
  induction levels with
  | zero =>
    intro v n _
    exact sound_misuse
  | succ levels ih =>
    intro v n hv
    have hparts : ∀ {xs : List Value}, Value.boundAll xs ≤ n →
        ∀ x ∈ xs, ∀ m, n ≤ m → Sound m (likeWithin levels x) Bounded := fun hxs x hx m hm =>
      ih x m (Nat.le_trans (Nat.le_trans (Value.bound_le_boundAll hx) hxs) hm)
    cases v with
    | atom a => exact sound_arbitraryAtom
    | tuple cls xs =>
      exact (sound_mapValues (hparts hv)).bind fun m ys _ hys => sound_pure fun k hk =>
        Nat.le_trans hys hk
    | set xs => exact sound_throw
    | frozen cls xs =>
      exact (sound_likeFields (hparts hv)).bind fun m ys _ hys => sound_newRecord hys
    | ref l =>
      have hget : Sound n (Act.ask (·.get? l)) fun m o => ∀ o', o = some o' → o'.bound ≤ m :=
        sound_ask fun s hs _ o' ho' => hs.object ho'
      refine hget.bind fun m o _ ho => ?_
      split
      · next o' => exact sound_likeObject (fun x k _ hx => ih x k hx) (ho o' rfl)
      · exact sound_misuse

theorem sound_arbitrary {v : Value} (hv : v.bound ≤ n) : Sound n (arbitrary v) Bounded := by
  refine sound_get.bind fun m w hm _ => ?_
  split
  · exact sound_pure fun k hk => show v.bound ≤ k by omega
  · exact sound_likeWithin _ v m (Nat.le_trans hv hm)

/-! ## Recipes -/

mutual

theorem build_whole {s : Store} (h : s.Whole) : ∀ d : Data,
    s.size ≤ (Store.build d s).2.size ∧ (Store.build d s).2.Whole ∧
      (Store.build d s).1.bound ≤ (Store.build d s).2.size
  | .atom a => by
    cases a with
    | nan m =>
      simp only [Store.build]
      split
      · exact ⟨Nat.le_refl _, h, Nat.zero_le _⟩
      · exact ⟨Nat.le_refl _, h.marks _, Nat.zero_le _⟩
    | _ => exact ⟨Nat.le_refl _, h, Nat.zero_le _⟩
  | .tuple cls xs | .set xs => buildAll_whole h xs
  | .list xs => by
    obtain ⟨hsize, hs, hvs⟩ := buildAll_whole h xs
    exact ⟨by simpa [Store.build] using Nat.le_succ_of_le hsize, hs.alloc hvs, by simp [Store.build]⟩
  | .mapping es => by
    obtain ⟨hsize, hs, hes⟩ := buildEntries_whole h es
    exact ⟨by simpa [Store.build] using Nat.le_succ_of_le hsize, hs.alloc hes, by simp [Store.build]⟩
  | .record cls xs => by
    obtain ⟨hsize, hs, hvs⟩ := buildAll_whole h xs
    simp only [Store.build]
    split
    · exact ⟨hsize, hs, hvs⟩
    · refine ⟨by simpa using Nat.le_succ_of_le hsize, hs.alloc ?_, by simp⟩
      simpa [Object.bound, Object.values] using hvs
  | .elided name => ⟨Nat.le_refl _, h, Nat.zero_le _⟩

theorem buildAll_whole {s : Store} (h : s.Whole) : ∀ ds : List Data,
    s.size ≤ (Store.buildAll ds s).2.size ∧ (Store.buildAll ds s).2.Whole ∧
      Value.boundAll (Store.buildAll ds s).1 ≤ (Store.buildAll ds s).2.size
  | [] => ⟨Nat.le_refl _, h, Nat.zero_le _⟩
  | d :: ds => by
    obtain ⟨hsize, hs, hv⟩ := build_whole h d
    obtain ⟨hsize', hs', hvs⟩ := buildAll_whole hs ds
    refine ⟨Nat.le_trans hsize hsize', hs', ?_⟩
    simp only [Store.buildAll, Value.boundAll_cons]
    omega

theorem buildEntries_whole {s : Store} (h : s.Whole) : ∀ es : List (Data × Data),
    s.size ≤ (Store.buildEntries es s).2.size ∧ (Store.buildEntries es s).2.Whole ∧
      (Object.mapping (Store.buildEntries es s).1).bound ≤ (Store.buildEntries es s).2.size
  | [] => ⟨Nat.le_refl _, h, Nat.zero_le _⟩
  | (k, x) :: es => by
    obtain ⟨hsize, hs, hk⟩ := build_whole h k
    obtain ⟨hsize', hs', hx⟩ := build_whole hs x
    obtain ⟨hsize'', hs'', hes⟩ := buildEntries_whole hs' es
    refine ⟨Nat.le_trans hsize (Nat.le_trans hsize' hsize''), hs'', ?_⟩
    simp only [Store.buildEntries, Object.bound, Object.values, List.flatMap_cons, List.cons_append,
      List.nil_append, Value.boundAll_cons] at hes ⊢
    omega

end

theorem sound_make {r : Recipe} : Sound n r.make Bounded := by
  cases r with
  | error e => exact sound_throw.bind fun _ _ _ (h : False) => h.elim
  | ok d =>
    intro w hw _
    obtain ⟨hsize, hs, hv⟩ := build_whole hw d
    refine ⟨⟨hsize, hs⟩, ?_⟩
    rintro v ⟨⟩
    exact hv

theorem sound_draw {g : Generator} : Sound n g.draw Bounded := by
  cases g with
  | int low high =>
    refine sound_make.bind fun m a hm ha => sound_make.bind fun k b hk _ => ?_
    exact sound_intInRange (Nat.le_trans ha hk)
  | const r => exact sound_make
  | choose rs =>
    refine (sound_mapValues fun r _ m _ => sound_make).bind fun m vs _ hvs => ?_
    exact sound_choose fun k hk v hv =>
      Nat.le_trans (Nat.le_trans (Value.bound_le_boundAll hv) hvs) hk
  | arbitrary r => exact sound_make.bind fun m v _ hv => sound_arbitrary hv

/-! ## Facts -/

namespace Fact

mutual

/-- Whether the accessors of a fact lead to objects only. -/
def Steady : Fact → Prop
  | .all _ fs _ _ => SteadyAll fs
  | .either _ f g _ => Steady f ∧ Steady g
  | .lens _ a f _ | .prism _ a f _ => a.Sound ∧ Steady f
  | .negation _ f _ _ | .each _ f _ | .labeled _ _ f _ | .choice _ (some f) _ => Steady f
  | .mapped _ _ _ fs f => SteadyAll fs ∧ Steady f
  | .foreign _ _ => False
  | _ => True

/-- Whether those of several facts do. -/
def SteadyAll : List Fact → Prop
  | [] => True
  | f :: fs => Steady f ∧ SteadyAll fs

end

theorem SteadyAll.mem : ∀ {fs : List Fact}, SteadyAll fs → ∀ f ∈ fs, f.Steady
  | [], _, _, h => nomatch h
  | f :: fs, hfs, g, hg => by
    rcases List.mem_cons.mp hg with rfl | hg
    · exact hfs.1
    · exact SteadyAll.mem hfs.2 g hg

mutual

theorem Steady.move {m : Loc → Loc} : ∀ {f : Fact}, f.Steady → (f.move m).Steady
  | .always _, _ | .never _ _, _ | .predicate _ _ _, _ | .pair _ _ _ _, _ | .brute _ _ _ _ _, _
  | .membership _, _ | .range _ _, _ | .counter _, _ | .equality _ _ _ _, _ | .length _ _ _, _
  | .distinct _ _ _, _ | .choice _ none _, _ => trivial
  | .mapped _ _ _ _ _, h => h
  | .all _ fs _ _, h => SteadyAll.move (show SteadyAll fs from h)
  | .either _ _ _ _, h => ⟨h.1.move, h.2.move⟩
  | .lens _ _ _ _, h | .prism _ _ _ _, h => ⟨h.1, h.2.move⟩
  | .negation _ f _ _, h | .each _ f _, h | .labeled _ _ f _, h | .choice _ (some f) _, h =>
    Steady.move (f := f) h

theorem SteadyAll.move {m : Loc → Loc} : ∀ {fs : List Fact}, SteadyAll fs → SteadyAll (moveAll m fs)
  | [], _ => trivial
  | _ :: _, h => ⟨h.1.move, h.2.move⟩

end

end Fact

open Conform.Fact

/-! ## Checking -/

theorem sound_described {f : Fact} : Sound n f.described Anything :=
  sound_look.bind fun _ _ _ _ => sound_written

theorem sound_reportUnless {ok : Bool} {message : Act String}
    (h : Sound n message Anything) : Sound n (reportUnless ok message) Anything := by
  unfold reportUnless
  split
  · exact sound_pure fun _ _ => trivial
  · exact h.bind fun _ _ _ _ => sound_pure fun _ _ => trivial

theorem sound_equalityReport {equal : Bool} {v w : Value} :
    Sound n (equalityReport equal v w) Anything := by
  refine sound_equal.bind fun _ same _ _ => sound_reportUnless ?_
  exact sound_render.bind fun _ _ _ _ => sound_render.bind fun _ _ _ _ => sound_pure fun _ _ => trivial

theorem sound_slot {c : Loc} {i : Nat} : Sound n (Act.ask (·.slot c i)) Bounded :=
  sound_ask fun _ hs _ => hs.slot

theorem sound_slots {c : Loc} : Sound n (Act.ask (·.slots c)) BoundedAll :=
  sound_ask fun _ hs _ => hs.slots

theorem sound_checkRange {c : Loc} {inside : Bool} {v : Value} :
    Sound n (checkRange c inside v) Anything := by
  have hspan : ∀ m, Sound m (do Act.written (← Act.ask (spanText · c))) Anything := fun _ =>
    sound_look.bind fun _ _ _ _ => sound_written
  refine sound_slot.bind fun _ low _ _ => sound_view.bind fun _ dl _ _ => ?_
  refine sound_slot.bind fun _ high _ _ => sound_view.bind fun _ dh _ _ => ?_
  refine sound_view.bind fun _ d _ _ => ?_
  split
  · exact (hspan _).bind fun _ _ _ _ => sound_render.bind fun _ _ _ _ => sound_pure fun _ _ => trivial
  · refine sound_reportUnless ?_
    exact sound_render.bind fun _ _ _ _ => (hspan _).bind fun _ _ _ _ => sound_pure fun _ _ => trivial

theorem sound_elements? {v : Value} (hv : v.bound ≤ n) :
    Sound n (Act.ask (·.elements? v)) fun m o => ∀ xs, o = some xs → Value.boundAll xs ≤ m :=
  sound_ask fun _ hs hn _ h => Store.elements?_bound hs (Nat.le_trans hv hn) h

theorem sound_items {v : Value} (hv : v.bound ≤ n) :
    Sound n (items v) fun m p => p.1.bound ≤ m ∧ p.2.bound ≤ m := by
  refine (sound_elements? hv).bind fun m o _ ho => ?_
  split
  · next a b =>
    have hxs := ho [a, b] rfl
    simp only [Value.boundAll_cons] at hxs
    refine sound_pure fun k hk => ⟨?_, ?_⟩
    · show a.bound ≤ k
      omega
    · show b.bound ≤ k
      omega
  · exact sound_misuse
  · exact sound_misuse

theorem sound_elements {v : Value} (hv : v.bound ≤ n) : Sound n (elements v) BoundedAll := by
  refine (sound_elements? hv).bind fun m o _ ho => ?_
  split
  · next xs => exact sound_pure fun k hk => Nat.le_trans (ho xs rfl) hk
  · exact sound_misuse

theorem sound_sum {a b : Value} : Sound n (sum a b) Unbound := by
  refine sound_view.bind fun _ da _ _ => sound_view.bind fun _ db _ _ => ?_
  split
  · exact sound_inRange.bind fun _ _ _ _ => sound_number
  · exact sound_misuse

theorem sound_takeNext {c : Loc} : Sound n (takeNext c) Bounded := by
  refine sound_slot.bind fun m initial _ hi => sound_slot.bind fun m' expected hm he => ?_
  refine sound_sum.bind fun k next hk (hnext : next.bound = 0) => ?_
  have hslots : (Object.slots [initial, next]).bound ≤ k := by
    simp only [Object.bound, Object.values, Value.boundAll_cons, Value.boundAll_nil]
    have : initial.bound ≤ m := hi
    omega
  refine (sound_put hslots).bind fun j _ hj _ => sound_pure fun i hij => ?_
  exact Nat.le_trans he (Nat.le_trans hk (Nat.le_trans hj hij))

theorem sound_seen {c : Loc} : Sound n (seen c) BoundedAll := sound_ask fun _ hs _ => hs.listItems

theorem sound_remember {c : Loc} {v : Value} (hv : v.bound ≤ n) : Sound n (remember c v) Anything := by
  refine sound_slot.bind fun m x hm _ => ?_
  split
  · next l =>
    refine sound_seen.bind fun k vs hk hvs => sound_put ?_
    refine Value.boundAll_append_le hvs ?_
    simp only [Value.boundAll_cons, Value.boundAll_nil]
    omega
  · exact sound_pure fun _ _ => trivial

theorem sound_checkCounter {c : Loc} {v : Value} : Sound n (checkCounter c v) Anything := by
  refine sound_takeNext.bind fun _ expected _ _ => sound_equal.bind fun _ same _ _ => ?_
  refine sound_reportUnless ?_
  refine sound_slot.bind fun _ _ _ _ => sound_display.bind fun _ _ _ _ => ?_
  exact sound_render.bind fun _ _ _ _ => sound_render.bind fun _ _ _ _ => sound_pure fun _ _ => trivial

theorem sound_checkDistinct {c : Loc} {v : Value} (hv : v.bound ≤ n) :
    Sound n (checkDistinct c v) Anything := by
  refine sound_seen.bind fun m vs hm _ => sound_isIn.bind fun k repeated hk _ => ?_
  refine (sound_remember (Nat.le_trans hv (Nat.le_trans hm hk))).bind fun _ _ _ _ => ?_
  exact sound_reportUnless (sound_render.bind fun _ _ _ _ => sound_pure fun _ _ => trivial)

theorem sound_checkTest {name : String} {test : Data → Bool} {v : Value} :
    Sound n (checkTest name test v) Anything :=
  sound_view.bind fun _ _ _ _ => sound_reportUnless
    (sound_render.bind fun _ _ _ _ => sound_pure fun _ _ => trivial)

theorem sound_checkElements {check : Value → Act Report} : ∀ {xs : List Value} {i n : Nat},
    (∀ x ∈ xs, ∀ m, n ≤ m → Sound m (check x) Anything) →
    Sound n (checkElements check i xs) Anything := by
  intro xs
  induction xs with
  | nil =>
    intro i n _
    exact sound_pure fun _ _ => trivial
  | cons x xs ih =>
    intro i n h
    refine (h x (by simp) n (Nat.le_refl _)).bind fun m _ hm _ => ?_
    refine (ih fun y hy k hk => h y (by simp [hy]) k (Nat.le_trans hm hk)).bind fun _ _ _ _ => ?_
    exact sound_pure fun _ _ => trivial

theorem sound_part? {a : Accessor} {v : Value} (ha : a.Sound) (hv : v.bound ≤ n) :
    Sound n (part? a v) fun m o => ∀ x, o = some x → x.bound ≤ m := by
  refine sound_get.bind fun m w hm hw => ?_
  obtain ⟨hwhole, hn, rfl⟩ := hw
  split
  · next x hx =>
    refine sound_pure fun k hk y hy => ?_
    cases hy
    exact Nat.le_trans (Accessor.get_bound ha hwhole (Nat.le_trans hv hn) hx) hk
  · split
    · exact sound_pure fun _ _ => nofun
    · exact sound_throw

theorem sound_checkMembership {c : Loc} {v : Value} : Sound n (checkMembership c v) Anything := by
  refine sound_slots.bind fun _ vs _ _ => sound_isIn.bind fun _ _ _ _ => sound_reportUnless ?_
  refine sound_look.bind fun _ _ _ _ => sound_written.bind fun _ _ _ _ => ?_
  exact sound_render.bind fun _ _ _ _ => sound_pure fun _ _ => trivial

theorem sound_checkCandidates {c : Loc} {v : Value} : Sound n (checkCandidates c v) Anything := by
  refine sound_slots.bind fun _ vs _ _ => sound_isIn.bind fun _ _ _ _ => sound_reportUnless ?_
  exact sound_render.bind fun _ _ _ _ => sound_pure fun _ _ => trivial

theorem sound_checkLength {size : Int} {v : Value} (hv : v.bound ≤ n) :
    Sound n (checkLength size v) Anything := by
  refine (sound_elements hv).bind fun _ _ _ _ => sound_reportUnless ?_
  exact sound_render.bind fun _ _ _ _ => sound_pure fun _ _ => trivial

mutual

/-- Checking keeps a store whole. -/
theorem sound_check : ∀ {f : Fact} {v : Value} {n : Nat}, f.Steady → v.bound ≤ n →
    Sound n (f.check v) Anything
  | .always _, _, _, _, _ | .never _ _, _, _, _, _ => sound_pure fun _ _ => trivial
  | .equality _ _ _ _, _, _, _, _ => sound_slot.bind fun _ _ _ _ => sound_equalityReport
  | .membership _, _, _, _, _ => sound_checkMembership
  | .range _ _, _, _, _, _ => sound_checkRange
  | .pair _ _ _ _, _, _, _, hv => (sound_items hv).bind fun _ _ _ _ => sound_equalityReport
  | .counter _, _, _, _, _ => sound_checkCounter
  | .distinct _ _ _, _, _, _, hv => sound_checkDistinct hv
  | .all _ fs _ _, _, _, h, hv =>
    (sound_checkAll (show SteadyAll fs from h) hv).bind fun _ _ _ _ => sound_pure fun _ _ => trivial
  | .either _ _ _ _, _, _, h, hv =>
    (sound_check h.1 hv).bind fun _ _ hm _ =>
      (sound_check h.2 (Nat.le_trans hv hm)).bind fun _ _ _ _ => sound_pure fun _ _ => trivial
  | .negation _ f _ _, _, _, h, hv => by
    refine (sound_check (f := f) h hv).bind fun _ _ _ _ => sound_reportUnless ?_
    exact sound_described.bind fun _ _ _ _ => sound_render.bind fun _ _ _ _ => sound_pure fun _ _ => trivial
  | .lens _ _ f _, _, _, h, hv => by
    refine (sound_part? h.1 hv).bind fun m o _ ho => ?_
    split
    · next x => exact (sound_check h.2 (ho x rfl)).bind fun _ _ _ _ => sound_pure fun _ _ => trivial
    · exact sound_pure fun _ _ => trivial
  | .prism _ _ f _, _, _, h, hv => by
    refine (sound_part? h.1 hv).bind fun m o _ ho => ?_
    split
    · next x =>
      split
      · exact sound_pure fun _ _ => trivial
      · exact (sound_check h.2 (ho x rfl)).bind fun _ _ _ _ => sound_pure fun _ _ => trivial
    · exact sound_pure fun _ _ => trivial
  | .each _ f _, _, _, h, hv => by
    refine (sound_elements hv).bind fun m xs _ hxs => ?_
    refine (sound_checkElements fun x hx k hk => ?_).bind fun _ _ _ _ => sound_pure fun _ _ => trivial
    exact sound_check (f := f) h (Nat.le_trans (Value.boundAll_le.mp hxs x hx) hk)
  | .length _ _ _, _, _, _, hv => sound_checkLength hv
  | .mapped _ _ _ fs f, _, _, h, hv => by
    refine sound_view.bind fun m d hm _ => ?_
    have hv' := Nat.le_trans hv hm
    exact (sound_checkPick h.1 (sound_check h.2 hv') hv').bind fun _ _ _ _ => sound_pure fun _ _ => trivial
  | .predicate _ _ _, _, _, _, _ | .brute _ _ _ _ _, _, _, _, _ => sound_checkTest
  | .choice _ none _, _, _, _, _ => sound_checkCandidates
  | .choice _ (some f) _, _, _, h, hv =>
    sound_checkCandidates.bind fun _ _ hm _ =>
      (sound_check (f := f) h (Nat.le_trans hv hm)).bind fun _ _ _ _ => sound_pure fun _ _ => trivial
  | .labeled _ _ f _, _, _, h, hv =>
    (sound_check (f := f) h hv).bind fun _ _ _ _ => sound_pure fun _ _ => trivial

theorem sound_checkAll : ∀ {fs : List Fact} {i : Nat} {v : Value} {n : Nat}, SteadyAll fs →
    v.bound ≤ n → Sound n (checkAll fs i v) Anything
  | [], _, _, _, _, _ => sound_pure fun _ _ => trivial
  | _ :: _, _, _, _, h, hv =>
    (sound_check h.1 hv).bind fun _ _ hm _ =>
      (sound_checkAll h.2 (Nat.le_trans hv hm)).bind fun _ _ _ _ => sound_pure fun _ _ => trivial

theorem sound_checkPick : ∀ {fs : List Fact} {d : Data} {tests : List (Data → Bool)}
    {otherwise : Act Report} {v : Value} {n : Nat}, SteadyAll fs → Sound n otherwise Anything →
    v.bound ≤ n → Sound n (checkPick d tests fs otherwise v) Anything
  | [], _, tests, _, _, _, _, ho, _ => by cases tests <;> exact ho
  | f :: fs, d, tests, _, _, _, h, ho, hv => by
    cases tests with
    | nil => exact ho
    | cons test tests =>
      rw [checkPick]
      split
      · exact sound_check h.1 hv
      · exact sound_checkPick h.2 ho hv

end

end Conform
