import Conform.Fact.Basic
import Conform.Proofs.Arena

/-!
# Drawing in an arena

Values that are drawn lie in the arena: choices are made among values that do, and whatever else a draw
makes consists of new objects. The atoms of a recipe are the only ones that come from outside.
-/

namespace Conform

mutual

/-- Whether all places that the atoms and the classes of records in a tree name are among the given
ones. -/
def Data.Within (R : Set Place) : Data → Prop
  | .atom a => ∀ p ∈ a.places, p ∈ R
  | .tuple _ xs | .set xs | .list xs => Data.WithinAll R xs
  | .mapping es => Data.WithinEntries R es
  | .record cls xs => (∀ p ∈ cls.places, p ∈ R) ∧ Data.WithinAll R xs
  | .elided _ => True

/-- The same of several trees. -/
def Data.WithinAll (R : Set Place) : List Data → Prop
  | [] => True
  | x :: xs => Data.Within R x ∧ Data.WithinAll R xs

/-- The same of the entries of a mapping. -/
def Data.WithinEntries (R : Set Place) : List (Data × Data) → Prop
  | [] => True
  | (k, v) :: es => (Data.Within R k ∧ Data.Within R v) ∧ Data.WithinEntries R es

end

/-- Whether a recipe makes values of an arena, or ends with a fault that may end a run. -/
def Recipe.Fits (A : Arena) : Recipe → Prop
  | .ok d => d.Within A.values
  | .error e => A.Admits e

/-- Whether all recipes of a generator fit an arena. -/
def Generator.Fits (A : Arena) : Generator → Prop
  | .int low high => low.Fits A ∧ high.Fits A
  | .const r | .arbitrary r => r.Fits A
  | .choose rs => ∀ r ∈ rs, Recipe.Fits A r

/-! ## Sources -/

namespace Source

theorem isFixed_below {n : Nat} (source : Source) : (source.below n).2.isFixed = source.isFixed := by
  cases source <;> rfl

theorem isFixed_unit (source : Source) : source.unit.2.isFixed = source.isFixed := by cases source <;> rfl

/-- A tape that has been read is a tape. -/
theorem isFixed_of_read? {source next : Source} {entry : Int} (h : source.read? = some (entry, next)) :
    next.isFixed = false := by
  cases source with
  | tape entries i =>
    cases h
    rfl
  | seeded seed t => cases h
  | fixed => cases h

end Source

namespace Arena

open Draw

variable {A : Arena}

section

variable {α : Type} {P : α → Prop}

theorem runs_fromSource {f : Source → α × Source} (hf : ∀ source, (f source).2.isFixed = source.isFixed) :
    A.Runs (fromSource f) fun _ => True :=
  fun w hw => ⟨hw, fun _ _ => trivial, nofun, fun hvaries => (hf w.source).trans hvaries⟩

theorem runs_below {n : Nat} : A.Runs (below n) fun _ => True := runs_fromSource Source.isFixed_below

theorem runs_unit : A.Runs unit fun _ => True := runs_fromSource Source.isFixed_unit

theorem runs_intBetween {low high : Int} : A.Runs (intBetween low high) fun _ => True :=
  runs_below.bind fun _ _ => runs_pure trivial

theorem runs_index {n : Nat} : A.Runs (index n) fun _ => True := by
  unfold index
  split
  · refine runs_get.bind fun w _ => ?_
    split
    · exact runs_misuse
    · exact runs_throw nofun
  · split
    · exact runs_pure trivial
    · exact runs_below

/-- What is chosen is one of the options. -/
theorem runs_choose {xs : List α} (h : ∀ x ∈ xs, P x) : A.Runs (choose xs) P := by
  refine runs_index.bind fun i _ => ?_
  split
  · next x hx => exact runs_pure (h x (List.mem_of_getElem? hx))
  · exact runs_misuse

theorem runs_boolean : A.Runs boolean fun _ => True := by
  refine runs_get.bind fun w _ => ?_
  split
  · exact runs_pure trivial
  · exact runs_unit.bind fun _ _ => runs_pure trivial

end

/-! ## Numbers -/

theorem runs_requireOrdered {low high : Value} :
    A.Runs (requireOrdered low high) fun _ => True := by
  refine runs_view.bind fun lo _ => runs_view.bind fun hi _ => ?_
  split
  · exact runs_misuse
  · exact runs_display.bind fun _ _ => runs_display.bind fun _ _ => runs_throw nofun
  · exact runs_pure trivial

theorem runs_numeral {v : Value} : A.Runs (numeral v) fun _ => True := by
  refine runs_view.bind fun d _ => ?_
  split
  · exact runs_pure trivial
  · exact runs_misuse

theorem runs_whole {n : Numeral} : A.Runs (whole n) fun _ => True := by
  unfold whole
  split
  · exact runs_pure trivial
  · exact runs_misuse
  · split
    · exact runs_misuse
    · split
      · exact runs_pure trivial
      · exact runs_misuse

theorem runs_offset {low high : Value} {entry : Int} :
    A.Runs (offset low high entry) fun v => ∀ R, v.Within R := by
  refine runs_numeral.bind fun a _ => runs_numeral.bind fun b _ => ?_
  refine runs_inRange.bind fun distance _ => runs_inRange.bind fun size _ => ?_
  exact runs_inRange.bind fun part _ => runs_inRange.bind fun n _ => runs_number

theorem runs_drawWhole {low high : Value} :
    A.Runs (drawWhole low high) fun v => ∀ R, v.Within R := by
  refine runs_numeral.bind fun a _ => runs_inRange.bind fun past _ => ?_
  refine runs_numeral.bind fun b _ => runs_whole.bind fun first _ => runs_whole.bind fun last _ => ?_
  dsimp only
  split
  · exact runs_misuse_bind
  · exact runs_intBetween.bind fun n _ => runs_pure fun R => Value.within_int

variable {R : Set Place}

theorem runs_intInRange {low high : Value} (h : low.Within R) :
    A.Runs (intInRange low high) fun v => v.Within R := by
  refine runs_get.bind fun w hw => ?_
  dsimp only
  split
  · exact runs_pure h
  · refine runs_requireOrdered.bind fun _ _ => ?_
    split
    · next entry source hread =>
      have hreads : A.Runs (modify fun w => { w with source := source }) fun _ => True :=
        runs_modify (fun _ hu => hu) fun _ _ => Source.isFixed_of_read? hread
      exact hreads.bind fun _ _ => runs_offset.mono fun v hv => hv R
    · exact runs_drawWhole.mono fun v hv => hv R

theorem runs_floatInRange {low high : Value} (h : low.Within R) :
    A.Runs (floatInRange low high) fun v => v.Within R := by
  refine runs_get.bind fun w hw => ?_
  split
  · exact runs_pure h
  · refine runs_requireOrdered.bind fun _ _ => ?_
    split
    · exact runs_unit.bind fun _ _ => runs_misuse
    · refine runs_numeral.bind fun a _ => runs_numeral.bind fun b _ => ?_
      refine runs_inRange.bind fun span _ => runs_unit.bind fun r _ => ?_
      refine runs_inRange.bind fun part _ => runs_inRange.bind fun n _ => ?_
      exact runs_number.mono fun v hv => hv R

/-! ## Arbitrary values -/

theorem runs_arbitraryText : A.Runs arbitraryText fun _ => True := by
  refine runs_intBetween.bind fun n _ => ?_
  refine (runs_mapM (Q := fun _ => True) fun _ _ => ?_).bind fun cs _ => runs_pure trivial
  exact runs_choose fun _ _ => trivial

theorem runs_arbitraryBytes : A.Runs arbitraryBytes fun _ => True := by
  refine runs_intBetween.bind fun n _ => ?_
  refine (runs_mapM (Q := fun _ => True) fun _ _ => ?_).mono fun _ _ => trivial
  exact runs_below.bind fun _ _ => runs_pure trivial

theorem runs_arbitraryAtom {a : Atom} (h : (Value.atom a).Within R) :
    A.Runs (arbitraryAtom a) fun v => v.Within R := by
  cases a with
  | null => exact runs_pure h
  | bool b => exact runs_boolean.bind fun b _ => runs_pure Value.within_bool
  | int n => exact runs_intBetween.bind fun n _ => runs_pure Value.within_int
  | float x => exact runs_floatInRange Value.within_float
  | nan m => exact runs_floatInRange Value.within_float
  | text t => exact runs_arbitraryText.bind fun t _ => runs_pure Value.within_text
  | bytes bs => exact runs_arbitraryBytes.bind fun bs _ => runs_pure Value.within_bytes
  | member cls i =>
    refine runs_index.bind fun i _ => runs_pure ?_
    rw [Value.within_member] at h ⊢
    exact h
  | sealed o => exact runs_throw nofun
  | enumeration cls => exact runs_throw nofun
  | absent m => exact runs_throw nofun

theorem runs_newRecord {cls : RecordClass} {xs : List Value} (hcls : ∀ p ∈ cls.places, p ∈ A.values)
    (hxs : ∀ x ∈ xs, x.Within A.values) :
    A.Runs (newRecord cls xs) fun v => v.Within A.values := by
  unfold newRecord
  split
  · exact runs_pure (Value.within_frozen.mpr ⟨hcls, hxs⟩)
  · exact runs_newObject (Object.within_record.mpr ⟨hcls, hxs, nofun⟩) nofun

theorem runs_likeFields {like : Value → Act Value} :
    ∀ {fs : List Field} {xs : List Value},
      (∀ f ∈ fs, (Value.atom f.initial).Within R) →
      (∀ x ∈ xs, A.Runs (like x) fun v => v.Within R) →
      A.Runs (likeFields like fs xs) fun ys => ∀ y ∈ ys, y.Within R := by
  intro fs
  induction fs with
  | nil =>
    intro xs _ _
    exact runs_pure nofun
  | cons f fs ih =>
    intro xs hfs hxs
    cases xs with
    | nil => exact runs_pure nofun
    | cons x xs =>
      have hrest : ∀ v : Value, v.Within R →
          A.Runs (do return v :: (← likeFields like fs xs)) fun ys => ∀ y ∈ ys, Value.Within R y := by
        intro v hv
        refine (ih (fun g hg => hfs g (by simp [hg])) fun y hy => hxs y (by simp [hy])).bind ?_
        intro ys hys
        refine runs_pure ?_
        simpa using ⟨hv, hys⟩
      rw [likeFields]
      split
      · exact (hxs x (by simp)).bind hrest
      · exact (runs_pure (hfs f (by simp))).bind hrest

theorem runs_likeObject {like : Value → Act Value}
    (hlike : ∀ x, x.Within A.values → A.Runs (like x) fun v => v.Within A.values) {o : Object}
    (ho : o.Within A.values) : A.Runs (likeObject like o) fun v => v.Within A.values := by
  unfold likeObject
  split
  · exact runs_newObject ho (by simp)
  · next x xs =>
    refine runs_intBetween.bind fun n _ => ?_
    refine (runs_mapM fun _ _ => hlike x (ho.value (by simp [Object.values]))).bind fun ys hys => ?_
    exact runs_newObject (Object.within_list.mpr hys) (by simp)
  · next es =>
    rw [Object.within_mapping] at ho
    have hentries : A.Runs (es.mapM fun e => return (e.1, ← like e.2))
        fun fs => ∀ e ∈ fs, e.1.Within A.values ∧ e.2.Within A.values := by
      refine runs_mapM fun e he => (hlike e.2 (ho e he).2).bind fun y hy => ?_
      exact runs_pure ⟨(ho e he).1, hy⟩
    refine hentries.bind fun fs hfs => ?_
    exact runs_newObject (Object.within_mapping.mpr hfs) (by simp)
  · next cls xs extras =>
    rw [Object.within_record] at ho
    obtain ⟨hcls, hxs, -⟩ := ho
    have hrecord : A.Runs (do newRecord cls (← likeFields like cls.fields xs))
        fun v => v.Within A.values := by
      refine (runs_likeFields ?_ fun x hx => hlike x (hxs x hx)).bind fun ys hys => ?_
      · exact fun f hf => Value.within_initial hcls hf
      · exact runs_newRecord hcls hys
    split
    · exact runs_throw (by simp [Fault.Plain])
    · exact hrecord
  · exact runs_misuse

theorem runs_likeWithin (levels : Nat) :
    ∀ v : Value, v.Within A.values → A.Runs (likeWithin levels v) fun v => v.Within A.values := by
  induction levels with
  | zero =>
    intro v _
    exact runs_misuse
  | succ levels ih =>
    intro v hv
    cases v with
    | atom a => exact runs_arbitraryAtom hv
    | tuple cls xs =>
      rw [Value.within_tuple] at hv
      refine (runs_mapM fun x hx => ih x (hv x hx)).bind fun ys hys => runs_pure ?_
      exact Value.within_tuple.mpr hys
    | set xs => exact runs_throw nofun
    | frozen cls xs =>
      rw [Value.within_frozen] at hv
      refine (runs_likeFields ?_ fun x hx => ih x (hv.2 x hx)).bind fun ys hys => ?_
      · exact fun f hf => Value.within_initial hv.1 hf
      · exact runs_newRecord hv.1 hys
    | ref l =>
      rw [Value.within_ref] at hv
      have hget : A.Runs (Act.ask (·.get? l)) fun o => ∀ o', o = some o' → o'.Within A.values :=
        runs_ask fun s hs o' ho' => hs.object hv ho'
      refine hget.bind fun o ho => ?_
      split
      · next o' => exact runs_likeObject ih (ho o' rfl)
      · exact runs_misuse

theorem runs_arbitrary {v : Value} (hv : v.Within A.values) :
    A.Runs (arbitrary v) fun v => v.Within A.values := by
  refine runs_get.bind fun w _ => ?_
  split
  · exact runs_pure hv
  · exact runs_likeWithin _ v hv

/-! ## Recipes -/

mutual

theorem Holds.build {s : Store} (h : A.Holds s) : ∀ d : Data, d.Within A.values →
    (Store.build d s).1.Within A.values ∧ A.Holds (Store.build d s).2
  | .atom a, hd => by
    cases a with
    | nan m =>
      simp only [Store.build]
      split
      · exact ⟨Value.within_nan, h⟩
      · exact ⟨Value.within_nan, h.marks _⟩
    | _ => exact ⟨hd, h⟩
  | .tuple cls xs, hd => by
    obtain ⟨hvs, hs⟩ := h.buildAll xs hd
    exact ⟨Value.within_tuple.mpr hvs, hs⟩
  | .set xs, hd => by
    obtain ⟨hvs, hs⟩ := h.buildAll xs hd
    exact ⟨Value.within_set.mpr hvs, hs⟩
  | .list xs, hd => by
    obtain ⟨hvs, hs⟩ := h.buildAll xs hd
    exact ⟨Value.within_ref.mpr (hs.fresh _ (Nat.le_refl _)).2,
      hs.alloc (Object.within_list.mpr hvs) nofun⟩
  | .mapping es, hd => by
    obtain ⟨hes, hs⟩ := h.buildEntries es hd
    exact ⟨Value.within_ref.mpr (hs.fresh _ (Nat.le_refl _)).2,
      hs.alloc (Object.within_mapping.mpr hes) nofun⟩
  | .record cls xs, hd => by
    obtain ⟨hvs, hs⟩ := h.buildAll xs hd.2
    simp only [Store.build]
    split
    · exact ⟨Value.within_frozen.mpr ⟨hd.1, hvs⟩, hs⟩
    · exact ⟨Value.within_ref.mpr (hs.fresh _ (Nat.le_refl _)).2,
        hs.alloc (Object.within_record.mpr ⟨hd.1, hvs, nofun⟩) nofun⟩
  | .elided name, _ => ⟨Value.within_null, h⟩

theorem Holds.buildAll {s : Store} (h : A.Holds s) : ∀ ds : List Data, Data.WithinAll A.values ds →
    (∀ v ∈ (Store.buildAll ds s).1, v.Within A.values) ∧ A.Holds (Store.buildAll ds s).2
  | [], _ => ⟨nofun, h⟩
  | d :: ds, hd => by
    obtain ⟨hv, hs⟩ := h.build d hd.1
    obtain ⟨hvs, hs⟩ := hs.buildAll ds hd.2
    refine ⟨?_, hs⟩
    simpa [Store.buildAll] using ⟨hv, hvs⟩

theorem Holds.buildEntries {s : Store} (h : A.Holds s) :
    ∀ es : List (Data × Data), Data.WithinEntries A.values es →
      (∀ e ∈ (Store.buildEntries es s).1, e.1.Within A.values ∧ e.2.Within A.values) ∧
        A.Holds (Store.buildEntries es s).2
  | [], _ => ⟨nofun, h⟩
  | (k, x) :: es, hd => by
    obtain ⟨hk, hs⟩ := h.build k hd.1.1
    obtain ⟨hx, hs⟩ := hs.build x hd.1.2
    obtain ⟨hes, hs⟩ := hs.buildEntries es hd.2
    refine ⟨?_, hs⟩
    intro e he
    rcases List.mem_cons.mp he with rfl | he
    · exact ⟨hk, hx⟩
    · exact hes e he

end

theorem runs_make {r : Recipe} (h : r.Fits A) :
    A.Runs r.make fun v => v.Within A.values := by
  cases r with
  | error e => exact (runs_rethrow h).bind fun _ (h : False) => h.elim
  | ok d =>
    refine (runs_pure (P := fun x => x = d) rfl).bind fun x hx w hw => ?_
    subst hx
    obtain ⟨hv, hs⟩ := hw.build x h
    refine ⟨hs, ?_, nofun, id⟩
    rintro v ⟨⟩
    exact hv

theorem runs_draw {g : Generator} (h : g.Fits A) :
    A.Runs g.draw fun v => v.Within A.values := by
  cases g with
  | int low high =>
    exact (runs_make h.1).bind fun a ha => (runs_make h.2).bind fun b _ => runs_intInRange ha
  | const r => exact runs_make h
  | choose rs =>
    refine (runs_mapM fun r hr => runs_make (h r hr)).bind fun vs hvs => ?_
    exact runs_choose hvs
  | arbitrary r => exact (runs_make h).bind fun v hv => runs_arbitrary hv

end Arena

end Conform
