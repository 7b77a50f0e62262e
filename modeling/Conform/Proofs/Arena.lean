import Conform.Proofs.Place
import Conform.Proofs.Run

/-!
# What an action may change

An `Arena` says which places a run may write to and in which places the values lie that it works with.
Places that nothing has been put at yet count as both, so that new objects need no bookkeeping: what a
run makes lies in the arena from the start. `Arena.Holds` is the invariant of stores along a run; it
says, among others, that nothing but writable places has changed since the start.

`Arena.Runs a post` says that an action keeps the invariant however it ends, that its answer meets
`post`, that a source that varies still does, and, in a strict arena, that it does not end with the fault of
a used-up budget of attempts, which only the loop around mutation raises. There is one lemma for every way of
putting actions together.
-/

namespace Conform

open Act

/-- Any fault but that of a used-up budget of attempts. -/
def Fault.Plain (e : Fault) : Prop := ∀ n r, e ≠ .unsatisfied n r

/-- What two stores have in common where the second comes from the first by writing to some places. -/
structure Store.Frame (U : Set Place) (s t : Store) : Prop where
  size : s.size ≤ t.size
  get : ∀ l, Place.object l ∉ U → t.get? l = s.get? l
  given : ∀ a, (∀ o, a.owner? = some o → Place.attributes o ∉ U) →
    ∀ name, t.given? a name = s.given? a name
  ungiven : (∀ o, Place.attributes o ∉ U) → t.given = s.given

theorem Store.Frame.refl (U : Set Place) (s : Store) : s.Frame U s :=
  ⟨Nat.le_refl _, fun _ _ => rfl, fun _ _ _ => rfl, fun _ => rfl⟩

/-- The places that a run may write to, those that its values lie in, the store it starts from, and
whether code brought from outside must not raise the fault of a used-up budget. -/
structure Arena where
  writable : Set Place
  values : Set Place
  start : Store
  strict : Prop

namespace Arena

/-- Whether the values of an arena may be changed. -/
def Mutable (A : Arena) : Prop := A.values ⊆ A.writable

/-- The invariant of the stores along a run. -/
structure Holds (A : Arena) (s : Store) : Prop where
  closed : s.Closed A.values
  slots : ∀ l vs, Place.object l ∈ A.writable → s.get? l = some (.slots vs) →
    ∀ m, Value.ref m ∈ vs → Place.object m ∈ A.writable
  fresh : ∀ l, s.size ≤ l → Place.object l ∈ A.writable ∧ Place.object l ∈ A.values
  owned : s.Owned
  frame : A.start.Frame A.writable s

variable {A : Arena} {s : Store}

/-! ## Writing -/

theorem Holds.put (h : A.Holds s) {l : Loc} {o : Object} (hl : Place.object l ∈ A.writable)
    (hv : o.Within A.values)
    (hs : ∀ vs, o = .slots vs → ∀ m, Value.ref m ∈ vs → Place.object m ∈ A.writable) :
    A.Holds (s.put l o) where
  closed := by
    intro p hp q hq
    cases p with
    | object m =>
      obtain ⟨o', ho', hq⟩ := hq
      rw [Store.get?_put] at ho'
      split at ho'
      · cases ho'
        exact hv q hq
      · exact h.closed _ hp q ⟨o', ho', hq⟩
    | attributes o => exact h.closed _ hp q hq
  slots := by
    intro m vs hm hget
    rw [Store.get?_put] at hget
    split at hget
    · cases hget
      exact hs vs rfl
    · exact h.slots m vs hm hget
  fresh := by simpa using h.fresh
  owned := h.owned
  frame := by
    refine ⟨by simpa using h.frame.size, ?_, by simpa [Store.given?] using h.frame.given, h.frame.ungiven⟩
    intro m hm
    rw [Store.get?_put_of_ne, h.frame.get m hm]
    rintro rfl
    exact hm hl

theorem Holds.alloc (h : A.Holds s) {o : Object} (hv : o.Within A.values)
    (hs : ∀ vs, o = .slots vs → ∀ m, Value.ref m ∈ vs → Place.object m ∈ A.writable) :
    A.Holds (s.alloc o).2 where
  closed := by
    intro p hp q hq
    cases p with
    | object m =>
      obtain ⟨o', ho', hq⟩ := hq
      rw [Store.get?_alloc] at ho'
      split at ho'
      · cases ho'
        exact hv q hq
      · exact h.closed _ hp q ⟨o', ho', hq⟩
    | attributes o => exact h.closed _ hp q hq
  slots := by
    intro m vs hm hget
    rw [Store.get?_alloc] at hget
    split at hget
    · cases hget
      exact hs vs rfl
    · exact h.slots m vs hm hget
  fresh := by
    intro l hl
    rw [Store.size_alloc] at hl
    exact h.fresh l (by omega)
  owned := h.owned
  frame := by
    refine ⟨?_, ?_, by simpa [Store.given?] using h.frame.given, h.frame.ungiven⟩
    · rw [Store.size_alloc]
      exact Nat.le_succ_of_le h.frame.size
    · intro m hm
      have hlt : m < s.size := by
        by_contra hge
        exact hm (h.fresh m (Nat.not_lt.mp hge)).1
      rw [Store.get?_alloc_of_lt hlt, h.frame.get m hm]

theorem Holds.give (h : A.Holds s) {a : Atom} {o : Owner} {name : String} {v : Value}
    (ho : a.owner? = some o) (hw : Place.attributes o ∈ A.writable) (hv : v.Within A.values) :
    A.Holds (s.give a name v) where
  closed := by
    intro p hp q hq
    cases p with
    | object l => exact h.closed _ hp q hq
    | attributes o' =>
      obtain ⟨b, n, x, hb, hmem, hq⟩ := hq
      rcases List.mem_cons.mp hmem with heq | hmem
      · cases heq
        exact hv q hq
      · exact h.closed _ hp q ⟨b, n, x, hb, hmem, hq⟩
  slots := h.slots
  fresh := h.fresh
  owned := by
    intro e he
    rcases List.mem_cons.mp he with rfl | he
    · exact Option.isSome_iff_exists.mpr ⟨o, ho⟩
    · exact h.owned e he
  frame := by
    refine ⟨h.frame.size, h.frame.get, ?_, fun hnone => absurd hw (hnone o)⟩
    intro b hb n
    have hne : a ≠ b := by
      rintro rfl
      exact hb o ho hw
    rw [← h.frame.given b hb n]
    simp [Store.give, Store.given?, hne]

theorem Holds.marks (h : A.Holds s) (n : Nat) : A.Holds { s with marks := n } where
  closed := h.closed
  slots := h.slots
  fresh := h.fresh
  owned := h.owned
  frame := ⟨h.frame.size, h.frame.get, h.frame.given, h.frame.ungiven⟩

/-! ## Reading -/

theorem Holds.object (h : A.Holds s) {l : Loc} {o : Object} (hl : Place.object l ∈ A.values)
    (hget : s.get? l = some o) : o.Within A.values :=
  h.closed.object hl hget

/-- The slots of a place whose object lies among the values. -/
theorem Holds.slots_within (h : A.Holds s) {c : Loc} (hc : Place.object c ∈ A.values) :
    ∀ v ∈ s.slots c, v.Within A.values := by
  intro v hv
  unfold Store.slots at hv
  split at hv
  · next vs hget => exact (h.object hc hget).value hv
  · cases hv

/-- What the slots of a writable place refer to directly is writable. -/
theorem Holds.slots_writable (h : A.Holds s) {c m : Loc} (hc : Place.object c ∈ A.writable)
    (hm : Value.ref m ∈ s.slots c) : Place.object m ∈ A.writable := by
  unfold Store.slots at hm
  split at hm
  · next vs hget => exact h.slots c vs hc hget m hm
  · cases hm

/-- The slots of a place that may not be written are those at the start. -/
theorem Holds.slots_start (h : A.Holds s) {c : Loc} (hc : Place.object c ∉ A.writable) :
    s.slots c = A.start.slots c := by
  rw [Store.slots, Store.slots, h.frame.get c hc]

/-! ## Runs -/

/-- Whether a fault may end a run. -/
def Admits (A : Arena) (e : Fault) : Prop := A.strict → e.Plain

/-- Whether an action keeps the invariant, and ends with an answer as described or with a fault that may
end a run. A source that varies goes on varying. -/
def Runs {α : Type} (A : Arena) (a : Act α) (post : α → Prop) : Prop :=
  ∀ w, A.Holds w.store → A.Holds (exec a w).2.store ∧
    (∀ x, (exec a w).1 = .ok x → post x) ∧ (∀ e, (exec a w).1 = .error e → A.Admits e) ∧
    (w.source.isFixed = false → (exec a w).2.source.isFixed = false)

section

variable {α β : Type} {P : α → Prop} {Q : β → Prop}

theorem runs_pure {x : α} (h : P x) : A.Runs (pure x) P := by
  intro w hw
  refine ⟨hw, ?_, nofun, id⟩
  rintro y ⟨⟩
  exact h

theorem Runs.bind {a : Act α} {f : α → Act β} (ha : A.Runs a P) (hf : ∀ x, P x → A.Runs (f x) Q) :
    A.Runs (a >>= f) Q := by
  intro w hw
  obtain ⟨hs, hok, herr, hvaries⟩ := ha w hw
  rw [exec_bind]
  rcases hrun : exec a w with ⟨_ | x, u⟩
  · rw [hrun] at hs herr hvaries
    refine ⟨hs, nofun, ?_, hvaries⟩
    rintro e ⟨⟩
    exact herr _ rfl
  · rw [hrun] at hs hok hvaries
    obtain ⟨hs', hok', herr', hvaries'⟩ := hf x (hok x rfl) u hs
    exact ⟨hs', hok', herr', fun h => hvaries' (hvaries h)⟩

theorem Runs.mono {a : Act α} {P' : α → Prop} (ha : A.Runs a P) (h : ∀ x, P x → P' x) :
    A.Runs a P' := by
  intro w hw
  obtain ⟨hs, hok, hends⟩ := ha w hw
  exact ⟨hs, fun x hx => h x (hok x hx), hends⟩

/-- What is known of an answer in any world holds along a run. -/
theorem Runs.answers {a : Act α} {P' : α → Prop} (ha : A.Runs a P) (h : ∀ w x u, exec a w = (.ok x, u) → P' x) :
    A.Runs a fun x => P x ∧ P' x := by
  intro w hw
  obtain ⟨hs, hok, hends⟩ := ha w hw
  refine ⟨hs, fun x hx => ⟨hok x hx, h w x (exec a w).2 ?_⟩, hends⟩
  rw [← hx]

theorem runs_rethrow {e : Fault} (h : A.Admits e) : A.Runs (throw e : Act α) P := by
  intro w hw
  refine ⟨hw, nofun, ?_, id⟩
  rintro e ⟨⟩
  exact h

theorem runs_throw {e : Fault} (h : e.Plain) : A.Runs (throw e : Act α) P :=
  runs_rethrow fun _ => h

theorem Runs.tryCatch {a : Act α} {f : Fault → Act α} (ha : A.Runs a P)
    (hf : ∀ e, A.Admits e → A.Runs (f e) P) : A.Runs (tryCatch a f) P := by
  intro w hw
  obtain ⟨hs, hok, herr, hvaries⟩ := ha w hw
  rw [exec_tryCatch]
  rcases hrun : exec a w with ⟨e | x, u⟩
  · rw [hrun] at hs herr hvaries
    obtain ⟨hs', hok', herr', hvaries'⟩ := hf e (herr e rfl) u hs
    exact ⟨hs', hok', herr', fun h => hvaries' (hvaries h)⟩
  · rw [hrun] at hs hok hvaries
    exact ⟨hs, hok, nofun, hvaries⟩

theorem runs_misuse {m : Misuse} : A.Runs (misuse m : Act α) P :=
  runs_throw (by intro n r h; cases h)

theorem runs_misuse_bind {m : Misuse} {f : α → Act β} : A.Runs (misuse m >>= f) Q :=
  (runs_misuse (P := fun _ => False)).bind fun _ h => h.elim

theorem runs_ask {f : Store → α} (h : ∀ s, A.Holds s → P (f s)) : A.Runs (ask f) P := by
  intro w hw
  refine ⟨hw, ?_, nofun, id⟩
  rintro y ⟨⟩
  exact h _ hw

theorem runs_get : A.Runs (get : Act World) fun w => A.Holds w.store := by
  intro w hw
  refine ⟨hw, ?_, nofun, id⟩
  rintro y ⟨⟩
  exact hw

/-- The log is no concern of the invariant. -/
theorem runs_modify {f : World → World} (h : ∀ w, A.Holds w.store → A.Holds (f w).store)
    (hvaries : ∀ w, w.source.isFixed = false → (f w).source.isFixed = false) :
    A.Runs (modify f : Act PUnit) fun _ => True :=
  fun w hw => ⟨h w hw, fun _ _ => trivial, nofun, hvaries w⟩

theorem runs_log {level : Level} {logger message : String} :
    A.Runs (log level logger message) fun _ => True :=
  runs_modify (fun _ hw => hw) fun _ hvaries => hvaries

theorem runs_alloc {o : Object} (hv : o.Within A.values)
    (hs : ∀ vs, o = .slots vs → ∀ m, Value.ref m ∈ vs → Place.object m ∈ A.writable) :
    A.Runs (Act.alloc o) fun l => Place.object l ∈ A.writable ∧ Place.object l ∈ A.values := by
  intro w hw
  refine ⟨hw.alloc hv hs, ?_, nofun, id⟩
  rintro l ⟨⟩
  exact hw.fresh _ (Nat.le_refl _)

/-- A new object that is no cell gives a value of the arena. -/
theorem runs_newObject {o : Object} (ho : o.Within A.values) (hs : ∀ vs, o ≠ .slots vs) :
    A.Runs (do return Value.ref (← Act.alloc o)) fun v => Value.Within A.values v := by
  have halloc := runs_alloc ho fun vs h => absurd h (hs vs)
  exact halloc.bind fun l hl => runs_pure (Value.within_ref.mpr hl.2)

theorem runs_put {l : Loc} {o : Object} (hl : Place.object l ∈ A.writable)
    (hv : o.Within A.values)
    (hs : ∀ vs, o = .slots vs → ∀ m, Value.ref m ∈ vs → Place.object m ∈ A.writable) :
    A.Runs (Act.put l o) fun _ => True :=
  fun _ hw => ⟨hw.put hl hv hs, fun _ _ => trivial, nofun, id⟩

theorem runs_decided {o : Option Bool} : A.Runs (decided o) fun _ => True := by
  cases o with
  | none => exact runs_misuse
  | some b => exact runs_pure trivial

theorem runs_written {o : Option String} : A.Runs (written o) fun _ => True := by
  cases o with
  | none => exact runs_misuse
  | some t => exact runs_pure trivial

theorem runs_inRange {o : Option α} : A.Runs (inRange o) fun _ => True := by
  cases o with
  | none => exact runs_misuse
  | some x => exact runs_pure trivial

theorem runs_view {v : Value} : A.Runs (view v) fun _ => True := runs_ask fun _ _ => trivial

theorem runs_viewAll {vs : List Value} : A.Runs (viewAll vs) fun _ => True :=
  runs_ask fun _ _ => trivial

theorem runs_equal {v w : Value} : A.Runs (equal v w) fun _ => True :=
  Runs.bind (runs_ask fun _ _ => trivial) fun _ (_ : True) => runs_decided

theorem runs_isIn {v : Value} {vs : List Value} : A.Runs (isIn v vs) fun _ => True :=
  Runs.bind (runs_ask fun _ _ => trivial) fun _ (_ : True) => runs_decided

theorem runs_render {v : Value} : A.Runs (render v) fun _ => True :=
  Runs.bind runs_view fun _ _ => runs_written

theorem runs_display {v : Value} : A.Runs (display v) fun _ => True :=
  Runs.bind runs_view fun _ _ => runs_written

theorem runs_number {n : Numeral} : A.Runs (number n) fun v => ∀ R, v.Within R := by
  cases n with
  | int n => exact runs_pure fun R => Value.within_int
  | float x => exact runs_pure fun R => Value.within_float
  | nan =>
    intro w hw
    refine ⟨hw.marks _, ?_, nofun, id⟩
    rintro v ⟨⟩ R
    exact Value.within_nan

theorem fault_under_plain {e : Fault} {segment : String} (h : e.Plain) : (e.under segment).Plain := by
  intro n r
  cases e with
  | unsatisfied m t => exact absurd rfl (h m t)
  | exhausted fact reason last => nofun
  | failed vs => nofun
  | schema path message => nofun
  | refused cause => nofun
  | misuse cause => nofun

theorem Runs.under {a : Act α} {segment : String} (ha : A.Runs a P) :
    A.Runs (mapFault (Fault.under segment) a) P :=
  ha.tryCatch fun _ he => runs_rethrow fun hstrict => fault_under_plain (he hstrict)

theorem runs_mapM {a : α → Act β} : ∀ {xs : List α}, (∀ x ∈ xs, A.Runs (a x) Q) →
    A.Runs (xs.mapM a) fun ys => ∀ y ∈ ys, Q y := by
  intro xs
  induction xs with
  | nil =>
    intro _
    exact runs_pure nofun
  | cons x xs ih =>
    intro h
    rw [List.mapM_cons]
    refine (h x (by simp)).bind fun y hy => (ih fun z hz => h z (by simp [hz])).bind fun ys hys => ?_
    refine runs_pure ?_
    simpa using ⟨hy, hys⟩

theorem runs_foldlM {a : β → α → Act β} : ∀ {xs : List α} {y : β},
    (∀ x ∈ xs, ∀ y, Q y → A.Runs (a y x) Q) → Q y → A.Runs (xs.foldlM a y) Q := by
  intro xs
  induction xs with
  | nil =>
    intro y _ hy
    exact runs_pure hy
  | cons x xs ih =>
    intro y h hy
    rw [List.foldlM_cons]
    exact (h x (by simp) y hy).bind fun z hz => ih (fun x' hx' => h x' (by simp [hx'])) hz

end

end Arena

end Conform
