import Conform.Fact.Basic
import Conform.Proofs.Mirror.Writing
import Conform.Proofs.Run

/-!
# Runs in step

Two worlds mirror each other if their stores do and all else in them is the same. `Mirroring.Relates M a b P`
says that two actions run in step in such worlds: both end with the same fault, or with answers related by
`P`, and leave worlds that mirror each other. `Mirroring.Agrees` is the case of equal answers. There is one
lemma for every way of putting actions together. Draws run in step, since both sources are the same.
-/

namespace Conform

open Act

namespace Mirroring

/-- Whether two worlds have stores that mirror each other and are the same otherwise. -/
structure Mirrors (M : Mirroring) (w u : World) : Prop where
  store : M.Holds w.store u.store
  source : w.source = u.source
  log : w.log = u.log

/-- Whether two runs have ended alike, and left worlds that mirror each other. -/
inductive Ended {α β : Type} (M : Mirroring) (P : α → β → Prop) :
    Except Fault α × World → Except Fault β × World → Prop
  | ok {x : α} {y : β} {w u : World} : P x y → M.Mirrors w u → Ended M P (.ok x, w) (.ok y, u)
  | error {e : Fault} {w u : World} : M.Mirrors w u → Ended M P (.error e, w) (.error e, u)

/-- Whether two actions run in step, with answers that are related. -/
def Relates {α β : Type} (M : Mirroring) (a : Act α) (b : Act β) (P : α → β → Prop) : Prop :=
  ∀ w u : World, M.Mirrors w u → M.Ended P (exec a w) (exec b u)

/-- Whether two actions run in step, with equal answers. -/
abbrev Agrees {α : Type} (M : Mirroring) (a b : Act α) (p : α → Prop) : Prop :=
  M.Relates a b fun x y => x = y ∧ p y

variable {M : Mirroring} {α β γ δ : Type} {P : α → β → Prop} {Q : γ → δ → Prop} {p : α → Prop}
  {v x y : Value} {xs : List Value}

/-! ## Putting actions together -/

theorem relates_pure {x : α} {y : β} (h : P x y) : M.Relates (pure x) (pure y) P :=
  fun _ _ hw => .ok h hw

theorem agrees_pure {x : α} (h : p x) : M.Agrees (pure x) (pure x) p := relates_pure ⟨rfl, h⟩

theorem relates_throw {e : Fault} : M.Relates (throw e : Act α) (throw e : Act β) P :=
  fun _ _ hw => .error hw

theorem relates_misuse {m : Misuse} : M.Relates (misuse m : Act α) (misuse m : Act β) P := relates_throw

theorem Relates.bind {a : Act α} {b : Act β} {f : α → Act γ} {g : β → Act δ} (hab : M.Relates a b P)
    (hfg : ∀ x y, P x y → M.Relates (f x) (g y) Q) : M.Relates (a >>= f) (b >>= g) Q := by
  intro w u hw
  have hended := hab w u hw
  rw [exec_bind, exec_bind]
  revert hended
  generalize exec a w = r
  generalize exec b u = r'
  rintro (⟨hxy, hw'⟩ | hw')
  · exact hfg _ _ hxy _ _ hw'
  · exact .error hw'

/-- Actions that go on with equal answers. -/
theorem Agrees.bind {a b : Act α} {f : α → Act γ} {g : α → Act δ} (hab : M.Agrees a b p)
    (hfg : ∀ x, p x → M.Relates (f x) (g x) Q) : M.Relates (a >>= f) (b >>= g) Q := by
  refine Relates.bind hab ?_
  rintro x y ⟨rfl, hx⟩
  exact hfg x hx

theorem Relates.mono {P' : α → β → Prop} {a : Act α} {b : Act β} (hab : M.Relates a b P)
    (h : ∀ x y, P x y → P' x y) : M.Relates a b P' := by
  intro w u hw
  have hended := hab w u hw
  revert hended
  generalize exec a w = r
  generalize exec b u = r'
  rintro (⟨hxy, hw'⟩ | hw')
  · exact .ok (h _ _ hxy) hw'
  · exact .error hw'

theorem Relates.tryCatch {a : Act α} {b : Act β} {f : Fault → Act α} {g : Fault → Act β}
    (hab : M.Relates a b P) (hfg : ∀ e, M.Relates (f e) (g e) P) :
    M.Relates (tryCatch a f) (tryCatch b g) P := by
  intro w u hw
  have hended := hab w u hw
  rw [exec_tryCatch, exec_tryCatch]
  revert hended
  generalize exec a w = r
  generalize exec b u = r'
  rintro (⟨hxy, hw'⟩ | hw')
  · exact .ok hxy hw'
  · exact hfg _ _ _ hw'

theorem Relates.under {a : Act α} {b : Act β} {segment : String} (hab : M.Relates a b P) :
    M.Relates (mapFault (Fault.under segment) a) (mapFault (Fault.under segment) b) P :=
  hab.tryCatch fun _ => relates_throw

theorem relates_misuse_bind {m : Misuse} {f : α → Act γ} {g : β → Act δ} :
    M.Relates (misuse m >>= f) (misuse m >>= g) Q :=
  (relates_misuse (P := fun _ _ => False)).bind fun _ _ h => h.elim

theorem relates_get : M.Relates (get : Act World) get M.Mirrors := fun _ _ hw => .ok hw hw

theorem relates_set {w u : World} (h : M.Mirrors w u) :
    M.Relates (set w : Act PUnit) (set u) fun _ _ => True := fun _ _ _ => .ok trivial h

theorem relates_modify {f g : World → World} (h : ∀ w u, M.Mirrors w u → M.Mirrors (f w) (g u)) :
    M.Relates (modify f : Act PUnit) (modify g) fun _ _ => True := fun w u hw => .ok trivial (h w u hw)

theorem relates_onStore {f : Store → α × Store} {g : Store → β × Store}
    (h : ∀ s t, M.Holds s t → P (f s).1 (g t).1 ∧ M.Holds (f s).2 (g t).2) :
    M.Relates (onStore f) (onStore g) P := by
  intro w u hw
  obtain ⟨hP, hs⟩ := h _ _ hw.store
  exact .ok hP ⟨hs, hw.source, hw.log⟩

theorem agrees_ask {f g : Store → α} (h : ∀ s t, M.Holds s t → f s = g t ∧ p (g t)) :
    M.Agrees (ask f) (ask g) p := fun _ _ hw => .ok (h _ _ hw.store) hw

theorem agrees_mapM {ι : Type} {a b : ι → Act α} : ∀ {is : List ι}, (∀ i ∈ is, M.Agrees (a i) (b i) p) →
    M.Agrees (is.mapM a) (is.mapM b) fun ys => ∀ y ∈ ys, p y := by
  intro is
  induction is with
  | nil =>
    intro _
    exact agrees_pure nofun
  | cons i is ih =>
    intro h
    rw [List.mapM_cons, List.mapM_cons]
    refine (h i (by simp)).bind fun y hy => (ih fun j hj => h j (by simp [hj])).bind fun ys hys => ?_
    refine agrees_pure ?_
    simpa using ⟨hy, hys⟩

/-! ## Reading and writing -/

theorem agrees_written {o : Option String} : M.Agrees (written o) (written o) fun _ => True := by
  cases o with
  | none => exact relates_misuse
  | some t => exact agrees_pure trivial

theorem agrees_decided {o : Option Bool} : M.Agrees (decided o) (decided o) fun _ => True := by
  cases o with
  | none => exact relates_misuse
  | some b => exact agrees_pure trivial

theorem agrees_inRange {o : Option α} : M.Agrees (inRange o) (inRange o) fun _ => True := by
  cases o with
  | none => exact relates_misuse
  | some x => exact agrees_pure trivial

theorem agrees_view (hv : v.Within M.values) : M.Agrees (view v) (view v) fun _ => True :=
  agrees_ask fun _ _ h => ⟨h.view_eq hv, trivial⟩

theorem agrees_viewAll (hxs : ∀ x ∈ xs, x.Within M.values) :
    M.Agrees (viewAll xs) (viewAll xs) fun _ => True :=
  agrees_ask fun _ _ h => ⟨h.viewAll_eq hxs, trivial⟩

theorem agrees_equal (hx : x.Within M.values) (hy : y.Within M.values) :
    M.Agrees (equal x y) (equal x y) fun _ => True :=
  Agrees.bind (p := fun _ => True) (agrees_ask fun _ _ h => ⟨h.equal?_eq x y hx hy, trivial⟩) fun _ _ =>
    agrees_decided

theorem agrees_isIn (hv : v.Within M.values) (hxs : ∀ x ∈ xs, x.Within M.values) :
    M.Agrees (isIn v xs) (isIn v xs) fun _ => True :=
  Agrees.bind (p := fun _ => True) (agrees_ask fun _ _ h => ⟨h.isIn?_eq hv hxs, trivial⟩) fun _ _ =>
    agrees_decided

theorem agrees_render (hv : v.Within M.values) : M.Agrees (render v) (render v) fun _ => True :=
  (agrees_view hv).bind fun _ _ => agrees_written

theorem agrees_display (hv : v.Within M.values) : M.Agrees (display v) (display v) fun _ => True :=
  (agrees_view hv).bind fun _ _ => agrees_written

theorem agrees_number {n : Numeral} : M.Agrees (number n) (number n) fun v => ∀ R, v.Within R := by
  cases n with
  | int n => exact agrees_pure fun R => Value.within_int
  | float x => exact agrees_pure fun R => Value.within_float
  | nan =>
    refine relates_onStore fun s t h => ⟨⟨?_, fun R => Value.within_nan⟩, h.freshNaN⟩
    rw [Store.freshNaN, Store.freshNaN, h.marks]

theorem agrees_log {level : Level} {logger message : String} :
    M.Agrees (log level logger message) (log level logger message) fun _ => True :=
  fun _ _ h => .ok ⟨rfl, trivial⟩ ⟨h.store, h.source, congrArg (Array.push · _) h.log⟩

theorem agrees_alloc {o : Object} (ho : o.Within M.values) :
    M.Agrees (alloc o) (alloc o) fun l => Place.object l ∈ M.values :=
  relates_onStore fun _ _ h => ⟨⟨h.size, h.fresh _ (Nat.le_refl _)⟩, h.alloc ho⟩

theorem agrees_newObject {o : Object} (ho : o.Within M.values) :
    M.Agrees (do return Value.ref (← alloc o)) (do return Value.ref (← alloc o)) (Value.Within M.values) :=
  (agrees_alloc ho).bind fun _ hl => agrees_pure (Value.within_ref.mpr hl)

/-- Slots are put into a cell, here and where it stands there. -/
theorem agrees_put {c : Loc} (hc : c ∈ M.cells) {xs : List Value} (hxs : ∀ x ∈ xs, x.Within M.values) :
    M.Agrees (put (M.place c) (.slots xs)) (put c (.slots xs)) fun _ => True :=
  relates_onStore fun _ _ h => ⟨⟨rfl, trivial⟩, h.put hc (Object.within_slots.mpr hxs) (.inr ⟨xs, rfl⟩)⟩

theorem agrees_put_value {l : Loc} (hl : Place.object l ∈ M.values) {o : Object} (ho : o.Within M.values) :
    M.Agrees (put l o) (put l o) fun _ => True :=
  relates_onStore fun _ _ h => ⟨⟨rfl, trivial⟩, h.put_value hl ho⟩

/-! ## Choices -/

section

open Draw

theorem agrees_fromSource {f : Source → α × Source} : M.Agrees (fromSource f) (fromSource f) fun _ => True := by
  refine relates_get.bind fun w u h => ?_
  have hset : M.Mirrors { w with source := (f w.source).2 } { u with source := (f u.source).2 } :=
    ⟨h.store, congrArg (fun s => (f s).2) h.source, h.log⟩
  exact (relates_set hset).bind fun _ _ _ => relates_pure ⟨congrArg (fun s => (f s).1) h.source, trivial⟩

theorem agrees_below {n : Nat} : M.Agrees (below n) (below n) fun _ => True := agrees_fromSource

theorem agrees_unit : M.Agrees unit unit fun _ => True := agrees_fromSource

theorem agrees_intBetween {low high : Int} : M.Agrees (intBetween low high) (intBetween low high) fun _ => True :=
  agrees_below.bind fun _ _ => agrees_pure trivial

theorem agrees_index {n : Nat} : M.Agrees (index n) (index n) fun _ => True := by
  unfold index
  split
  · refine relates_get.bind fun w u h => ?_
    rw [h.source]
    split
    · exact relates_misuse
    · exact relates_throw
  · split
    · exact agrees_pure trivial
    · exact agrees_below

/-- What is chosen is one of the options. -/
theorem agrees_choose {as : List α} (h : ∀ a ∈ as, p a) : M.Agrees (choose as) (choose as) p := by
  refine agrees_index.bind fun i _ => ?_
  split
  · next a ha => exact agrees_pure (h a (List.mem_of_getElem? ha))
  · exact relates_misuse

theorem agrees_boolean : M.Agrees boolean boolean fun _ => True := by
  refine relates_get.bind fun w u h => ?_
  rw [h.source]
  split
  · exact agrees_pure trivial
  · exact agrees_unit.bind fun _ _ => agrees_pure trivial

/-! ## Numbers -/

variable {low high : Value}

theorem agrees_requireOrdered (hl : low.Within M.values) (hh : high.Within M.values) :
    M.Agrees (requireOrdered low high) (requireOrdered low high) fun _ => True := by
  refine (agrees_view hl).bind fun lo _ => (agrees_view hh).bind fun hi _ => ?_
  split
  · exact relates_misuse
  · exact (agrees_display hl).bind fun _ _ => (agrees_display hh).bind fun _ _ => relates_throw
  · exact agrees_pure trivial

theorem agrees_numeral (hv : v.Within M.values) : M.Agrees (numeral v) (numeral v) fun _ => True := by
  refine (agrees_view hv).bind fun d _ => ?_
  split
  · exact agrees_pure trivial
  · exact relates_misuse

theorem agrees_whole {n : Numeral} : M.Agrees (whole n) (whole n) fun _ => True := by
  unfold whole
  split
  · exact agrees_pure trivial
  · exact relates_misuse
  · split
    · exact relates_misuse
    · split
      · exact agrees_pure trivial
      · exact relates_misuse

theorem agrees_offset (hl : low.Within M.values) (hh : high.Within M.values) {entry : Int} :
    M.Agrees (offset low high entry) (offset low high entry) fun v => ∀ R, v.Within R := by
  refine (agrees_numeral hl).bind fun a _ => (agrees_numeral hh).bind fun b _ => ?_
  refine agrees_inRange.bind fun distance _ => agrees_inRange.bind fun size _ => ?_
  exact agrees_inRange.bind fun part _ => agrees_inRange.bind fun n _ => agrees_number

theorem agrees_drawWhole (hl : low.Within M.values) (hh : high.Within M.values) :
    M.Agrees (drawWhole low high) (drawWhole low high) fun v => ∀ R, v.Within R := by
  refine (agrees_numeral hh).bind fun a _ => agrees_inRange.bind fun past _ => ?_
  refine (agrees_numeral hl).bind fun b _ => agrees_whole.bind fun first _ => agrees_whole.bind fun last _ => ?_
  dsimp only
  split
  · exact relates_misuse_bind
  · exact agrees_intBetween.bind fun n _ => agrees_pure fun R => Value.within_int

theorem agrees_intInRange (hl : low.Within M.values) (hh : high.Within M.values) :
    M.Agrees (intInRange low high) (intInRange low high) (Value.Within M.values) := by
  refine relates_get.bind fun w u h => ?_
  rw [h.source]
  dsimp only
  split
  · exact agrees_pure hl
  · refine (agrees_requireOrdered hl hh).bind fun _ _ => ?_
    split
    · next entry source hread =>
      have hset (w u : World) (h : M.Mirrors w u) :
          M.Mirrors { w with source := source } { u with source := source } := ⟨h.store, rfl, h.log⟩
      refine (relates_modify hset).bind fun _ _ _ => ?_
      exact (agrees_offset hl hh).mono fun x y hxy => ⟨hxy.1, hxy.2 _⟩
    · exact (agrees_drawWhole hl hh).mono fun x y hxy => ⟨hxy.1, hxy.2 _⟩

theorem agrees_floatInRange (hl : low.Within M.values) (hh : high.Within M.values) :
    M.Agrees (floatInRange low high) (floatInRange low high) (Value.Within M.values) := by
  refine relates_get.bind fun w u h => ?_
  rw [h.source]
  split
  · exact agrees_pure hl
  · refine (agrees_requireOrdered hl hh).bind fun _ _ => ?_
    split
    · exact agrees_unit.bind fun _ _ => relates_misuse
    · refine (agrees_numeral hl).bind fun a _ => (agrees_numeral hh).bind fun b _ => ?_
      refine agrees_inRange.bind fun span _ => agrees_unit.bind fun r _ => ?_
      refine agrees_inRange.bind fun part _ => agrees_inRange.bind fun n _ => ?_
      exact agrees_number.mono fun x y hxy => ⟨hxy.1, hxy.2 _⟩

/-! ## Arbitrary values -/

theorem agrees_arbitraryText : M.Agrees arbitraryText arbitraryText fun _ => True := by
  refine agrees_intBetween.bind fun n _ => ?_
  refine (agrees_mapM (p := fun _ => True) fun _ _ => ?_).bind fun cs _ => agrees_pure trivial
  exact agrees_choose fun _ _ => trivial

theorem agrees_arbitraryBytes : M.Agrees arbitraryBytes arbitraryBytes fun _ => True := by
  refine agrees_intBetween.bind fun n _ => ?_
  refine (agrees_mapM (p := fun _ => True) fun _ _ => ?_).mono fun x y hxy => ⟨hxy.1, trivial⟩
  exact agrees_below.bind fun _ _ => agrees_pure trivial

theorem agrees_arbitraryAtom {a : Atom} : M.Agrees (arbitraryAtom a) (arbitraryAtom a) (Value.Within M.values) := by
  cases a with
  | null => exact agrees_pure (within_atom _)
  | bool b => exact agrees_boolean.bind fun b _ => agrees_pure (within_atom _)
  | int n => exact agrees_intBetween.bind fun n _ => agrees_pure (within_atom _)
  | float x => exact agrees_floatInRange (within_atom _) (within_atom _)
  | nan m => exact agrees_floatInRange (within_atom _) (within_atom _)
  | text t => exact agrees_arbitraryText.bind fun t _ => agrees_pure (within_atom _)
  | bytes bs => exact agrees_arbitraryBytes.bind fun bs _ => agrees_pure (within_atom _)
  | member cls i => exact agrees_index.bind fun i _ => agrees_pure (within_atom _)
  | sealed cls => exact relates_throw
  | enumeration cls => exact relates_throw
  | absent m => exact relates_throw

theorem agrees_newRecord {cls : RecordClass} (hxs : ∀ x ∈ xs, x.Within M.values) :
    M.Agrees (newRecord cls xs) (newRecord cls xs) (Value.Within M.values) := by
  unfold newRecord
  split
  · exact agrees_pure (Value.within_frozen.mpr ⟨M.defaults cls, hxs⟩)
  · exact agrees_newObject (Object.within_record.mpr ⟨M.defaults cls, hxs, List.forall_mem_nil _⟩)

theorem agrees_likeFields {like : Value → Act Value} : ∀ {fs : List Field} {xs : List Value},
    (∀ x ∈ xs, M.Agrees (like x) (like x) (Value.Within M.values)) →
      M.Agrees (likeFields like fs xs) (likeFields like fs xs) fun ys => ∀ y ∈ ys, y.Within M.values := by
  intro fs
  induction fs with
  | nil =>
    intro xs _
    exact agrees_pure nofun
  | cons f fs ih =>
    intro xs hxs
    cases xs with
    | nil => exact agrees_pure nofun
    | cons x xs =>
      have hrest (v : Value) (hv : v.Within M.values) : M.Agrees (do return v :: (← likeFields like fs xs))
          (do return v :: (← likeFields like fs xs)) fun ys => ∀ y ∈ ys, Value.Within M.values y := by
        refine (ih fun y hy => hxs y (by simp [hy])).bind fun ys hys => agrees_pure ?_
        simpa using ⟨hv, hys⟩
      rw [likeFields]
      split
      · exact (hxs x (by simp)).bind hrest
      · exact (agrees_pure (within_atom _)).bind hrest

theorem agrees_likeObject {like : Value → Act Value}
    (hlike : ∀ x, x.Within M.values → M.Agrees (like x) (like x) (Value.Within M.values)) {o : Object}
    (ho : o.Within M.values) : M.Agrees (likeObject like o) (likeObject like o) (Value.Within M.values) := by
  cases o with
  | list xs =>
    cases xs with
    | nil => exact agrees_newObject ho
    | cons x xs =>
      refine agrees_intBetween.bind fun n _ => ?_
      refine (agrees_mapM fun _ _ => hlike x (ho.value (by simp [Object.values]))).bind fun ys hys => ?_
      exact agrees_newObject (Object.within_list.mpr hys)
  | mapping es =>
    rw [Object.within_mapping] at ho
    refine (agrees_mapM (p := fun e => e.1.Within M.values ∧ e.2.Within M.values) fun e he => ?_).bind
      fun fs hfs => agrees_newObject (Object.within_mapping.mpr hfs)
    exact (hlike e.2 (ho e he).2).bind fun y hy => agrees_pure ⟨(ho e he).1, hy⟩
  | record cls xs extras =>
    obtain ⟨-, hxs, -⟩ := Object.within_record.mp ho
    simp only [likeObject]
    split
    · exact relates_throw
    · exact (agrees_likeFields fun x hx => hlike x (hxs x hx)).bind fun ys hys => agrees_newRecord hys
  | slots xs => exact relates_misuse

theorem agrees_likeWithin (levels : Nat) : ∀ v : Value, v.Within M.values →
    M.Agrees (likeWithin levels v) (likeWithin levels v) (Value.Within M.values) := by
  induction levels with
  | zero =>
    intro v _
    exact relates_misuse
  | succ levels ih =>
    intro v hv
    cases v with
    | atom a => exact agrees_arbitraryAtom
    | tuple cls xs =>
      rw [Value.within_tuple] at hv
      refine (agrees_mapM fun x hx => ih x (hv x hx)).bind fun ys hys => agrees_pure ?_
      exact Value.within_tuple.mpr hys
    | set xs => exact relates_throw
    | frozen cls xs =>
      rw [Value.within_frozen] at hv
      exact (agrees_likeFields fun x hx => ih x (hv.2 x hx)).bind fun ys hys => agrees_newRecord hys
    | ref l =>
      rw [Value.within_ref] at hv
      refine Agrees.bind (p := fun o => ∀ o', o = some o' → o'.Within M.values)
        (agrees_ask fun s t h => ⟨h.value hv, fun o' ho' => h.object hv ho'⟩) fun o ho => ?_
      split
      · next o' => exact agrees_likeObject ih (ho o' rfl)
      · exact relates_misuse

theorem agrees_arbitrary (hv : v.Within M.values) :
    M.Agrees (arbitrary v) (arbitrary v) (Value.Within M.values) := by
  refine relates_get.bind fun w u h => ?_
  rw [h.source]
  split
  · exact agrees_pure hv
  · exact agrees_likeWithin _ v hv

end

/-! ## Recipes -/

theorem agrees_make {r : Recipe} : M.Agrees r.make r.make (Value.Within M.values) := by
  cases r with
  | error e => exact (relates_throw (P := fun _ _ => False)).bind fun _ _ h => h.elim
  | ok d =>
    refine relates_onStore fun s t h => ?_
    obtain ⟨hsame, hv, hs⟩ := h.build d
    exact ⟨⟨hsame, hv⟩, hs⟩

theorem agrees_draw {g : Generator} : M.Agrees g.draw g.draw (Value.Within M.values) := by
  cases g with
  | int low high => exact agrees_make.bind fun a ha => agrees_make.bind fun b hb => agrees_intInRange ha hb
  | const r => exact agrees_make
  | choose rs => exact (agrees_mapM fun r _ => agrees_make).bind fun vs hvs => agrees_choose hvs
  | arbitrary r => exact agrees_make.bind fun v hv => agrees_arbitrary hv

end Mirroring

end Conform
