import Conform.Proofs.Copying
import Conform.Proofs.Parts
import Conform.Proofs.Run

/-!
# No reference dangles

A store is `Store.Whole` if every reference in it leads to an object. `Value.bound` is the number of objects
that a store must have for a value to lead to objects only; since objects are never given back, a value
that is bounded by the size of a store stays so.

`Act.Sound n a post` says that an action whose operands are bounded by `n` keeps a store whole and gives no
object back, and that its answer meets `post` at the size of the store that it leaves. There is one lemma
for every way of putting actions together, as for `Arena.Runs`.
-/

namespace Conform

/-! ## Bounds -/

/-- The number of objects that a store must have for some places to be among them. -/
def boundOf (ls : List Loc) : Nat := ls.foldr (fun l n => max (l + 1) n) 0

theorem boundOf_le {ls : List Loc} {n : Nat} : boundOf ls ≤ n ↔ ∀ l ∈ ls, l < n := by
  induction ls with
  | nil => simp [boundOf]
  | cons l ls ih =>
    rw [boundOf] at ih
    simp only [boundOf, List.foldr_cons, Nat.max_le, ih, List.mem_cons, forall_eq_or_imp]
    rfl

namespace Value

/-- The number of objects that a store must have for a value. -/
def bound (v : Value) : Nat := boundOf v.refs

/-- The number of objects that a store must have for several values. -/
def boundAll (xs : List Value) : Nat := boundOf (refsAll xs)

variable {v : Value} {xs : List Value} {n : Nat}

theorem bound_le : v.bound ≤ n ↔ ∀ l ∈ v.refs, l < n := boundOf_le

theorem boundAll_le : boundAll xs ≤ n ↔ ∀ x ∈ xs, x.bound ≤ n := by
  simp only [boundAll, boundOf_le, mem_refsAll, bound_le]
  exact ⟨fun h x hx l hl => h l ⟨x, hx, hl⟩, fun h l ⟨x, hx, hl⟩ => h x hx l hl⟩

theorem bound_le_boundAll (h : v ∈ xs) : v.bound ≤ boundAll xs := boundAll_le.mp (Nat.le_refl _) v h

@[simp] theorem bound_atom {a : Atom} : (Value.atom a).bound = 0 := rfl
@[simp] theorem bound_int {k : Int} : (Value.int k).bound = 0 := rfl
@[simp] theorem bound_text {t : String} : (Value.text t).bound = 0 := rfl
@[simp] theorem bound_bool {b : Bool} : (Value.bool b).bound = 0 := rfl
@[simp] theorem bound_null : Value.null.bound = 0 := rfl
@[simp] theorem bound_absent : Value.absent.bound = 0 := rfl
@[simp] theorem bound_tuple {cls : Option TupleClass} : (Value.tuple cls xs).bound = boundAll xs := rfl
@[simp] theorem bound_set : (Value.set xs).bound = boundAll xs := rfl
@[simp] theorem bound_frozen {cls : RecordClass} : (Value.frozen cls xs).bound = boundAll xs := rfl
@[simp] theorem bound_ref {l : Loc} : (Value.ref l).bound = l + 1 := by simp [bound, refs, boundOf]
@[simp] theorem boundAll_nil : boundAll [] = 0 := rfl

@[simp] theorem boundAll_cons : boundAll (v :: xs) = max v.bound (boundAll xs) := by
  refine Nat.le_antisymm (boundAll_le.mpr ?_) (Nat.max_le.mpr ⟨bound_le_boundAll (by simp), ?_⟩)
  · intro x hx
    rcases List.mem_cons.mp hx with rfl | hx
    · exact Nat.le_max_left _ _
    · exact Nat.le_trans (bound_le_boundAll hx) (Nat.le_max_right _ _)
  · exact boundAll_le.mpr fun x hx => bound_le_boundAll (by simp [hx])

/-- A value that refers to nothing needs no objects. -/
theorem bound_of_refs (h : v.refs = []) : v.bound = 0 := by simp [bound, h, boundOf]

theorem boundAll_append_le {ys : List Value} (hx : boundAll xs ≤ n) (hy : boundAll ys ≤ n) :
    boundAll (xs ++ ys) ≤ n := by
  refine boundAll_le.mpr fun z hz => ?_
  rcases List.mem_append.mp hz with hz | hz
  · exact boundAll_le.mp hx z hz
  · exact boundAll_le.mp hy z hz

end Value

/-- The places that a store of `n` objects has, among them all that attributes are given to. -/
def upTo (n : Nat) : Set Place := {p | ∀ l, p = .object l → l < n}

/-- A value is bounded by a size if it names places of a store of that size. -/
theorem Value.within_upTo {v : Value} {n : Nat} : v.Within (upTo n) ↔ v.bound ≤ n := by
  rw [bound_le]
  constructor
  · intro h l hl
    exact h _ ((object_mem_places v).mpr hl) l rfl
  · rintro h p hp l rfl
    exact h l ((object_mem_places v).mp hp)

theorem Value.allWithin_upTo {xs : List Value} {n : Nat} :
    (∀ x ∈ xs, x.Within (upTo n)) ↔ Value.boundAll xs ≤ n := by
  simp only [within_upTo, boundAll_le]

/-- The number of objects that a store must have for an object. -/
def Object.bound (o : Object) : Nat := Value.boundAll o.values

theorem Object.within_upTo {o : Object} {n : Nat} : o.Within (upTo n) ↔ o.bound ≤ n := by
  rw [bound, Value.boundAll, boundOf_le]
  constructor
  · intro h l hl
    exact h _ (List.mem_append_left _ ((Value.object_mem_placesAll _).mpr hl)) l rfl
  · rintro h p hp l rfl
    rcases List.mem_append.mp hp with hp | hp
    · exact h l ((Value.object_mem_placesAll _).mp hp)
    · cases o with
      | record cls xs extras => simp [RecordClass.places, Atom.places] at hp
      | _ => cases hp

namespace Store

/-- Whether every reference in a store leads to an object. -/
structure Whole (s : Store) : Prop where
  closed : s.Closed (upTo s.size)
  owned : s.Owned

variable {s : Store} {n : Nat}

theorem Whole.object (h : s.Whole) {l : Loc} {o : Object} (ho : s.get? l = some o) :
    o.bound ≤ s.size := by
  refine Object.within_upTo.mp (h.closed.object ?_ ho)
  rintro m ⟨⟩
  exact lt_size_of_get? ho

/-- A reference in a whole store is not beyond its end. -/
theorem Whole.ref_lt (h : s.Whole) {l r : Loc} {o : Object} (ho : s.get? l = some o)
    (hr : r ∈ o.refs) : r < s.size := by
  obtain ⟨v, hv, hr⟩ := Value.mem_refsAll.mp hr
  exact Value.bound_le.mp (Value.boundAll_le.mp (h.object ho) v hv) r hr

/-- A store without attributes is whole if its objects are bounded by its size. -/
theorem Whole.of_bound (h : ∀ o ∈ s.objects, o.bound ≤ s.size) (hgiven : s.given = []) : s.Whole where
  closed := by
    rintro (l | w) - q hq
    · obtain ⟨o, ho, hq⟩ := hq
      exact Object.within_upTo.mpr (h o (Array.mem_of_getElem? ho)) q hq
    · obtain ⟨a, name, v, -, hmem, -⟩ := hq
      rw [hgiven] at hmem
      cases hmem
  owned := by
    rw [Owned, hgiven]
    exact nofun

theorem upTo_mono {m : Nat} (h : n ≤ m) : upTo n ⊆ upTo m :=
  fun _ hp l hl => Nat.lt_of_lt_of_le (hp l hl) h

/-- Writing to a whole store objects that lead to objects only leaves it whole. -/
theorem Whole.of_objects {t : Store} (h : s.Whole) (hsize : s.size ≤ t.size)
    (hgiven : t.given = s.given)
    (ho : ∀ l o, t.get? l = some o → o.bound ≤ t.size ∨ s.get? l = some o) : t.Whole where
  closed := by
    intro p hp q hq
    cases p with
    | object l =>
      obtain ⟨o, hget, hq⟩ := hq
      rcases ho l o hget with hbound | hold
      · exact Object.within_upTo.mpr hbound q hq
      · exact Object.within_upTo.mpr (Nat.le_trans (h.object hold) hsize) q hq
    | attributes w =>
      obtain ⟨a, name, v, hown, hmem, hq⟩ := hq
      rw [hgiven] at hmem
      exact upTo_mono hsize (h.closed (.attributes w) nofun q ⟨a, name, v, hown, hmem, hq⟩)
  owned := by
    unfold Owned
    rw [hgiven]
    exact h.owned

theorem Whole.put (h : s.Whole) {l : Loc} {o : Object} (ho : o.bound ≤ s.size) :
    (s.put l o).Whole := by
  refine h.of_objects (by simp) rfl fun m p hp => ?_
  rw [get?_put] at hp
  split at hp
  · cases hp
    exact .inl (by simpa using ho)
  · exact .inr hp

theorem Whole.alloc (h : s.Whole) {o : Object} (ho : o.bound ≤ s.size) : (s.alloc o).2.Whole := by
  refine h.of_objects (by simp) rfl fun m p hp => ?_
  rw [get?_alloc] at hp
  split at hp
  · cases hp
    exact .inl (by simpa using Nat.le_succ_of_le ho)
  · exact .inr hp

theorem Whole.give (h : s.Whole) {a : Atom} {o : Owner} {name : String} {v : Value}
    (ho : a.owner? = some o) (hv : v.bound ≤ s.size) : (s.give a name v).Whole where
  closed := by
    intro p hp q hq
    cases p with
    | object l => exact h.closed _ hp q hq
    | attributes w =>
      obtain ⟨b, m, x, hb, hmem, hq⟩ := hq
      rcases List.mem_cons.mp hmem with heq | hmem
      · cases heq
        exact Value.within_upTo.mpr hv q hq
      · exact h.closed (.attributes w) nofun q ⟨b, m, x, hb, hmem, hq⟩
  owned := by
    intro e he
    rcases List.mem_cons.mp he with rfl | he
    · exact Option.isSome_iff_exists.mpr ⟨o, ho⟩
    · exact h.owned e he

theorem Whole.marks (h : s.Whole) (k : Nat) : Whole { s with marks := k } := ⟨h.closed, h.owned⟩

/-- The slots of a cell lead to objects. -/
theorem Whole.slots (h : s.Whole) {c : Loc} : Value.boundAll (s.slots c) ≤ s.size := by
  unfold Store.slots
  split
  · next vs hget => exact h.object hget
  · exact Nat.zero_le _

theorem Whole.slot (h : s.Whole) {c : Loc} {i : Nat} : (s.slot c i).bound ≤ s.size :=
  Value.within_upTo.mp (Value.within_getD (Value.allWithin_upTo.mpr h.slots))

theorem Whole.listItems (h : s.Whole) {v : Value} : Value.boundAll (s.listItems v) ≤ s.size := by
  unfold Store.listItems
  split
  · split
    · next xs hget => exact h.object hget
    · exact Nat.zero_le _
  · exact Nat.zero_le _

/-- Where what is reached has not changed, nothing more is reached. -/
theorem Whole.reachable_of_same (h : s.Whole) {t : Store} {roots : List Loc}
    (hroots : ∀ l ∈ roots, l < s.size) (hsame : ∀ l ∈ s.reachable roots, t.get? l = s.get? l) :
    ∀ l ∈ t.reachable roots, l ∈ s.reachable roots := by
  refine reachable_subset (fun l hl => mem_reachable_root hl (hroots l hl)) ?_
  intro l o hl ho r hr
  rw [hsame l hl] at ho
  exact reachable_closed hl ho hr (h.ref_lt ho hr)

/-- Copying leaves a whole store whole: what is copied refers to copies. -/
theorem Whole.copy (h : s.Whole) (roots : List Loc) : (s.copy roots).2.Whole := by
  refine h.of_objects (by rw [size_copy]; exact Nat.le_add_right _ _) rfl fun m o ho => ?_
  by_cases hm : m < s.size
  · exact .inr (get?_copy_of_lt hm ▸ ho)
  · obtain ⟨l, hl, o', ho', rfl⟩ := exists_of_size_le (Nat.not_lt.mp hm) ho
    refine .inl (Object.within_upTo.mp (Object.within_move ?_ fun w _ => nofun))
    rintro r hr k ⟨⟩
    have hmem := reachable_closed hl ho' hr (h.ref_lt ho' hr)
    obtain ⟨o'', hget⟩ := exists_get? (lt_of_mem_reachable hmem)
    have hplace := get?_copy_place hmem
    rw [hget] at hplace
    exact lt_size_of_get? hplace

end Store

/-! ## Storing parts and elements -/

namespace Accessor

open Store

/-- Whether an accessor leads to objects only. Only keys and code brought from outside are in question. -/
def Sound : Accessor → Prop
  | .item _ key => key.refs = []
  | .custom _ get set => ∀ s v, s.Whole → v.bound ≤ s.size →
    (∀ x, get s v = .ok x → x.bound ≤ s.size) ∧
    ∀ part w t, part.bound ≤ s.size → set s v part = .ok (w, t) →
      s.size ≤ t.size ∧ t.Whole ∧ w.bound ≤ t.size
  | _ => True

variable {s t : Store} {v w x part : Value} {a : Accessor}

theorem Keeps.whole (n : Nat) : Keeps (fun s => s.Whole ∧ s.size = n) (upTo n) where
  object := fun hs _ hget => Object.within_upTo.mpr (hs.2 ▸ hs.1.object hget)
  put := fun hs _ ho _ =>
    ⟨hs.1.put (hs.2.symm ▸ Object.within_upTo.mp ho), by rw [size_put, hs.2]⟩
  give := fun hs ho _ hv => ⟨hs.1.give ho (hs.2.symm ▸ Value.within_upTo.mp hv), hs.2⟩

theorem get_bound (ha : a.Sound) (hs : s.Whole) (hv : v.bound ≤ s.size) (h : a.get s v = .ok x) :
    x.bound ≤ s.size := by
  have hread : a.Reads (upTo s.size) → x.bound ≤ s.size := fun hreads =>
    Value.within_upTo.mp (get_within hreads hs.closed hs.owned (Value.within_upTo.mpr hv) h)
  cases a with
  | custom n get set => exact (ha s v hs hv).1 x h
  | _ => exact hread trivial

theorem set_whole (ha : a.Sound) (hs : s.Whole) (hv : v.bound ≤ s.size) (hpart : part.bound ≤ s.size)
    (h : a.set s v part = .ok (w, t)) : s.size ≤ t.size ∧ t.Whole ∧ w.bound ≤ t.size := by
  have hkept : (w.Within (upTo s.size) ∧ t.Whole ∧ t.size = s.size) →
      s.size ≤ t.size ∧ t.Whole ∧ w.bound ≤ t.size := by
    rintro ⟨hw, ht, hsize⟩
    exact ⟨hsize.symm.le, ht, hsize.symm ▸ Value.within_upTo.mp hw⟩
  have hv' := Value.within_upTo.mpr hv
  have hpart' := Value.within_upTo.mpr hpart
  cases a with
  | attr n => exact hkept (setAttribute_within (Keeps.whole _) ⟨hs, rfl⟩ hv' hpart' h)
  | optionalAttr n => exact hkept (setAttribute_within (Keeps.whole _) ⟨hs, rfl⟩ hv' hpart' h)
  | item shown key =>
    have hkey : key.Within (upTo s.size) := Value.within_upTo.mpr (by
      rw [Value.bound_of_refs ha]
      exact Nat.zero_le _)
    exact hkept (setItem_within (Keeps.whole _) ⟨hs, rfl⟩ hv' hkey hpart' h)
  | variant cls =>
    cases h
    exact ⟨Nat.le_refl _, hs, hpart⟩
  | custom n get set => exact (ha s v hs hv).2 part w t hpart h

end Accessor

namespace Store

variable {s t : Store} {v w : Value} {xs : List Value}

theorem elements?_bound (hs : s.Whole) (hv : v.bound ≤ s.size) (h : s.elements? v = some xs) :
    Value.boundAll xs ≤ s.size :=
  Value.allWithin_upTo.mp (elements?_within hs.closed (Value.within_upTo.mpr hv) h)

theorem rebuild_whole (hs : s.Whole) (hv : v.bound ≤ s.size) (hxs : Value.boundAll xs ≤ s.size)
    (h : s.rebuild v xs = .ok (w, t)) : s.size ≤ t.size ∧ t.Whole ∧ w.bound ≤ t.size := by
  rcases rebuild_cases hs.closed (Value.within_upTo.mpr hv) (Value.allWithin_upTo.mpr hxs) h with
    ⟨rfl, l, rfl, rfl⟩ | ⟨hw, rfl⟩ | ⟨es, hes, rfl, rfl⟩
  · exact ⟨by simp, hs.put hxs, by simpa using hv⟩
  · exact ⟨Nat.le_refl _, hs, Value.within_upTo.mp hw⟩
  · exact ⟨by simp, hs.alloc (Object.within_upTo.mp hes), by simp⟩

end Store

/-! ## Sound actions -/

namespace Act

/-- Whether an action whose operands are bounded by a size keeps a store of that size whole, gives no
object back, and answers as described at the size of the store that it leaves. -/
def Sound {α : Type} (n : Nat) (a : Act α) (post : Nat → α → Prop) : Prop :=
  ∀ w, w.store.Whole → n ≤ w.store.size →
    (w.store.size ≤ (exec a w).2.store.size ∧ (exec a w).2.store.Whole) ∧
    ∀ x, (exec a w).1 = .ok x → post (exec a w).2.store.size x

/-- That an answer is a value bounded by the size of the store. -/
def Bounded (m : Nat) (v : Value) : Prop := v.bound ≤ m

/-- That all values of an answer are. -/
def BoundedAll (m : Nat) (vs : List Value) : Prop := Value.boundAll vs ≤ m

/-- That an answer may be anything. -/
def Anything {α : Type} (_ : Nat) (_ : α) : Prop := True

section

variable {α β : Type} {n : Nat} {P : Nat → α → Prop} {Q : Nat → β → Prop}

theorem sound_pure {x : α} (h : ∀ m, n ≤ m → P m x) : Sound n (pure x) P := by
  intro w hw hn
  refine ⟨⟨Nat.le_refl _, hw⟩, ?_⟩
  rintro y ⟨⟩
  exact h _ hn

theorem Sound.bind {a : Act α} {f : α → Act β} (ha : Sound n a P)
    (hf : ∀ m x, n ≤ m → P m x → Sound m (f x) Q) : Sound n (a >>= f) Q := by
  intro w hw hn
  obtain ⟨⟨hsize, hwhole⟩, hok⟩ := ha w hw hn
  rw [exec_bind]
  rcases hrun : exec a w with ⟨_ | x, u⟩
  · rw [hrun] at hsize hwhole
    exact ⟨⟨hsize, hwhole⟩, nofun⟩
  · rw [hrun] at hsize hwhole hok
    obtain ⟨⟨hsize', hwhole'⟩, hok'⟩ :=
      hf _ x (Nat.le_trans hn hsize) (hok x rfl) u hwhole (Nat.le_refl _)
    exact ⟨⟨Nat.le_trans hsize hsize', hwhole'⟩, hok'⟩

theorem Sound.mono {a : Act α} {P' : Nat → α → Prop} (ha : Sound n a P)
    (h : ∀ m x, n ≤ m → P m x → P' m x) : Sound n a P' := by
  intro w hw hn
  obtain ⟨⟨hsize, hwhole⟩, hok⟩ := ha w hw hn
  exact ⟨⟨hsize, hwhole⟩, fun x hx => h _ x (Nat.le_trans hn hsize) (hok x hx)⟩

theorem sound_throw {e : Fault} : Sound n (throw e : Act α) P :=
  fun _ hw _ => ⟨⟨Nat.le_refl _, hw⟩, nofun⟩

theorem sound_misuse {m : Misuse} : Sound n (misuse m : Act α) P := sound_throw

theorem Sound.tryCatch {a : Act α} {f : Fault → Act α} (ha : Sound n a P)
    (hf : ∀ m e, n ≤ m → Sound m (f e) P) : Sound n (tryCatch a f) P := by
  intro w hw hn
  obtain ⟨⟨hsize, hwhole⟩, hok⟩ := ha w hw hn
  rw [exec_tryCatch]
  rcases hrun : exec a w with ⟨e | x, u⟩
  · rw [hrun] at hsize hwhole
    obtain ⟨⟨hsize', hwhole'⟩, hok'⟩ := hf _ e (Nat.le_trans hn hsize) u hwhole (Nat.le_refl _)
    exact ⟨⟨Nat.le_trans hsize hsize', hwhole'⟩, hok'⟩
  · rw [hrun] at hsize hwhole hok
    exact ⟨⟨hsize, hwhole⟩, hok⟩

theorem Sound.under {a : Act α} {segment : String} (ha : Sound n a P) :
    Sound n (mapFault (Fault.under segment) a) P :=
  ha.tryCatch fun _ _ _ => sound_throw

theorem sound_ask {f : Store → α} (h : ∀ s, s.Whole → n ≤ s.size → P s.size (f s)) :
    Sound n (ask f) P := by
  intro w hw hn
  refine ⟨⟨Nat.le_refl _, hw⟩, ?_⟩
  rintro y ⟨⟩
  exact h _ hw hn

theorem sound_get : Sound n (get : Act World) fun m u => u.store.Whole ∧ n ≤ u.store.size ∧
    u.store.size = m := by
  intro w hw hn
  refine ⟨⟨Nat.le_refl _, hw⟩, ?_⟩
  rintro y ⟨⟩
  exact ⟨hw, hn, rfl⟩

/-- A change that leaves the store as it is. -/
theorem sound_still {a : Act α} (h : ∀ w, (exec a w).2.store = w.store)
    (hP : ∀ m x, P m x) : Sound n a P := by
  intro w hw _
  rw [h w]
  exact ⟨⟨Nat.le_refl _, hw⟩, fun x _ => hP _ x⟩

theorem sound_log {level : Level} {logger message : String} :
    Sound n (log level logger message) Anything :=
  sound_still (fun _ => rfl) fun _ _ => trivial

theorem sound_alloc {o : Object} (ho : o.bound ≤ n) : Sound n (Act.alloc o) fun m l => l < m := by
  intro w hw hn
  refine ⟨⟨by simp, hw.alloc (Nat.le_trans ho hn)⟩, ?_⟩
  rintro l ⟨⟩
  show w.store.size < (w.store.alloc o).2.size
  simp

theorem sound_newObject {o : Object} (ho : o.bound ≤ n) :
    Sound n (do return Value.ref (← Act.alloc o)) Bounded :=
  (sound_alloc ho).bind fun m l _ hl => sound_pure fun k hk => by
    simp only [Bounded, Value.bound_ref]
    exact Nat.le_trans hl hk

theorem sound_put {l : Loc} {o : Object} (ho : o.bound ≤ n) : Sound n (Act.put l o) Anything :=
  fun _ hw hn => ⟨⟨by simp, hw.put (Nat.le_trans ho hn)⟩, fun _ _ => trivial⟩

theorem sound_decided {o : Option Bool} : Sound n (decided o) Anything := by
  cases o with
  | none => exact sound_misuse
  | some b => exact sound_pure fun _ _ => trivial

theorem sound_written {o : Option String} : Sound n (written o) Anything := by
  cases o with
  | none => exact sound_misuse
  | some t => exact sound_pure fun _ _ => trivial

theorem sound_inRange {o : Option α} : Sound n (inRange o) Anything := by
  cases o with
  | none => exact sound_misuse
  | some x => exact sound_pure fun _ _ => trivial

theorem sound_look {f : Store → α} : Sound n (ask f) Anything := sound_ask fun _ _ _ => trivial

theorem sound_view {v : Value} : Sound n (view v) Anything := sound_look

theorem sound_equal {v w : Value} : Sound n (equal v w) Anything :=
  sound_look.bind fun _ _ _ _ => sound_decided

theorem sound_isIn {v : Value} {vs : List Value} : Sound n (isIn v vs) Anything :=
  sound_look.bind fun _ _ _ _ => sound_decided

theorem sound_render {v : Value} : Sound n (render v) Anything :=
  sound_view.bind fun _ _ _ _ => sound_written

theorem sound_display {v : Value} : Sound n (display v) Anything :=
  sound_view.bind fun _ _ _ _ => sound_written

/-- That an answer is a value that refers to nothing. -/
def Unbound (_ : Nat) (v : Value) : Prop := v.bound = 0

theorem Sound.bounded {a : Act Value} (ha : Sound n a Unbound) : Sound n a Bounded :=
  ha.mono fun m v _ (hv : v.bound = 0) => show v.bound ≤ m by omega

theorem sound_number {x : Numeral} : Sound n (number x) Unbound := by
  cases x with
  | int k => exact sound_pure fun _ _ => rfl
  | float x => exact sound_pure fun _ _ => rfl
  | nan =>
    intro w hw _
    refine ⟨⟨Nat.le_refl _, hw.marks _⟩, ?_⟩
    rintro v ⟨⟩
    rfl

theorem sound_mapM {a : α → Act β} (hQ : ∀ m k y, m ≤ k → Q m y → Q k y) : ∀ {xs : List α} {n : Nat},
    (∀ x ∈ xs, ∀ m, n ≤ m → Sound m (a x) Q) →
    Sound n (xs.mapM a) fun m ys => ∀ y ∈ ys, Q m y := by
  intro xs
  induction xs with
  | nil =>
    intro n _
    exact sound_pure fun _ _ => nofun
  | cons x xs ih =>
    intro n h
    rw [List.mapM_cons]
    refine (h x (by simp) n (Nat.le_refl _)).bind fun m y hm hy => ?_
    refine (ih fun z hz k hk => h z (by simp [hz]) k (Nat.le_trans hm hk)).bind fun k ys hk hys => ?_
    refine sound_pure fun j hj z hz => ?_
    rcases List.mem_cons.mp hz with rfl | hz
    · exact hQ _ _ _ (Nat.le_trans hk hj) hy
    · exact hQ _ _ _ hj (hys z hz)

theorem sound_foldlM {a : β → α → Act β} (hQ : ∀ m k y, m ≤ k → Q m y → Q k y) :
    ∀ {xs : List α} {n : Nat} {y : β}, (∀ x ∈ xs, ∀ m y, n ≤ m → Q m y → Sound m (a y x) Q) →
      Q n y → Sound n (xs.foldlM a y) Q := by
  intro xs
  induction xs with
  | nil =>
    intro n y _ hy
    exact sound_pure fun m hm => hQ _ _ _ hm hy
  | cons x xs ih =>
    intro n y h hy
    rw [List.foldlM_cons]
    refine (h x (by simp) n y (Nat.le_refl _) hy).bind fun m z hm hz => ih ?_ hz
    exact fun x' hx' k y' hk => h x' (by simp [hx']) k y' (Nat.le_trans hm hk)

end

end Act

end Conform
