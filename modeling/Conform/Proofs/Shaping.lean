import Conform.Proofs.Confined
import Conform.Proofs.Stored

/-!
# Values of the shape of a template

`Store.Generable` tells which templates arbitrary values are drawn for, and `Store.Shaped` which values have the shape
of a template. The main result is that a draw from a source that varies gives a value of the shape of its template,
made of new objects (`Draw.provides_likeWithin`), so that whatever becomes of that value leaves the template alone
(`arbitrary_shaped_build_apart`). Mappings are an exception if their keys are objects, since keys are taken over.
-/

namespace Conform

open Act Draw

/-! ## Templates and shapes -/

/-- Whether arbitrary atoms of the shape of an atom are drawn: not for classes, nor for the mark of absence. -/
def Atom.Generable : Atom → Prop
  | .member cls i => i < cls.members.length
  | .sealed _ | .enumeration _ | .absent _ => False
  | _ => True

/-- Whether the settable ones of the fields of a record have a property. -/
def RecordClass.Settable (cls : RecordClass) (P : Value → Prop) (xs : List Value) : Prop :=
  xs.length = cls.fields.length ∧ ∀ p ∈ cls.fields.zip xs, p.1.settable = true → P p.2

/-- Whether values are drawn for an object, if they are for those that have a property: for a list by its first
element, for a mapping by the values under its keys, which must not be objects, and for a record that declares its
fields by the settable ones. -/
def Object.Generable (P : Value → Prop) : Object → Prop
  | .list xs => ∀ x ∈ xs.head?, P x
  | .mapping es => ∀ e ∈ es, e.1.refs = [] ∧ P e.2
  | .record cls xs _ => cls.keeping = .mutable ∧ cls.Settable P xs
  | .slots _ => False

namespace Store

/-- Whether a value is a template as far down as the given number of levels goes. The proposition says whether there
may be more levels, as there are in a template that contains itself. -/
def Generable (s : Store) (deep : Prop) : (levels : Nat) → Value → Prop
  | 0, _ => deep
  | levels + 1, v =>
    match v with
    | .atom a => a.Generable
    | .tuple _ xs => ∀ x ∈ xs, Generable s deep levels x
    | .frozen cls xs => cls.keeping = .frozen ∧ cls.Settable (Generable s deep levels) xs
    | .set _ => False
    | .ref l => ∃ o, s.get? l = some o ∧ o.Generable (Generable s deep levels)

/-- Whether a value has the shape of a template: the same class everywhere; the same number of places in a tuple; a
list of not too many elements, all of the shape of the first one; the same keys in the same order; and field by field,
where those that are not settable have their default. -/
inductive Shaped (s : Store) : Value → Value → Prop
  | null : Shaped s .null .null
  | bool {a b : Bool} : Shaped s (.bool a) (.bool b)
  | int {m n : Int} (h : leastInt ≤ n ∧ n ≤ greatestInt) : Shaped s (.int m) (.int n)
  | float {a b : Atom} (ha : a.isFloat = true) (hb : b.isFloat = true) : Shaped s (.atom a) (.atom b)
  | text {a b : String} : Shaped s (.text a) (.text b)
  | bytes {a b : List UInt8} : Shaped s (.atom (.bytes a)) (.atom (.bytes b))
  | member {cls : EnumClass} {i j : Nat} (h : j < cls.members.length) :
    Shaped s (.atom (.member cls i)) (.atom (.member cls j))
  | tuple {cls : Option TupleClass} {xs ys : List Value} (hlength : xs.length = ys.length)
    (h : ∀ x y, (x, y) ∈ xs.zip ys → Shaped s x y) : Shaped s (.tuple cls xs) (.tuple cls ys)
  | frozen {cls : RecordClass} {xs ys : List Value} (hlength : (cls.fields.zip xs).length = ys.length)
    (hset : ∀ p y, (p, y) ∈ (cls.fields.zip xs).zip ys → p.1.settable = true → Shaped s p.2 y)
    (hreset : ∀ p y, (p, y) ∈ (cls.fields.zip xs).zip ys → p.1.settable = false → y = .atom p.1.initial) :
    Shaped s (.frozen cls xs) (.frozen cls ys)
  | list {l m : Loc} {xs ys : List Value} (hl : s.get? l = some (.list xs)) (hm : s.get? m = some (.list ys))
    (hlong : ys.length ≤ longestList) (hempty : xs = [] → ys = [])
    (h : ∀ x ∈ xs.head?, ∀ y ∈ ys, Shaped s x y) : Shaped s (.ref l) (.ref m)
  | mapping {l m : Loc} {es fs : List (Value × Value)} (hl : s.get? l = some (.mapping es))
    (hm : s.get? m = some (.mapping fs)) (hkeys : es.map (·.1) = fs.map (·.1))
    (h : ∀ e f, (e, f) ∈ es.zip fs → Shaped s e.2 f.2) : Shaped s (.ref l) (.ref m)
  | record {l m : Loc} {cls : RecordClass} {xs ys : List Value} {extras : List (String × Value)}
    (hl : s.get? l = some (.record cls xs extras)) (hm : s.get? m = some (.record cls ys []))
    (hlength : (cls.fields.zip xs).length = ys.length)
    (hset : ∀ p y, (p, y) ∈ (cls.fields.zip xs).zip ys → p.1.settable = true → Shaped s p.2 y)
    (hreset : ∀ p y, (p, y) ∈ (cls.fields.zip xs).zip ys → p.1.settable = false → y = .atom p.1.initial) :
    Shaped s (.ref l) (.ref m)

variable {s t u : Store} {x y : Value}

/-- A value keeps its shape while objects are added. -/
theorem Shaped.grow (ht : s.Grows t) (h : s.Shaped x y) : t.Shaped x y := by
  induction h with
  | null => exact .null
  | bool => exact .bool
  | int h => exact .int h
  | float ha hb => exact .float ha hb
  | text => exact .text
  | bytes => exact .bytes
  | member h => exact .member h
  | tuple hlength _ ih => exact .tuple hlength ih
  | frozen hlength _ hreset ih => exact .frozen hlength ih hreset
  | list hl hm hlong hempty _ ih => exact .list (ht _ _ hl) (ht _ _ hm) hlong hempty ih
  | mapping hl hm hkeys _ ih => exact .mapping (ht _ _ hl) (ht _ _ hm) hkeys ih
  | record hl hm hlength _ hreset ih => exact .record (ht _ _ hl) (ht _ _ hm) hlength ih hreset

/-! ## What is added -/

/-- Whether a value refers to added objects only. -/
def Added (s : Store) (x : Value) : Prop := ∀ m ∈ x.refs, s.size ≤ m

/-- Whether a store comes from another by adding objects, none of which refers to an older one. -/
structure Supplemented (s t : Store) : Prop where
  size : s.size ≤ t.size
  get : ∀ l, l < s.size → t.get? l = s.get? l
  given : t.given = s.given
  added : ∀ l o, s.size ≤ l → t.get? l = some o → ∀ x ∈ o.values, s.Added x

theorem added_atom {a : Atom} : s.Added (.atom a) := fun _ hm => absurd hm List.not_mem_nil

theorem added_tuple {cls : Option TupleClass} {xs : List Value} (h : ∀ x ∈ xs, s.Added x) :
    s.Added (.tuple cls xs) := by
  intro m hm
  obtain ⟨x, hx, hm⟩ := Value.mem_refsAll.mp hm
  exact h x hx m hm

theorem added_frozen {cls : RecordClass} {xs : List Value} (h : ∀ x ∈ xs, s.Added x) : s.Added (.frozen cls xs) :=
  show s.Added (.tuple none xs) from added_tuple h

theorem Supplemented.refl (s : Store) : s.Supplemented s where
  size := Nat.le_refl _
  get := fun _ _ => rfl
  given := rfl
  added := by
    intro l o hl ho
    rw [get?_eq_none hl] at ho
    cases ho

theorem Supplemented.grows (h : s.Supplemented t) : s.Grows t := by
  intro l o ho
  rw [h.get l (lt_size_of_get? ho), ho]

theorem Supplemented.alloc (h : s.Supplemented t) {o : Object} (ho : ∀ x ∈ o.values, s.Added x) :
    s.Supplemented (t.alloc o).2 where
  size := by
    rw [size_alloc]
    exact Nat.le_succ_of_le h.size
  get := fun l hl => by rw [get?_alloc_of_lt (Nat.lt_of_lt_of_le hl h.size), h.get l hl]
  given := h.given
  added := by
    intro l o' hl ho'
    rw [get?_alloc] at ho'
    split at ho'
    · cases ho'
      exact ho
    · exact h.added l o' hl ho'

/-- What can be reached from an added value has been added. -/
theorem Supplemented.reachable (h : s.Supplemented t) (hx : s.Added x) : ∀ m ∈ t.reachable x.refs, s.size ≤ m := by
  refine reachable_subset hx fun l o hl ho m hm => ?_
  obtain ⟨y, hy, hmy⟩ := Value.mem_refsAll.mp hm
  exact h.added l o hl ho y hy m hmy

end Store

/-! ## Making values -/

/-- Whether a world can be drawn in: objects have been added to those of a store, and the source varies. -/
structure World.Ready (s : Store) (w : World) : Prop where
  added : s.Supplemented w.store
  varies : w.source.isFixed = false

/-- Whether a run only adds objects, to those of a store and to those that are there, and answers as described or, if it
may, runs out of levels. -/
structure Act.Provides {α : Type} (s : Store) (deep : Prop) (a : Act α) (P : Store → α → Prop) (w : World) : Prop where
  ready : (exec a w).2.Ready s
  grows : w.store.Grows (exec a w).2.store
  outcome : (∃ x, (exec a w).1 = .ok x ∧ P (exec a w).2.store x) ∨
    (deep ∧ (exec a w).1 = .error (.misuse .bottomless))

namespace Act

section

variable {α β : Type} {s : Store} {deep : Prop} {a : Act α} {f : α → Act β} {P P' : Store → α → Prop}
  {Q : Store → β → Prop} {w u : World} {x : α} {o : Object}

theorem Provides.of_answer (h : exec a w = (.ok x, u)) (hu : u.Ready s) (hgrows : w.store.Grows u.store)
    (hP : P u.store x) : a.Provides s deep P w where
  ready := by
    rw [h]
    exact hu
  grows := by
    rw [h]
    exact hgrows
  outcome := .inl ⟨x, by rw [h], by
    rw [h]
    exact hP⟩

theorem Provides.of_exec {b : Act α} (h : exec a w = exec b w) (hb : b.Provides s deep P w) :
    a.Provides s deep P w := by
  obtain ⟨hready, hgrows, houtcome⟩ := hb
  rw [← h] at hready hgrows houtcome
  exact ⟨hready, hgrows, houtcome⟩

theorem provides_pure (hw : w.Ready s) (h : P w.store x) : (pure x : Act α).Provides s deep P w :=
  .of_answer rfl hw (.refl _) h

theorem Provides.bind (ha : a.Provides s deep P w)
    (hf : ∀ x u, u.Ready s → w.store.Grows u.store → P u.store x → (f x).Provides s deep Q u) :
    (a >>= f).Provides s deep Q w := by
  obtain ⟨hready, hgrows, houtcome⟩ := ha
  rcases hrun : exec a w with ⟨r, u⟩
  rw [hrun] at hready hgrows houtcome
  rcases houtcome with ⟨x, rfl, hx⟩ | ⟨hdeep, rfl⟩
  · obtain ⟨hready', hgrows', houtcome'⟩ := hf x u hready hgrows hx
    have hbind : exec (a >>= f) w = exec (f x) u := by rw [exec_bind, hrun]
    rw [← hbind] at hready' hgrows' houtcome'
    exact ⟨hready', hgrows.trans hgrows', houtcome'⟩
  · have hbind : exec (a >>= f) w = (.error (.misuse .bottomless), u) := by rw [exec_bind, hrun]
    constructor
    · rw [hbind]
      exact hready
    · rw [hbind]
      exact hgrows
    · rw [hbind]
      exact .inr ⟨hdeep, rfl⟩

theorem Provides.mono (ha : a.Provides s deep P w) (h : ∀ t x, w.store.Grows t → P t x → P' t x) :
    a.Provides s deep P' w :=
  ⟨ha.ready, ha.grows, ha.outcome.imp (fun ⟨x, hx, hP⟩ => ⟨x, hx, h _ x ha.grows hP⟩) id⟩

theorem provides_get (hw : w.Ready s) : (get : Act World).Provides s deep (fun _ v => v = w) w :=
  .of_answer rfl hw (.refl _) rfl

theorem provides_mapM {a : α → Act β} {R : Store → α → β → Prop}
    (hR : ∀ t u x y, t.Grows u → R t x y → R u x y) : ∀ {xs : List α} {w : World}, w.Ready s →
      (∀ x ∈ xs, ∀ u, u.Ready s → w.store.Grows u.store → (a x).Provides s deep (fun t y => R t x y) u) →
      (xs.mapM a).Provides s deep (fun t ys => List.Forall₂ (R t) xs ys) w := by
  intro xs
  induction xs with
  | nil =>
    intro w hw _
    exact provides_pure hw .nil
  | cons x xs ih =>
    intro w hw h
    rw [List.mapM_cons]
    refine (h x List.mem_cons_self w hw (.refl _)).bind fun y u hu hwu hy => ?_
    have hrest := ih hu fun z hz v hv huv => h z (List.mem_cons_of_mem _ hz) v hv (hwu.trans huv)
    have hboth := hrest.mono fun t ys hut hys => And.intro (hR _ _ x y hut hy) hys
    exact hboth.bind fun ys t ht _ hys => provides_pure ht (.cons hys.1 hys.2)

theorem provides_newObject (hw : w.Ready s) (ho : ∀ x ∈ o.values, s.Added x) :
    Act.Provides s deep (do return Value.ref (← Act.alloc o))
      (fun t x => s.Added x ∧ ∃ m, x = .ref m ∧ t.get? m = some o) w := by
  refine .of_answer rfl ⟨hw.added.alloc ho, hw.varies⟩ (.alloc _ _) ⟨?_, _, rfl, Store.get?_alloc_new⟩
  intro m hm
  cases List.mem_singleton.mp hm
  exact hw.added.size

end

end Act

/-! ## Numbers -/

theorem Twister.drawBelow_lt {n k : Nat} (hn : 0 < n) (fuel : Nat) (t : Twister) : (drawBelow n k fuel t).1 < n := by
  induction fuel generalizing t with
  | zero => exact hn
  | succ fuel ih =>
    unfold drawBelow
    dsimp only
    split
    · next h => exact h
    · exact ih _

theorem Source.below_lt {n : Nat} (hn : 0 < n) (source : Source) : (source.below n).1 < n := by
  cases source with
  | seeded seed t =>
    show (Twister.drawBelow n (n.log2 + 1) 1000 t).1 < n
    exact Twister.drawBelow_lt hn _ t
  | tape entries i =>
    show (Source.entry entries i % (n : Int)).toNat < n
    have hpos : (0 : Int) < n := by omega
    have := Int.emod_lt_of_pos (Source.entry entries i) hpos
    omega
  | fixed => exact hn

namespace Draw

variable {s : Store} {deep : Prop} {w : World} {α : Type}

theorem provides_fromSource {f : Source → α × Source} {P : α → Prop} (hw : w.Ready s)
    (hf : ∀ source, (f source).2.isFixed = source.isFixed) (hP : ∀ source, P (f source).1) :
    (fromSource f).Provides s deep (fun _ => P) w :=
  .of_answer rfl ⟨hw.added, (hf w.source).trans hw.varies⟩ (.refl _) (hP w.source)

theorem provides_below {n : Nat} (hn : 0 < n) (hw : w.Ready s) : (below n).Provides s deep (fun _ i => i < n) w :=
  provides_fromSource hw Source.isFixed_below (Source.below_lt hn)

theorem provides_unit (hw : w.Ready s) : Draw.unit.Provides s deep (fun _ _ => True) w :=
  provides_fromSource hw Source.isFixed_unit fun _ => trivial

theorem provides_intBetween {low high : Int} (h : low ≤ high) (hw : w.Ready s) :
    (intBetween low high).Provides s deep (fun _ n => low ≤ n ∧ n ≤ high) w :=
  (provides_below (by omega) hw).bind fun i u hu _ hi => provides_pure hu (by omega)

theorem provides_index {n : Nat} (hn : 0 < n) (hw : w.Ready s) : (index n).Provides s deep (fun _ i => i < n) w := by
  unfold index
  rw [if_neg (Nat.ne_of_gt hn)]
  split
  · exact provides_pure hw hn
  · exact provides_below hn hw

theorem provides_choose {xs : List α} (hxs : xs ≠ []) (hw : w.Ready s) :
    (choose xs).Provides s deep (fun _ x => x ∈ xs) w := by
  refine (provides_index (List.length_pos_iff.mpr hxs) hw).bind fun i u hu _ hi => ?_
  rw [List.getElem?_eq_getElem hi]
  exact provides_pure hu (List.getElem_mem hi)

theorem provides_boolean (hw : w.Ready s) : boolean.Provides s deep (fun _ _ => True) w := by
  refine (provides_get hw).bind fun v u hu _ hv => ?_
  rw [hv, hw.varies]
  exact (provides_unit hu).bind fun r t ht _ _ => provides_pure ht trivial

theorem provides_arbitraryText (hw : w.Ready s) : arbitraryText.Provides s deep (fun _ _ => True) w := by
  refine (provides_intBetween (by decide) hw).bind fun n u hu _ _ => ?_
  have hchars : ((List.replicate n.toNat ()).mapM fun _ => choose alphabet).Provides s deep
      (fun _ cs => List.Forall₂ (fun _ _ => True) (List.replicate n.toNat ()) cs) u :=
    provides_mapM (R := fun _ _ _ => True) (fun _ _ _ _ _ _ => trivial) hu fun _ _ v hv _ =>
      (provides_choose (by decide) hv).mono fun _ _ _ _ => trivial
  exact hchars.bind fun cs t ht _ _ => provides_pure ht trivial

theorem provides_arbitraryBytes (hw : w.Ready s) : arbitraryBytes.Provides s deep (fun _ _ => True) w := by
  refine (provides_intBetween (by decide) hw).bind fun n u hu _ _ => ?_
  have hbytes : ((List.replicate n.toNat ()).mapM fun _ => return UInt8.ofNat (← below 256)).Provides s deep
      (fun _ bs => List.Forall₂ (fun _ _ => True) (List.replicate n.toNat ()) bs) u :=
    provides_mapM (R := fun _ _ _ => True) (fun _ _ _ _ _ _ => trivial) hu fun _ _ v hv _ =>
      (provides_below (by decide) hv).bind fun _ t ht _ _ => provides_pure ht trivial
  exact hbytes.mono fun _ _ _ _ => trivial

theorem provides_number {n : Numeral} (h : ∀ k, n ≠ .int k) (hw : w.Ready s) :
    (Act.number n).Provides s deep (fun _ x => ∃ a : Atom, x = .atom a ∧ a.isFloat = true) w := by
  cases n with
  | int k => exact absurd rfl (h k)
  | float x => exact provides_pure hw ⟨_, rfl, rfl⟩
  | nan =>
    have hadded := hw.added
    exact .of_answer rfl ⟨⟨hadded.size, hadded.get, hadded.given, hadded.added⟩, hw.varies⟩ (fun _ _ h => h)
      ⟨_, rfl, rfl⟩

/-- Arithmetic with floating-point numbers is never beyond their range, and never gives an integer. -/
theorem provides_rounded {x y : Numeral} (exact : Int → Int → Int) (rounded : Binary64 → Binary64 → Binary64)
    (hx : ∀ k, x ≠ .int k) (hy : ∀ k, y ≠ .int k) (hw : w.Ready s) :
    (Act.inRange (Numeral.combine? exact rounded x y)).Provides s deep (fun _ z => ∀ k, z ≠ .int k) w := by
  have hof : ∀ (b : Binary64) (k : Int), Numeral.ofBinary b ≠ .int k := by
    intro b k
    unfold Numeral.ofBinary
    split <;> simp
  cases x with
  | int k => exact absurd rfl (hx k)
  | float a =>
    cases y with
    | int k => exact absurd rfl (hy k)
    | _ => exact provides_pure hw (hof _)
  | nan =>
    cases y with
    | int k => exact absurd rfl (hy k)
    | _ => exact provides_pure hw (hof _)

theorem provides_numeral {b : Binary64} (hw : w.Ready s) :
    (numeral (.atom (.float b))).Provides s deep (fun _ n => n = .float b) w :=
  .of_answer rfl hw (.refl _) rfl

theorem provides_requireOrdered {a b : Binary64} (h : b.exact.less a.exact = false) (hw : w.Ready s) :
    (requireOrdered (.atom (.float a)) (.atom (.float b))).Provides s deep (fun _ _ => True) w := by
  refine .of_answer (u := w) (x := ()) ?_ hw (.refl _) trivial
  have hless : (w.store.view (.atom (.float b))).less? (w.store.view (.atom (.float a))) = some false :=
    congrArg some h
  simp only [requireOrdered, exec_bind, exec_view, hless]
  rfl

theorem provides_floatInRange {a b : Binary64} (h : b.exact.less a.exact = false) (hw : w.Ready s) :
    (floatInRange (.atom (.float a)) (.atom (.float b))).Provides s deep
      (fun _ x => ∃ c : Atom, x = .atom c ∧ c.isFloat = true) w := by
  refine (provides_get hw).bind fun v u hu _ hv => ?_
  rw [hv, hw.varies]
  refine (provides_requireOrdered h hu).bind fun _ t ht _ _ => ?_
  refine (provides_numeral ht).bind fun m t ht _ hm => (provides_numeral ht).bind fun n t ht _ hn => ?_
  -- no operand is an integer, so none of the three results is beyond the range of numbers
  have hm' : ∀ k, m ≠ .int k := by simp [hm]
  refine (provides_rounded (· - ·) Binary64.sub (by simp [hn]) hm' ht).bind fun span t ht _ hspan => ?_
  refine (provides_unit ht).bind fun r t ht _ _ => ?_
  refine (provides_rounded (· * ·) Binary64.mul hspan (y := .float r) (by simp) ht).bind fun part t ht _ hpart => ?_
  refine (provides_rounded (· + ·) Binary64.add hm' hpart ht).bind fun sum t ht _ hsum => ?_
  exact provides_number hsum ht

theorem floatSpan_ordered :
    floatSpan.exact.less (Binary64.ofMagnitude true floatSpan.bits.toNat).exact = false := by
  decide +kernel

/-- A new atom of the shape of an atom. -/
theorem provides_arbitraryAtom {a : Atom} (ha : a.Generable) (hw : w.Ready s) :
    (arbitraryAtom a).Provides s deep (fun t x => s.Added x ∧ t.Shaped (.atom a) x) w := by
  have hfloat : ∀ b : Atom, b.isFloat = true →
      (floatInRange (.atom (.float (Binary64.ofMagnitude true floatSpan.bits.toNat)))
        (.atom (.float floatSpan))).Provides s deep (fun t x => s.Added x ∧ t.Shaped (.atom b) x) w := by
    intro b hb
    refine (provides_floatInRange floatSpan_ordered hw).mono ?_
    rintro t x - ⟨c, rfl, hc⟩
    exact ⟨Store.added_atom, .float hb hc⟩
  cases a with
  | null => exact provides_pure hw ⟨Store.added_atom, .null⟩
  | bool b => exact (provides_boolean hw).bind fun b u hu _ _ => provides_pure hu ⟨Store.added_atom, .bool⟩
  | int n =>
    have hrange : leastInt ≤ greatestInt := by decide
    exact (provides_intBetween hrange hw).bind fun n u hu _ hn => provides_pure hu ⟨Store.added_atom, .int hn⟩
  | float x => exact hfloat _ rfl
  | nan m => exact hfloat _ rfl
  | text t => exact (provides_arbitraryText hw).bind fun t u hu _ _ => provides_pure hu ⟨Store.added_atom, .text⟩
  | bytes bs => exact (provides_arbitraryBytes hw).bind fun bs u hu _ _ => provides_pure hu ⟨Store.added_atom, .bytes⟩
  | member cls i =>
    have hmembers : 0 < cls.members.length := Nat.lt_of_le_of_lt (Nat.zero_le i) ha
    exact (provides_index hmembers hw).bind fun j u hu _ hj => provides_pure hu ⟨Store.added_atom, .member hj⟩
  | sealed cls => exact ha.elim
  | enumeration cls => exact ha.elim
  | absent m => exact ha.elim

/-! ## Objects -/

theorem likeFields_eq {like : Value → Act Value} {fs : List Field} {xs : List Value} :
    likeFields like fs xs =
      (fs.zip xs).mapM fun p => if p.1.settable then like p.2 else pure (.atom p.1.initial) := by
  induction fs generalizing xs with
  | nil => rw [likeFields, List.zip_nil_left, List.mapM_nil]; simp
  | cons f fs ih =>
    cases xs with
    | nil => rw [likeFields, List.zip_nil_right, List.mapM_nil]; simp
    | cons x xs =>
      rw [likeFields, List.zip_cons_cons, List.mapM_cons, ih]
      cases f.settable <;> rfl

/-- Whether a value has the shape of another and is made of added objects. -/
def NewLike (s t : Store) (x y : Value) : Prop := s.Added y ∧ t.Shaped x y

/-- Whether a value is what the field of a record becomes: one like it, or the default if the field is not settable. -/
def NewField (s t : Store) (p : Field × Value) (y : Value) : Prop :=
  s.Added y ∧ (p.1.settable = true → t.Shaped p.2 y) ∧ (p.1.settable = false → y = .atom p.1.initial)

theorem NewLike.grow {t u : Store} {x y : Value} (ht : t.Grows u) (h : NewLike s t x y) : NewLike s u x y :=
  ⟨h.1, h.2.grow ht⟩

/-- What stands on the right refers to added objects only, if what stands to something does. -/
theorem added_of_forall₂ {α : Type} {R : α → Value → Prop} {xs : List α} {ys : List Value}
    (h : List.Forall₂ R xs ys) (hR : ∀ x y, R x y → s.Added y) : ∀ y ∈ ys, s.Added y := by
  intro y hy
  obtain ⟨x, -, hxy⟩ := exists_of_forall₂_right h y hy
  exact hR x y hxy

variable {like : Value → Act Value} {P : Value → Prop}

theorem provides_likeFields {cls : RecordClass} {xs : List Value} (hxs : cls.Settable P xs)
    (hlike : ∀ x, P x → ∀ u : World, u.Ready s → (like x).Provides s deep (NewLike s · x) u) (hw : w.Ready s) :
    (likeFields like cls.fields xs).Provides s deep
      (fun t ys => List.Forall₂ (NewField s t) (cls.fields.zip xs) ys) w := by
  rw [likeFields_eq]
  refine provides_mapM ?_ hw fun p hp u hu _ => ?_
  · intro t u p y ht h
    exact ⟨h.1, fun hset => (h.2.1 hset).grow ht, h.2.2⟩
  · split
    · next hset =>
      refine (hlike p.2 (hxs.2 p hp hset) u hu).mono fun t y _ h => ⟨h.1, fun _ => h.2, fun hreset => ?_⟩
      rw [hset] at hreset
      cases hreset
    · next hset =>
      exact provides_pure hu ⟨Store.added_atom, fun h => absurd h hset, fun _ => rfl⟩

/-- What holds of the fields of a new record. -/
theorem fields_shaped {t : Store} {cls : RecordClass} {xs ys : List Value}
    (h : List.Forall₂ (NewField s t) (cls.fields.zip xs) ys) :
    (cls.fields.zip xs).length = ys.length ∧
      (∀ p y, (p, y) ∈ (cls.fields.zip xs).zip ys → p.1.settable = true → t.Shaped p.2 y) ∧
      ∀ p y, (p, y) ∈ (cls.fields.zip xs).zip ys → p.1.settable = false → y = .atom p.1.initial := by
  obtain ⟨hlength, hfields⟩ := List.forall₂_iff_zip.mp h
  exact ⟨hlength, fun p y hpy => (hfields hpy).2.1, fun p y hpy => (hfields hpy).2.2⟩

/-- Whether an entry of a mapping is what another becomes: one under the same key with a value like the other's. -/
def NewEntry (s t : Store) (e f : Value × Value) : Prop := e.1 = f.1 ∧ NewLike s t e.2 f.2

section

variable {l : Loc} (hlike : ∀ x, P x → ∀ u : World, u.Ready s → (like x).Provides s deep (NewLike s · x) u)
  (hw : w.Ready s)

include hlike hw

theorem provides_likeList {xs : List Value} (hget : s.get? l = some (.list xs)) (hxs : ∀ x ∈ xs.head?, P x) :
    (likeObject like (.list xs)).Provides s deep (NewLike s · (.ref l)) w := by
  cases xs with
  | nil =>
    refine (provides_newObject (o := .list []) hw (List.forall_mem_nil _)).mono ?_
    rintro t y ht ⟨hy, m, rfl, hm⟩
    have hl := ht l _ (hw.added.grows l _ hget)
    exact ⟨hy, .list hl hm (Nat.zero_le _) (fun _ => rfl) fun _ _ _ h => absurd h List.not_mem_nil⟩
  | cons x xs =>
    have hrange : (0 : Int) ≤ longestList := by decide
    refine (provides_intBetween hrange hw).bind fun n u hu _ hn => ?_
    have hitems : ((List.replicate n.toNat ()).mapM fun _ => like x).Provides s deep
        (fun t ys => List.Forall₂ (fun _ => NewLike s t x) (List.replicate n.toNat ()) ys) u :=
      provides_mapM (R := fun t _ => NewLike s t x) (fun _ _ _ _ => NewLike.grow) hu fun _ _ v hv _ =>
        hlike x (hxs x rfl) v hv
    refine hitems.bind fun ys t ht hut hys => ?_
    have hadded : ∀ y ∈ ys, s.Added y := added_of_forall₂ hys fun _ _ h => h.1
    refine (provides_newObject (o := .list ys) ht hadded).mono ?_
    rintro v y htv ⟨hy, m, rfl, hm⟩
    have hl := htv l _ (ht.added.grows l _ hget)
    have hlength := hys.length_eq
    rw [List.length_replicate] at hlength
    refine ⟨hy, .list hl hm (by omega) (by simp) ?_⟩
    rintro x' ⟨⟩ z hz
    obtain ⟨_, -, hlikeness⟩ := exists_of_forall₂_right hys z hz
    exact hlikeness.2.grow htv

omit hw in
theorem provides_likeEntries {es : List (Value × Value)} (hes : ∀ e ∈ es, P e.2) (hw : w.Ready s) :
    Act.Provides s deep (es.mapM fun e => do return (e.1, ← like e.2))
      (fun t fs => List.Forall₂ (NewEntry s t) es fs) w := by
  refine provides_mapM ?_ hw fun e he u hu _ => ?_
  · exact fun _ _ _ _ ht h => ⟨h.1, h.2.grow ht⟩
  · exact (hlike e.2 (hes e he) u hu).bind fun y t ht _ hy => provides_pure ht ⟨rfl, hy⟩

theorem provides_likeMapping {es : List (Value × Value)} (hget : s.get? l = some (.mapping es))
    (hes : ∀ e ∈ es, e.1.refs = [] ∧ P e.2) :
    (likeObject like (.mapping es)).Provides s deep (NewLike s · (.ref l)) w := by
  refine (provides_likeEntries hlike (fun e he => (hes e he).2) hw).bind fun fs t ht _ hfs => ?_
  obtain ⟨-, hshaped⟩ := List.forall₂_iff_zip.mp hfs
  have hkeys : es.map (·.1) = fs.map (·.1) := by
    rw [← List.forall₂_eq_eq_eq, List.forall₂_map_left_iff, List.forall₂_map_right_iff]
    exact hfs.imp fun _ _ h => h.1
  have hadded : ∀ x ∈ (Object.mapping fs).values, s.Added x := by
    intro x hx
    obtain ⟨f, hf, hx⟩ := List.mem_flatMap.mp hx
    simp only [List.mem_cons, List.not_mem_nil, or_false] at hx
    rcases hx with rfl | rfl
    · -- a key that is taken over is no object
      obtain ⟨e, he, hkey⟩ := List.mem_map.mp (hkeys ▸ List.mem_map_of_mem hf)
      intro m hm
      rw [← hkey, (hes e he).1] at hm
      cases hm
    · obtain ⟨e, -, he⟩ := exists_of_forall₂_right hfs f hf
      exact he.2.1
  refine (provides_newObject ht hadded).mono ?_
  rintro v y htv ⟨hy, m, rfl, hm⟩
  have hl := htv l _ (ht.added.grows l _ hget)
  exact ⟨hy, .mapping hl hm hkeys fun e f hef => (hshaped hef).2.2.grow htv⟩

theorem provides_likeRecord {cls : RecordClass} {xs : List Value} {extras : List (String × Value)}
    (hget : s.get? l = some (.record cls xs extras)) (hcls : cls.keeping = .mutable) (hxs : cls.Settable P xs) :
    (likeObject like (.record cls xs extras)).Provides s deep (NewLike s · (.ref l)) w := by
  have hobject : likeObject like (.record cls xs extras) =
      likeFields like cls.fields xs >>= newRecord cls := by
    rw [likeObject, hcls]
    rfl
  rw [hobject]
  refine (provides_likeFields hxs hlike hw).bind fun ys t ht _ hys => ?_
  obtain ⟨hlength, hset, hreset⟩ := fields_shaped hys
  have hrecord : newRecord cls ys = do return .ref (← Act.alloc (.record cls ys [])) := by
    rw [newRecord, hcls]
  rw [hrecord]
  have hadded : ∀ x ∈ (Object.record cls ys []).values, s.Added x := by
    rw [Object.values, List.map_nil, List.append_nil]
    exact added_of_forall₂ hys fun _ _ h => h.1
  refine (provides_newObject ht hadded).mono ?_
  rintro v y htv ⟨hy, m, rfl, hm⟩
  have hl := htv l _ (ht.added.grows l _ hget)
  exact ⟨hy, .record hl hm hlength (fun p y hp h => (hset p y hp h).grow htv) hreset⟩

/-- A new value of the shape of an object. -/
theorem provides_likeObject {o : Object} (hget : s.get? l = some o) (ho : o.Generable P) :
    (likeObject like o).Provides s deep (NewLike s · (.ref l)) w := by
  cases o with
  | list xs => exact provides_likeList hlike hw hget ho
  | mapping es => exact provides_likeMapping hlike hw hget ho
  | record cls xs extras => exact provides_likeRecord hlike hw hget ho.1 ho.2
  | slots xs => exact ho.elim

end

/-- A template has new values of its shape, unless it has more levels than are followed. -/
theorem provides_likeWithin {levels : Nat} : ∀ {v : Value} {w : World}, s.Generable deep levels v → w.Ready s →
    (likeWithin levels v).Provides s deep (NewLike s · v) w := by
  induction levels with
  | zero =>
    intro v w hv hw
    exact ⟨hw, .refl _, .inr ⟨hv, rfl⟩⟩
  | succ levels ih =>
    intro v w hv hw
    have hlike : ∀ x, s.Generable deep levels x → ∀ u : World, u.Ready s →
        (likeWithin levels x).Provides s deep (NewLike s · x) u := fun x hx u hu => ih hx hu
    cases v with
    | atom a => exact provides_arbitraryAtom hv hw
    | tuple cls xs =>
      have hitems : (xs.mapM (likeWithin levels)).Provides s deep (fun t ys => List.Forall₂ (NewLike s t) xs ys) w :=
        provides_mapM (R := NewLike s) (fun _ _ _ _ => NewLike.grow) hw fun x hx u hu _ => ih (hv x hx) hu
      refine hitems.bind fun ys t ht _ hys => provides_pure ht ?_
      obtain ⟨hlength, hshaped⟩ := List.forall₂_iff_zip.mp hys
      have hadded : ∀ y ∈ ys, s.Added y := added_of_forall₂ hys fun _ _ h => h.1
      exact ⟨Store.added_tuple hadded, .tuple hlength fun x y hxy => (hshaped hxy).2⟩
    | set xs => exact hv.elim
    | frozen cls xs =>
      refine (provides_likeFields hv.2 hlike hw).bind fun ys t ht _ hys => ?_
      obtain ⟨hlength, hset, hreset⟩ := fields_shaped hys
      have hrecord : newRecord cls ys = return .frozen cls ys := by
        rw [newRecord, hv.1]
      rw [hrecord]
      have hadded : ∀ y ∈ ys, s.Added y := added_of_forall₂ hys fun _ _ h => h.1
      exact provides_pure ht ⟨Store.added_frozen hadded, .frozen hlength hset hreset⟩
    | ref l =>
      obtain ⟨o, hget, ho⟩ := hv
      have hread : (Act.ask (·.get? l)).Provides s deep (fun _ o' => o' = some o) w :=
        .of_answer rfl hw (.refl _) (hw.added.grows l o hget)
      refine hread.bind fun o' u hu _ ho' => ?_
      rw [ho']
      exact provides_likeObject hlike hu hget ho

/-- The same from the top, for a template of at most so many levels as are followed. -/
theorem provides_arbitrary {v : Value} (hv : s.Generable deep deepest v) (hw : w.Ready s) :
    (arbitrary v).Provides s deep (NewLike s · v) w := by
  refine (provides_get hw).bind fun u t ht _ hu => ?_
  rw [hu, hw.varies]
  exact provides_likeWithin hv ht

end Draw

/-! ## Building from a template -/

/-- An added value lies in the arena around every region that has all attributes. -/
theorem Store.Added.within {s : Store} {U : Set Place} {x : Value} (hx : s.Added x)
    (hU : ∀ o, Place.attributes o ∈ U) : x.Within (s.around U) := by
  intro p hp
  cases p with
  | object l => exact .inr ⟨l, rfl, hx l ((Value.object_mem_places x).mp hp)⟩
  | attributes o => exact .inl (hU o)

theorem Object.exists_value_of_mem_places {o : Object} {l : Loc} (h : Place.object l ∈ o.places) :
    ∃ x ∈ o.values, Place.object l ∈ x.places := by
  rcases List.mem_append.mp h with h | h
  · exact Value.mem_placesAll.mp h
  · cases o with
    | record cls xs extras => simp [RecordClass.places, Atom.places] at h
    | _ => cases h

/-- Objects that have been added fit into the arena around every region that has all attributes. -/
theorem Store.Supplemented.holds {s t : Store} {U : Set Place} {strict : Prop} (h : s.Supplemented t)
    (hregion : s.Region U) (hU : ∀ o, Place.attributes o ∈ U) (ho : s.Owned) : (Arena.around s U strict).Holds t := by
  have hclosed : t.Closed (s.around U) := by
    intro p hp q hq
    cases q with
    | attributes o => exact .inl (hU o)
    | object m =>
      cases p with
      | attributes o =>
        obtain ⟨a, name, v, ha, hmem, hq⟩ := hq
        rw [h.given] at hmem
        exact .inl (hregion.closed (.attributes o) (hU o) _ ⟨a, name, v, ha, hmem, hq⟩)
      | object l =>
        obtain ⟨o, hget, hq⟩ := hq
        -- an old object refers to what it did, and an added one to added ones
        by_cases hl : l < s.size
        · have hlU : Place.object l ∈ U := by
            rcases hp with hmem | ⟨l', heq, hle⟩
            · exact hmem
            · cases heq
              exact absurd hl (Nat.not_lt.mpr hle)
          rw [h.get l hl] at hget
          exact .inl (hregion.closed _ hlU _ ⟨o, hget, hq⟩)
        · obtain ⟨x, hx, hmx⟩ := Object.exists_value_of_mem_places hq
          exact (h.added l o (Nat.not_lt.mp hl) hget x hx).within hU _ hmx
  refine ⟨hclosed, ?_, fun l hl => ?_, ?_, h.size, fun l hl => ?_, fun a _ name => ?_, fun _ => h.given⟩
  · intro l vs hl hget m hm
    exact Value.within_ref.mp ((hclosed.object hl hget).value hm)
  · have hle := Nat.le_trans h.size hl
    exact ⟨.inr ⟨l, rfl, hle⟩, .inr ⟨l, rfl, hle⟩⟩
  · intro e he
    exact ho e (h.given ▸ he)
  · exact h.get l (Nat.not_le.mp fun hle => hl (.inr ⟨l, rfl, hle⟩))
  · rw [Store.given?, Store.given?, h.given]
    rfl

/-- A draw from a source that varies gives, for a template of at most `deepest` levels, a value of its shape that shares
no object with it, and leaves all objects as they are; for a template of more levels, it may end because of them. And
building a value, whether it answers or raises, leaves alone all objects outside the region of the fact, those of the
template among them.

The template is made of atoms, tuples, lists, mappings and records; it has no sets, and its keys refer to no objects
(`Store.Generable`). The region holds the cells of the fact, and what its accessors and generators name
(`Fact.Confined`). -/
theorem arbitrary_shaped_build_apart {w : World} {like : Value} {deep : Prop} (hvaries : w.source.isFixed = false)
    (hlike : w.store.Generable deep deepest like) :
    (∃ r u, exec (arbitrary like) w = (r, u) ∧ w.store.Supplemented u.store ∧
      ((∃ x, r = .ok x ∧ u.store.Shaped like x ∧ ∀ m ∈ u.store.reachable x.refs, w.store.size ≤ m) ∨
        (deep ∧ r = .error (.misuse .bottomless)))) ∧
    ∀ f U attempts, f.Confined w.store U → (∀ o, Place.attributes o ∈ U) → w.store.Owned →
      ∀ l, l < w.store.size → Place.object l ∉ U →
        (exec (build f like attempts) w).2.store.get? l = w.store.get? l := by
  have hready : w.Ready w.store := ⟨.refl _, hvaries⟩
  obtain ⟨⟨hadded, -⟩, -, houtcome⟩ := provides_arbitrary hlike hready
  rcases hrun : exec (arbitrary like) w with ⟨r, u⟩
  rw [hrun] at hadded houtcome
  refine ⟨⟨r, u, rfl, hadded, ?_⟩, fun f U attempts hf hU ho l hl hlU => ?_⟩
  · exact houtcome.imp (fun ⟨x, hx, hnew⟩ => ⟨x, hx, hnew.2, hadded.reachable hnew.1⟩) id
  · -- the value that is satisfied is a new one, so the loop writes to the region and to new places only
    rw [build, exec_bind, hrun]
    rcases houtcome with ⟨x, rfl, hnew⟩ | ⟨-, rfl⟩
    · exact (hf.runs_satisfy (hnew.1.within hU) u (hadded.holds hf.region hU ho)).1.frame.outside hl hlU
    · exact hadded.get l hl

/-- A list in a list, and the cell of a fact. -/
def listsWorld : World where
  store := ⟨#[.list [.int 5], .list [.ref 0], .slots [.null]], spelledMarks, []⟩
  source := .tape [3, 1, -7] 0
  log := #[]

/-- The fact that a list has two elements, at the cell of `listsWorld`. -/
def pairFact : Fact := .length 2 2 none

theorem pairFact_confined : pairFact.Confined listsWorld.store {p | ∀ l, p = .object l → l = 2} := by
  have hnodes : ∀ n ∈ pairFact.everyNode, n = pairFact := by simp [pairFact, Fact.everyNode, Fact.nodes, Fact.chosen]
  refine ⟨trivial, ⟨?_, ?_⟩, ?_, ?_, ?_, ?_⟩
  · intro p hp q hq
    cases p with
    | attributes o =>
      obtain ⟨a, name, v, -, hmem, -⟩ := hq
      cases hmem
    | object l =>
      obtain ⟨o, ho, hq⟩ := hq
      cases hp l rfl
      cases ho
      cases hq
  · intro l hl
    cases hl l rfl
    decide
  · rintro - o l ⟨⟩
  · intro n hn
    cases hnodes n hn
    rintro l ⟨⟩
    rfl
  · intro n hn a ha
    cases hnodes n hn
    cases ha
  · intro n hn g hg
    cases hnodes n hn
    cases hg

theorem listsWorld_generable : listsWorld.store.Generable False deepest (.ref 1) := by
  refine ⟨_, rfl, ?_⟩
  rintro x ⟨⟩
  refine ⟨_, rfl, ?_⟩
  rintro x ⟨⟩
  exact trivial

/-- Three lists are drawn, building leaves two of them, and the template keeps its elements. -/
theorem arbitrary_shaped_build_apart_lists :
    (∃ x, (exec (arbitrary (.ref 1)) listsWorld).1 = .ok x ∧
      (exec (arbitrary (.ref 1)) listsWorld).2.store.Shaped (.ref 1) x) ∧
    ((exec (build pairFact (.ref 1) 100) listsWorld).1.map fun _ => ()) = .ok () ∧
    (exec (build pairFact (.ref 1) 100) listsWorld).2.store.get? 1 = some (.list [.ref 0]) := by
  obtain ⟨⟨r, u, hrun, -, houtcome⟩, hbuild⟩ :=
    arbitrary_shaped_build_apart (w := listsWorld) rfl listsWorld_generable
  refine ⟨?_, by decide +kernel, ?_⟩
  · rcases houtcome with ⟨x, hx, hshaped, -⟩ | ⟨hdeep, -⟩
    · rw [hrun]
      exact ⟨x, hx, hshaped⟩
    · exact hdeep.elim
  · refine hbuild pairFact _ 100 pairFact_confined ?_ (List.forall_mem_nil _) 1 (by decide) ?_
    · rintro o l ⟨⟩
    · exact fun h => absurd (h 1 rfl) (by decide)

end Conform
