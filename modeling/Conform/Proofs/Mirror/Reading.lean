import Conform.Proofs.Likeness

/-!
# Stores that mirror each other

A fact and a copy of it are the same tree over different cells. `Mirroring` says where the cells that one
run works with stand in another, and in which places the values of both lie; a value lies at the same
places in both, and nothing that a value leads to is a cell that stands elsewhere. Two stores mirror each
other (`Mirroring.Holds`) if they hold the same objects there. Whatever is read of a value is then the
same in both, and storing the same part or the same elements leaves stores that mirror each other.
-/

namespace Conform

theorem Object.object_mem_places {l : Loc} (o : Object) : Place.object l ∈ o.places ↔ l ∈ o.refs := by
  have hcls (cls : RecordClass) : Place.object l ∉ cls.places := by simp [RecordClass.places, Atom.places]
  rw [refs, ← Value.object_mem_placesAll]
  cases o with
  | record cls xs extras => exact List.mem_append.trans (or_iff_left (hcls cls))
  | _ => exact List.mem_append.trans (or_iff_left List.not_mem_nil)

/-- Where the cells of a run stand in another run, the places that values lie in, which are the same in
both, and the store from which the first of them is seen. -/
structure Mirroring where
  place : Loc → Loc
  cells : Set Loc
  values : Set Place
  start : Store
  attributes : ∀ o, Place.attributes o ∈ values
  own : ∀ l, Place.object l ∈ values → l ∈ cells ∧ place l = l
  inj : ∀ c d, c ∈ cells → d ∈ cells → place c = place d → c = d

namespace Mirroring

/-- The defaults of a class of records name nothing but what takes attributes. -/
theorem defaults (M : Mirroring) (cls : RecordClass) : ∀ p ∈ cls.places, p ∈ M.values := by
  intro p hp
  cases p with
  | object l => simp [RecordClass.places, Atom.places] at hp
  | attributes o => exact M.attributes o

variable {M : Mirroring} {s t : Store}

/-- An atom names attributes at most. -/
theorem within_atom (a : Atom) : (Value.atom a).Within M.values := Value.within_atom.mpr fun o _ => M.attributes o

/-- Whether the objects at the cells of the second store stand in the first one where these cells stand,
and name values only. A cell that no value can be holds slots. Where nothing is yet, there is room for
values; what is no cell is as it was. -/
structure Holds (M : Mirroring) (s t : Store) : Prop where
  size : s.size = t.size
  marks : s.marks = t.marks
  given : s.given = t.given
  get : ∀ c ∈ M.cells, s.get? (M.place c) = t.get? c
  held : ∀ c ∈ M.cells, ∀ o, t.get? c = some o → o.Within M.values
  slotted : ∀ c ∈ M.cells, Place.object c ∉ M.values → ∀ o, t.get? c = some o → ∃ vs, o = .slots vs
  named : ∀ e ∈ t.given, e.2.2.Within M.values
  fresh : ∀ l, t.size ≤ l → Place.object l ∈ M.values
  owned : t.Owned
  frame : ∀ l, l ∉ M.cells → t.get? l = M.start.get? l

/-- Whether two comparisons come out the same for values of the mirroring. -/
def Same (M : Mirroring) (f g : Value → Value → Option Bool) : Prop :=
  ∀ v w, v.Within M.values → w.Within M.values → f v w = g v w

namespace Holds

variable {v w x : Value} {xs : List Value} {l : Loc}

/-! ## Trees -/

theorem value (h : M.Holds s t) (hl : Place.object l ∈ M.values) : s.get? l = t.get? l := by
  obtain ⟨hcell, hplace⟩ := M.own l hl
  rw [← h.get l hcell, hplace]

theorem object (h : M.Holds s t) (hl : Place.object l ∈ M.values) {o : Object} (ho : t.get? l = some o) :
    o.Within M.values :=
  h.held l (M.own l hl).1 o ho

theorem closed (h : M.Holds s t) : t.Closed M.values := by
  intro p hp q hq
  cases p with
  | object l =>
    obtain ⟨o, ho, hq⟩ := hq
    exact h.object hp ho q hq
  | attributes o =>
    obtain ⟨a, name, v, -, hmem, hq⟩ := hq
    exact h.named _ hmem q hq

theorem viewAt_eq (h : M.Holds s t) (fuel : Nat) : ∀ (path : List Loc) (l : Loc),
    Place.object l ∈ M.values → s.viewAt fuel path l = t.viewAt fuel path l := by
  induction fuel with
  | zero =>
    intro path l _
    rfl
  | succ fuel ih =>
    intro path l hl
    rw [Store.viewAt, Store.viewAt, h.value hl]
    split
    · rfl
    · next o ho =>
      split
      · rfl
      · have hrefs : ∀ m ∈ o.refs, s.viewAt fuel (l :: path) m = t.viewAt fuel (l :: path) m := fun m hm =>
          ih _ m (h.object hl ho _ ((Object.object_mem_places o).mpr hm))
        have hview := Object.view_move (r := ⟨id, id⟩) (fun _ => rfl) hrefs
        rwa [Object.move_id] at hview

theorem view_eq (h : M.Holds s t) (hv : v.Within M.values) : s.view v = t.view v := by
  have hsize : s.objects.size = t.objects.size := h.size
  have hview := Value.view_move (r := ⟨id, id⟩) (fun _ => rfl) v fun l hl =>
    h.viewAt_eq (t.objects.size + 1) [] l (hv.refers l hl)
  rw [Store.view, Store.view, hsize]
  rwa [Value.move_id] at hview

theorem viewAll_eq (h : M.Holds s t) (hxs : ∀ x ∈ xs, x.Within M.values) : s.viewAll xs = t.viewAll xs :=
  List.map_congr_left fun x hx => h.view_eq (hxs x hx)

/-! ## Comparison -/

variable {f g : Value → Value → Option Bool}

theorem alike?_eq (hfg : Same M f g) : Same M (Store.alike? f) (Store.alike? g) := by
  intro v w hv hw
  rw [Store.alike?, Store.alike?, hfg v w hv hw]

theorem allAlike?_eq (hfg : Same M f g) : ∀ {vs ws : List Value}, (∀ v ∈ vs, v.Within M.values) →
    (∀ w ∈ ws, w.Within M.values) → Store.allAlike? f vs ws = Store.allAlike? g vs ws := by
  intro vs
  induction vs with
  | nil =>
    intro ws _ _
    cases ws <;> rfl
  | cons v vs ih =>
    intro ws hvs hws
    cases ws with
    | nil => rfl
    | cons w ws =>
      have hhead := alike?_eq hfg v w (hvs v (by simp)) (hws w (by simp))
      have htail := ih (fun x hx => hvs x (List.mem_cons_of_mem _ hx))
        fun x hx => hws x (List.mem_cons_of_mem _ hx)
      rw [Store.allAlike?, Store.allAlike?, hhead, htail]

theorem lookup_eq (h : M.Holds s t) (key : Data) {es : List (Value × Value)}
    (hes : ∀ e ∈ es, e.1.Within M.values ∧ e.2.Within M.values) : s.lookup es key = t.lookup es key := by
  induction es with
  | nil => rfl
  | cons e es ih =>
    have htail := ih fun e' he' => hes e' (by simp [he'])
    have hview := h.view_eq (hes e (by simp)).1
    rw [Store.lookup, Store.lookup] at htail
    rw [Store.lookup, Store.lookup, List.find?_cons, List.find?_cons, hview]
    split
    · rfl
    · exact htail

theorem entriesAlike?_eq (h : M.Holds s t) (hfg : Same M f g) {es : List (Value × Value)}
    (hes : ∀ e ∈ es, e.1.Within M.values ∧ e.2.Within M.values) : ∀ {fs : List (Value × Value)},
      (∀ e ∈ fs, e.1.Within M.values ∧ e.2.Within M.values) →
        s.entriesAlike? f es fs = t.entriesAlike? g es fs := by
  intro fs
  induction fs with
  | nil =>
    intro _
    rfl
  | cons e fs ih =>
    intro hfs
    obtain ⟨k, v⟩ := e
    obtain ⟨hk, hv⟩ := hfs (k, v) (by simp)
    have htail := ih fun e' he' => hfs e' (by simp [he'])
    rw [Store.entriesAlike?, Store.entriesAlike?, h.view_eq hk, h.lookup_eq _ hes]
    cases hw : t.lookup es (t.view k) with
    | none => rfl
    | some w => simp only [alike?_eq hfg v w hv (Accessor.lookup_within hes hw), htail]

theorem equalWithin?_eq (h : M.Holds s t) (levels : Nat) :
    Same M (s.equalWithin? levels) (t.equalWithin? levels) := by
  induction levels with
  | zero =>
    intro v w _ _
    rfl
  | succ levels ih =>
    intro v w hv hw
    have hviews := h.view_eq hv
    have hviews' := h.view_eq hw
    cases v with
    | tuple c vs =>
      cases w with
      | tuple d ws =>
        simp only [Store.equalWithin?]
        exact allAlike?_eq ih (Value.within_tuple.mp hv) (Value.within_tuple.mp hw)
      | _ => rfl
    | set vs =>
      cases w with
      | set ws => simp only [Store.equalWithin?, hviews, hviews']
      | _ => rfl
    | frozen c vs =>
      cases w with
      | frozen d ws =>
        simp only [Store.equalWithin?]
        rw [allAlike?_eq ih (Value.within_frozen.mp hv).2 (Value.within_frozen.mp hw).2]
      | _ => rfl
    | ref l =>
      cases w with
      | ref m =>
        have hl := Value.within_ref.mp hv
        have hm := Value.within_ref.mp hw
        simp only [Store.equalWithin?, h.value hl, h.value hm]
        split
        · next vs ws ho hp =>
          rw [allAlike?_eq ih (Object.within_list.mp (h.object hl ho)) (Object.within_list.mp (h.object hm hp))]
        · next es fs ho hp =>
          rw [h.entriesAlike?_eq ih (Object.within_mapping.mp (h.object hm hp))
            (Object.within_mapping.mp (h.object hl ho))]
        · next c vs _ d ws _ ho hp =>
          rw [allAlike?_eq ih (Object.within_record.mp (h.object hl ho)).2.1
            (Object.within_record.mp (h.object hm hp)).2.1]
        · rfl
      | _ => rfl
    | atom a => cases w <;> rfl

theorem equal?_eq (h : M.Holds s t) : Same M s.equal? t.equal? := h.equalWithin?_eq Store.deepest

theorem isIn?_eq (h : M.Holds s t) (hv : v.Within M.values) (hxs : ∀ x ∈ xs, x.Within M.values) :
    s.isIn? v xs = t.isIn? v xs := by
  induction xs with
  | nil => rfl
  | cons x xs ih =>
    have htail := ih fun y hy => hxs y (by simp [hy])
    rw [Store.isIn?, Store.isIn?, alike?_eq h.equal?_eq x v (hxs x (by simp)) hv, htail]

/-! ## Parts -/

theorem elements?_eq (h : M.Holds s t) (hv : v.Within M.values) : s.elements? v = t.elements? v := by
  cases v with
  | ref l => simp only [Store.elements?, h.value (Value.within_ref.mp hv)]
  | atom a => cases a <;> rfl
  | _ => rfl

theorem firstElements?_eq (h : M.Holds s t) (hv : v.Within M.values) (n : Nat) :
    s.firstElements? v n = t.firstElements? v n := by
  cases v with
  | ref l => simp only [Store.firstElements?, h.value (Value.within_ref.mp hv)]
  | atom a => cases a <;> rfl
  | _ => rfl

theorem getAttribute_eq (h : M.Holds s t) (hv : v.Within M.values) (name : String) :
    Accessor.getAttribute s v name = Accessor.getAttribute t v name := by
  cases v with
  | ref l =>
    have hl := Value.within_ref.mp hv
    simp only [Accessor.getAttribute, h.value hl]
    split
    · next es hget => rw [h.lookup_eq _ (Object.within_mapping.mp (h.object hl hget))]
    · rfl
    · rfl
  | atom a => simp only [Accessor.getAttribute, Accessor.atomAttribute?, Store.given?, h.given]
  | tuple cls xs => cases cls <;> rfl
  | _ => rfl

theorem getItem_eq (h : M.Holds s t) {key : Value} (hv : v.Within M.values) (hkey : key.Within M.values) :
    Accessor.getItem s v key = Accessor.getItem t v key := by
  have hunder (o : Option Value) : Accessor.foundUnder s key o = Accessor.foundUnder t key o := by
    simp only [Accessor.foundUnder, h.view_eq hkey]
  cases v with
  | ref l =>
    have hl := Value.within_ref.mp hv
    simp only [Accessor.getItem, h.value hl]
    split
    · rfl
    · next es hget => rw [hunder, h.view_eq hkey, h.lookup_eq _ (Object.within_mapping.mp (h.object hl hget))]
    · rfl
  | atom a =>
    cases a with
    | enumeration cls => exact hunder _
    | _ => rfl
  | _ => rfl

theorem insertEntry_eq (h : M.Holds s t) {k : Value} (hk : k.Within M.values) {es : List (Value × Value)}
    (hes : ∀ e ∈ es, e.1.Within M.values ∧ e.2.Within M.values) :
    s.insertEntry k x es = t.insertEntry k x es := by
  induction es with
  | nil => rfl
  | cons e es ih =>
    obtain ⟨k', x'⟩ := e
    have htail := ih fun e' he' => hes e' (by simp [he'])
    have hk' := h.view_eq (hes (k', x') (by simp)).1
    rw [Store.insertEntry, Store.insertEntry, hk', h.view_eq hk, htail]

theorem distinctValues_eq (h : M.Holds s t) (hxs : ∀ x ∈ xs, x.Within M.values) :
    s.distinctValues xs = t.distinctValues xs := by
  -- what has been kept so far is the induction's business, so it is generalized
  have hkept : ∀ (ys kept : List Value), (∀ y ∈ ys, y.Within M.values) → (∀ y ∈ kept, y.Within M.values) →
      ys.foldl (fun kept v => if (s.view v).isIn (s.viewAll kept) then kept else kept ++ [v]) kept =
        ys.foldl (fun kept v => if (t.view v).isIn (t.viewAll kept) then kept else kept ++ [v]) kept := by
    intro ys
    induction ys with
    | nil =>
      intro kept _ _
      rfl
    | cons y ys ih =>
      intro kept hys hkept
      have hy := hys y (by simp)
      rw [List.foldl_cons, List.foldl_cons, h.view_eq hy, h.viewAll_eq hkept]
      refine ih _ (fun z hz => hys z (by simp [hz])) fun z hz => ?_
      split at hz
      · exact hkept z hz
      · rcases List.mem_append.mp hz with hz | hz
        · exact hkept z hz
        · exact List.mem_singleton.mp hz ▸ hy
  exact hkept xs [] hxs (List.forall_mem_nil _)

theorem pairItems_eq (h : M.Holds s t) (hxs : ∀ x ∈ xs, x.Within M.values) : s.pairItems xs = t.pairItems xs := by
  have hgo : ∀ (ys : List Value) (i : Nat) (es : List (Value × Value)), (∀ y ∈ ys, y.Within M.values) →
      (∀ e ∈ es, e.1.Within M.values ∧ e.2.Within M.values) →
        Store.pairItems.go s i es ys = Store.pairItems.go t i es ys := by
    intro ys
    induction ys with
    | nil =>
      intro i es _ _
      rfl
    | cons y ys ih =>
      intro i es hys hes
      have hy := hys y (by simp)
      rw [Store.pairItems.go, Store.pairItems.go, h.elements?_eq hy]
      split
      · rfl
      · next k x hpair =>
        have hparts := Store.elements?_within h.closed hy hpair
        have hk := hparts k (by simp)
        rw [h.view_eq hk, h.insertEntry_eq hk hes]
        split
        · rfl
        · exact ih _ _ (fun z hz => hys z (by simp [hz])) (Store.insertEntry_within hk (hparts x (by simp)) hes)
      · rfl
  exact hgo xs 0 [] hxs (List.forall_mem_nil _)

theorem collectItems_eq (h : M.Holds s t) (hxs : ∀ x ∈ xs, x.Within M.values) :
    s.collectItems xs = t.collectItems xs := by
  have hkept : ∀ x ∈ t.distinctValues xs, s.view x = t.view x := fun x hx =>
    h.view_eq (hxs x (Store.mem_distinctValues hx))
  have hmap : (t.distinctValues xs).map s.view = (t.distinctValues xs).map t.view :=
    List.map_congr_left hkept
  have hsort : Data.sortedBy? s.view (t.distinctValues xs) = Data.sortedBy? t.view (t.distinctValues xs) := by
    have hless := List.map_mergeSort (f := id) (l := t.distinctValues xs)
      (r := fun x y => !(Data.less? (s.view y) (s.view x)).getD false)
      (s := fun x y => !(Data.less? (t.view y) (t.view x)).getD false)
      fun x hx y hy => by rw [hkept x hx, hkept y hy]; rfl
    rw [List.map_id, List.map_id] at hless
    rw [Data.sortedBy?, Data.sortedBy?, hmap, hless]
  simp only [Store.collectItems, h.viewAll_eq hxs, h.distinctValues_eq hxs, hsort]

end Holds

end Mirroring

end Conform
