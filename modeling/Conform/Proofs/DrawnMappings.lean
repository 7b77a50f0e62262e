import Conform.Proofs.Guarded
import Conform.Proofs.Immutable
import Conform.Proofs.Sampling
import Conform.Proofs.Shaping

/-!
# Drawing mappings

A mapping is drawn entry by entry, and made last. So nothing in the store refers to it yet, its entries are like those
of the template and refer to what has been added before it (`Draw.Drawn`), and it may be guarded
(`Draw.Drawn.guarded`). Templates that are immutable have immutable values of their shape
(`Store.Shaped.immutable`).
-/

namespace Conform

open Act

/-! ## Immutable templates -/

/-- What has the shape of immutable data is immutable data. -/
theorem Store.Shaped.immutable {s : Store} {x y : Value} (h : s.Shaped x y) : x.Immutable → y.Immutable := by
  induction h with
  | null | bool | int | text | bytes | member => exact fun _ => nofun
  | float ha hb =>
    rintro - m rfl
    cases hb
  | tuple hlength _ ih =>
    intro hx
    refine Value.immutableAll_iff.mpr fun y hy => ?_
    have hall := List.forall₂_iff_zip.mpr ⟨hlength, fun {a b} hab => And.intro (List.of_mem_zip hab).1 (ih a b hab)⟩
    obtain ⟨x, hxs, -, himmutable⟩ := exists_of_forall₂_right hall y hy
    exact himmutable (Value.immutableAll_iff.mp hx x hxs)
  | @frozen cls xs ys hlength hset hreset ih =>
    rintro ⟨hcls, hx⟩
    refine ⟨hcls, Value.immutableAll_iff.mpr fun y hy => ?_⟩
    have hall := List.forall₂_iff_zip.mpr ⟨hlength, fun {p b} hpb =>
      show (p.1.settable = true → p.2.Immutable → b.Immutable) ∧ (p.1.settable = false → b = .atom p.1.initial) from
        ⟨ih p b hpb, hreset p b hpb⟩⟩
    obtain ⟨p, hp, hsettable, hdefault⟩ := exists_of_forall₂_right hall y hy
    cases hs : p.1.settable with
    | true => exact hsettable hs (Value.immutableAll_iff.mp hx p.2 (List.of_mem_zip hp).2)
    | false =>
      rw [hdefault hs]
      exact hcls.2 p.1 (List.of_mem_zip hp).1
  | list | mapping | record => exact fun hx => hx.elim

namespace Draw

variable {s t : Store} {es fs : List (Value × Value)} {l : Loc} {X : Set Loc}

/-! ## The mapping that is drawn -/

/-- Whether a mapping has been drawn that is like others in its entries: objects have been added to a store, it is the
last of them, and none of them refers to it. -/
structure Drawn (s : Store) (es : List (Value × Value)) (t : Store) (l : Loc) (fs : List (Value × Value)) : Prop where
  supplemented : s.Supplemented t
  whole : t.Whole
  new : s.size ≤ l
  get : t.get? l = some (.mapping fs)
  entries : List.Forall₂ (NewEntry s t) es fs
  keys : ∀ e ∈ es, e.1.refs = []
  unnamed : ∀ m o, t.get? m = some o → o.bound ≤ l

/-- Drawing an arbitrary value for a mapping is drawing one for each of its values, and making a new mapping. -/
theorem exec_arbitrary_mapping {w u : World} {like : Loc} {x : Value} (hvaries : w.source.isFixed = false)
    (hes : w.store.get? like = some (.mapping es)) (hrun : exec (arbitrary (.ref like)) w = (.ok x, u)) :
    ∃ fs b, exec (es.mapM fun e => do return (e.1, ← likeWithin 489 e.2)) w = (.ok fs, b) ∧
      x = .ref b.store.size ∧ u = { b with store := (b.store.alloc (.mapping fs)).2 } := by
  obtain ⟨w₀, w₁, hget, hrun⟩ := exec_bind_ok hrun
  cases hget
  rw [hvaries, if_neg Bool.false_ne_true, deepest, likeWithin, exec_bind, exec_ask, hes] at hrun
  obtain ⟨fs, b, hentries, hrun⟩ := exec_bind_ok (show exec (do
    let entries ← es.mapM fun e => return (e.1, ← likeWithin 489 e.2)
    return .ref (← Act.alloc (.mapping entries))) w = (.ok x, u) from hrun)
  cases hrun
  exact ⟨fs, b, hentries, rfl, rfl⟩

/-- The values that are drawn refer to added objects only, and to none that is made after them. -/
theorem Drawn.value (h : Drawn s es t l fs) {e : Value × Value} (he : e ∈ fs) :
    e.1.refs = [] ∧ ∀ m ∈ e.2.refs, s.size ≤ m ∧ m < l := by
  obtain ⟨e', he', hkey, hadded, -⟩ := exists_of_forall₂_right h.entries e he
  refine ⟨hkey ▸ h.keys e' he', fun m hm => ⟨hadded m hm, ?_⟩⟩
  have hmem : e.2 ∈ (Object.mapping fs).values := List.mem_flatMap.mpr ⟨e, he, by simp⟩
  exact Value.bound_le.mp (Nat.le_trans (Value.bound_le_boundAll hmem) (h.unnamed l _ h.get)) m hm

/-- A template has a mapping drawn for it that stands by itself, if anything is drawn. -/
theorem drawn_mapping {w u : World} {like : Loc} {x : Value} {deep : Prop} (hvaries : w.source.isFixed = false)
    (hw : w.store.Whole) (hes : w.store.get? like = some (.mapping es))
    (hlike : w.store.Generable deep deepest (.ref like)) (hrun : exec (arbitrary (.ref like)) w = (.ok x, u)) :
    u.source.isFixed = false ∧ ∃ l fs, x = .ref l ∧ Drawn w.store es u.store l fs := by
  obtain ⟨fs, b, hentries, rfl, rfl⟩ := exec_arbitrary_mapping hvaries hes hrun
  obtain ⟨o, ho, hgenerable⟩ := hlike
  rw [hes] at ho
  cases ho
  have hprovides : Act.Provides w.store deep (es.mapM fun e => do return (e.1, ← likeWithin 489 e.2))
      (fun t fs => List.Forall₂ (NewEntry w.store t) es fs) w :=
    provides_likeEntries (fun y hy v hv => provides_likeWithin hy hv) (fun e he => (hgenerable e he).2)
      ⟨.refl _, hvaries⟩
  have hbound : ∀ e ∈ es, e.1.bound ≤ w.store.size ∧ e.2.bound ≤ w.store.size := fun e he => by
    have hall := Value.boundAll_le.mp (hw.object hes)
    exact ⟨hall e.1 (List.mem_flatMap.mpr ⟨e, he, by simp⟩), hall e.2 (List.mem_flatMap.mpr ⟨e, he, by simp⟩)⟩
  have hsounds : Sound w.store.size (es.mapM fun e => do return (e.1, ← likeWithin 489 e.2)) fun m fs =>
      ∀ e ∈ fs, e.1.bound ≤ m ∧ e.2.bound ≤ m :=
    sound_likeEntries (fun e he m hm => sound_likeWithin 489 e.2 m (Nat.le_trans (hbound e he).2 hm)) fun e he =>
      (hbound e he).1
  obtain ⟨⟨hsize, hwhole⟩, hsound⟩ := hsounds w hw (Nat.le_refl _)
  obtain ⟨⟨hadded, hstill⟩, -, houtcome⟩ := hprovides
  rw [hentries] at hsize hwhole hsound hadded hstill houtcome
  rcases houtcome with ⟨fs', hfs, hnew⟩ | ⟨-, hfault⟩
  · cases hfs
    have hvalues : ∀ x ∈ (Object.mapping fs).values, w.store.Added x ∧ x.bound ≤ b.store.size := by
      intro x hx
      obtain ⟨e, he, hx⟩ := List.mem_flatMap.mp hx
      obtain ⟨e', he', hkey, hadded, -⟩ := exists_of_forall₂_right hnew e he
      simp only [List.mem_cons, List.not_mem_nil, or_false] at hx
      rcases hx with rfl | rfl
      · refine ⟨fun m hm => ?_, (hsound fs rfl e he).1⟩
        rw [← hkey, (hgenerable e' he').1] at hm
        cases hm
      · exact ⟨hadded, (hsound fs rfl e he).2⟩
    have hlast : (Object.mapping fs).bound ≤ b.store.size := Value.boundAll_le.mpr fun x hx => (hvalues x hx).2
    refine ⟨hstill, b.store.size, fs, rfl, hadded.alloc fun x hx => (hvalues x hx).1, hwhole.alloc hlast, hadded.size,
      Store.get?_alloc_new, hnew.imp fun _ _ h => ⟨h.1, h.2.grow (.alloc _ _)⟩, fun e he => (hgenerable e he).1,
      fun m o ho => ?_⟩
    rw [Store.get?_alloc] at ho
    split at ho
    · cases ho
      exact hlast
    · exact hwhole.object ho
  · cases hfault

/-! ## Where it lies -/

/-- Nothing leads out of what has been added, if what has been given to classes leads nowhere. -/
theorem Drawn.region (h : Drawn s es t l fs) (hgiven : ∀ g ∈ s.given, g.2.2.refs = []) :
    t.Region (between s.size t.size) := by
  refine ⟨fun p hp q hq m heq => ?_, fun m hm => (hm m rfl).2⟩
  have hlt : m < t.size := by
    refine h.whole.closed p ?_ q hq m heq
    exact fun k hk => (hp k hk).2
  refine ⟨?_, hlt⟩
  subst heq
  cases p with
  | object k =>
    obtain ⟨o, ho, hq⟩ := hq
    obtain ⟨x, hx, hmem⟩ := Object.exists_value_of_mem_places hq
    exact h.supplemented.added k o (hp k rfl).1 ho x hx m ((Value.object_mem_places x).mp hmem)
  | attributes o =>
    obtain ⟨a, name, v, -, hmem, hq⟩ := hq
    rw [h.supplemented.given] at hmem
    have hrefs := (Value.object_mem_places v).mp hq
    rw [hgiven _ hmem] at hrefs
    cases hrefs

/-- The mapping may be guarded. -/
theorem Drawn.guarded (h : Drawn s es t l fs) (hg : s.Guarded X) : t.Guarded (X ∪ {l}) := by
  refine ⟨h.whole, ?_, fun p hp q hq => ?_⟩
  · rintro m (hm | rfl)
    · exact Nat.lt_of_lt_of_le (hg.bounded m hm) h.supplemented.size
    · exact Store.lt_size_of_get? h.get
  rintro m rfl hm
  cases p with
  | object k =>
    obtain ⟨o, ho, hq⟩ := hq
    have hk : k ∉ X := fun hk => object_mem_beyond.mp hp (.inl hk)
    obtain ⟨x, hx, hmem⟩ := Object.exists_value_of_mem_places hq
    have hrefs := (Value.object_mem_places x).mp hmem
    rcases hm with hm | rfl
    · by_cases hlt : k < s.size
      · -- what was there does not refer to what was guarded
        rw [h.supplemented.get k hlt] at ho
        exact object_mem_beyond.mp (hg.closed _ (object_mem_beyond.mpr hk) _ ⟨o, ho, hq⟩) hm
      · have hle := h.supplemented.added k o (Nat.not_lt.mp hlt) ho x hx m hrefs
        exact Nat.not_lt.mpr hle (hg.bounded m hm)
    · have hbound := Nat.le_trans (Value.bound_le_boundAll hx) (h.unnamed k o ho)
      exact Nat.lt_irrefl m (Value.bound_le.mp hbound m hrefs)
  | attributes o =>
    obtain ⟨a, name, v, ha, hmem, hq⟩ := hq
    rw [h.supplemented.given] at hmem
    have hnames : s.Names (.attributes o) (.object m) := ⟨a, name, v, ha, hmem, hq⟩
    rcases hm with hm | rfl
    · exact object_mem_beyond.mp (hg.closed _ attributes_mem_beyond _ hnames) hm
    · exact Nat.not_lt.mpr h.new (hg.whole.closed (.attributes o) nofun _ hnames m rfl)

/-- The values in it are clear of what is guarded. -/
theorem Drawn.clear (h : Drawn s es t l fs) (hg : s.Guarded X) {e : Value × Value} (he : e ∈ fs) :
    e.2.Clear (X ∪ {l}) t.size := by
  refine Value.clear_iff.mpr fun m hm => ?_
  obtain ⟨hle, hlt⟩ := (h.value he).2 m hm
  refine ⟨?_, Nat.lt_trans hlt (Store.lt_size_of_get? h.get)⟩
  rintro (hX | rfl)
  · exact Nat.not_lt.mpr hle (hg.bounded m hX)
  · exact Nat.lt_irrefl m hlt

end Draw

end Conform
