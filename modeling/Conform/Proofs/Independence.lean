import Conform.Proofs.Territory

/-!
# Independent parts

What one member of a conjunction makes of a value, another one may spoil. Lenses on items of a mapping do not get in
each other's way if no two of them lead to one key or one object (`Independent`): when one of the facts has been run
and its answer is stored, the other parts are found as before (`Independent.rest`), and what it has made stays when
they are changed in turn (`Independent.answer_kept`). So in the end every part holds the answer of its fact, and no
other key and no other object has changed (`Settled`).
-/

namespace Conform

open Act

namespace Part

/-- Whether what the fact makes of the part passes, wherever the part is found as at first. -/
def Sound (s : Store) (p : Part) : Prop :=
  ∀ w y u, p.Undisturbed s w.store → exec (p.fact.mutate p.value) w = (.ok y, u) → p.fact.Judges u y true

/-- Whether using the fact on the part gives no attributes to a class or an enumeration. -/
def Spares (s : Store) (o : Owner) (p : Part) : Prop :=
  ∀ w, p.Undisturbed s w.store → (exec (p.fact.mutate p.value) w).2.store.givenTo o = w.store.givenTo o

/-- Whether two parts have different keys and share nothing that one of them may change. -/
structure Beside (s : Store) (p q : Part) : Prop where
  unlike : ¬ (s.view p.key).alike (s.view q.key) = true
  unliked : ¬ (s.view q.key).alike (s.view p.key) = true
  apart : ∀ m, Place.object m ∈ p.ground → Place.object m ∉ q.scope
  besides : ∀ m, Place.object m ∈ q.ground → Place.object m ∉ p.scope
  spares : ∀ o, Place.attributes o ∈ q.ground → p.Spares s o
  spared : ∀ o, Place.attributes o ∈ p.ground → q.Spares s o

end Part

/-- Whether parts of a mapping have nothing to do with one another, nor with its keys, and their facts make values that
pass. -/
structure Independent (s : Store) (l : Loc) (es : List (Value × Value)) (ps : List Part) : Prop where
  whole : s.Whole
  mapping : s.get? l = some (.mapping es)
  lies : ∀ p ∈ ps, p.Lies s l
  sound : ∀ p ∈ ps, p.Sound s
  names : ∀ k ∈ es.map (·.1) ++ ps.map Part.key,
    k.bound ≤ s.size ∧ ∀ m ∈ s.reachable k.refs, m ≠ l ∧ ∀ p ∈ ps, Place.object m ∉ p.ground
  beside : ps.Pairwise (Part.Beside s)

/-- Whether a mapping has been changed under the keys of some parts only: all keys are as before and in their order,
other entries stay in their places, and other keys find what they have found. -/
structure Revised (s : Store) (ps : List Part) (es es' : List (Value × Value)) : Prop where
  keys : es'.map (·.1) = es.map (·.1)
  places : ∀ (i : Nat) (e : Value × Value), es[i]? = some e →
    (∀ p ∈ ps, ¬ (s.view e.1).alike (s.view p.key) = true) → es'[i]? = some e
  others : ∀ d : Data, d.unhashable? = none → (∀ p ∈ ps, ¬ (s.view p.key).alike d = true) →
    s.lookup es' d = s.lookup es d

/-- What is left of a mapping and of the rest of the store when the facts of some parts have been run: every part holds
the answer of its fact with the tree that it had at first, it passes, and nothing else has changed. -/
structure Settled (s : Store) (l : Loc) (es : List (Value × Value)) (ps : List Part) (as : List (Value × Data))
    (w : World) : Prop where
  whole : w.store.Whole
  size : s.size ≤ w.store.size
  parts : List.Forall₂ (fun p a => p.accessor.get w.store (.ref l) = .ok a.1 ∧ w.store.view a.1 = a.2 ∧
    p.fact.Judges w a.1 true) ps as
  entries : ∃ es', w.store.get? l = some (.mapping es') ∧ Revised s ps es es'
  frame : ∀ m < s.size, m ≠ l → (∀ p ∈ ps, Place.object m ∉ p.ground) → w.store.get? m = s.get? m
  given : ∀ o, (∀ p ∈ ps, p.Spares s o) → w.store.givenTo o = s.givenTo o

section

variable {s t : Store} {l : Loc} {es : List (Value × Value)} {p q : Part} {ps : List Part} {w u : World} {y : Value}
  {k : Value} {o : Owner}

theorem Part.Sound.keep (h : p.Sound s) (hun : p.Undisturbed s t) : p.Sound t :=
  fun w y u hw => h w y u (hun.trans hw)

theorem Part.Spares.keep (h : p.Spares s o) (hun : p.Undisturbed s t) : p.Spares t o :=
  fun w hw => h w (hun.trans hw)

theorem Part.Beside.keep (h : p.Beside s q) (hp : p.Undisturbed s t) (hq : q.Undisturbed s t)
    (hviewp : t.view p.key = s.view p.key) (hviewq : t.view q.key = s.view q.key) : p.Beside t q where
  unlike := by
    rw [hviewp, hviewq]
    exact h.unlike
  unliked := by
    rw [hviewp, hviewq]
    exact h.unliked
  apart := h.apart
  besides := h.besides
  spares := fun o ho => (h.spares o ho).keep hp
  spared := fun o ho => (h.spared o ho).keep hq

namespace Revised

variable {es' : List (Value × Value)} {x : Value}

theorem congr (h : Revised t ps es es') (hkeys : ∀ p ∈ ps, t.view p.key = s.view p.key)
    (hviews : ∀ e ∈ es, t.view e.1 = s.view e.1) : Revised s ps es es' where
  keys := h.keys
  places := fun i e he hne => h.places i e he fun p hp => by
    rw [hkeys p hp, hviews e (List.mem_of_getElem? he)]
    exact hne p hp
  others := by
    intro d hd hne
    have hviews' : ∀ e ∈ es', t.view e.1 = s.view e.1 := by
      intro e he
      have hkey : e.1 ∈ es.map (·.1) := h.keys ▸ List.mem_map_of_mem he
      obtain ⟨e', he', heq⟩ := List.mem_map.mp hkey
      rw [← heq]
      exact hviews e' he'
    rw [← Store.lookup_congr hviews', ← Store.lookup_congr hviews]
    refine h.others d hd fun p hp => ?_
    rw [hkeys p hp]
    exact hne p hp

/-- A change under one more key, made first. -/
theorem insert (h : Revised s ps (s.insertEntry p.key y es) es') (hhashable : (s.view p.key).unhashable? = none)
    (hfound : s.lookup es (s.view p.key) = some x) : Revised s (p :: ps) es es' where
  keys := h.keys.trans (Store.map_insertEntry hfound)
  places := fun i e he hne => h.places i e (Store.getElem?_insertEntry he (hne p List.mem_cons_self)) fun q hq =>
    hne q (List.mem_cons_of_mem p hq)
  others := fun d hd hne => (h.others d hd fun q hq => hne q (List.mem_cons_of_mem p hq)).trans
    (Store.lookup_insertEntry_unlike hhashable hd (hne p List.mem_cons_self))

end Revised

namespace Independent

/-- Keys are read as before while nothing but the mapping and the grounds of the parts changes. -/
theorem view_same (h : Independent s l es ps)
    (hframe : ∀ m < s.size, m ≠ l → (∀ p ∈ ps, Place.object m ∉ p.ground) → t.get? m = s.get? m)
    (hk : k ∈ es.map (·.1) ++ ps.map Part.key) : t.view k = s.view k := by
  obtain ⟨hbound, hclear⟩ := h.names k hk
  refine Store.view_of_same h.whole hbound fun m hm => ?_
  exact hframe m (Store.lt_of_mem_reachable hm) (hclear m hm).1 (hclear m hm).2

theorem key_mem (hp : p ∈ ps) : p.key ∈ es.map (·.1) ++ ps.map Part.key :=
  List.mem_append_right _ (List.mem_map_of_mem hp)

theorem entry_mem {e : Value × Value} (he : e ∈ es) : e.1 ∈ es.map (·.1) ++ ps.map Part.key :=
  List.mem_append_left _ (List.mem_map_of_mem he)

end Independent

/-- What is left when the fact of one part has been run and has made `y`, in a store `u`, and this has been stored. -/
structure Part.Stored (s : Store) (l : Loc) (es : List (Value × Value)) (p : Part) (y : Value) (u t : Store) :
    Prop where
  whole : t.Whole
  size : s.size ≤ t.size
  set : p.accessor.set u (.ref l) y = .ok (.ref l, t)
  mapping : t.get? l = some (.mapping (s.insertEntry p.key y es))
  grown : t.size = u.size
  attributes : t.given = u.given
  other : ∀ m, m ≠ l → t.get? m = u.get? m
  frame : ∀ m < s.size, m ≠ l → Place.object m ∉ p.ground → t.get? m = s.get? m
  given : ∀ o, p.Spares s o → t.givenTo o = s.givenTo o

/-- What a fact makes of its part can be stored, and nothing but the part changes. -/
theorem Independent.stored (h : Independent w.store l es (p :: ps))
    (hrun : exec (p.fact.mutate p.value) w = (.ok y, u)) :
    ∃ t, p.Stored w.store l es y u.store t := by
  have hlies := h.lies p List.mem_cons_self
  obtain ⟨hwhole, hsize, hframe, hanswer⟩ := hlies.run h.whole hrun
  have hl := Store.lt_size_of_get? h.mapping
  have hmapping : u.store.get? l = some (.mapping es) :=
    (hframe l hl fun hmem => hlies.root (.inl hmem)).trans h.mapping
  have hviews : ∀ k ∈ es.map (·.1) ++ (p :: ps).map Part.key, u.store.view k = w.store.view k := fun k hk =>
    h.view_same (fun m hm _ hnot => hframe m hm (hnot p List.mem_cons_self)) hk
  have hkey := hviews p.key (key_mem List.mem_cons_self)
  -- the keys are read as before the run, so the answer goes where the part was found
  have hinsert : u.store.insertEntry p.key y es = w.store.insertEntry p.key y es :=
    Store.insertEntry_congr hkey fun e he => hviews e.1 (entry_mem he)
  obtain ⟨hhashable, -⟩ := (Store.get_item_iff h.mapping).mp hlies.found
  refine ⟨u.store.put l (.mapping (w.store.insertEntry p.key y es)), hwhole.put ?_, by simpa using hsize, ?_, ?_,
    Store.size_put, rfl, ?_, ?_, ?_⟩
  · have hbound := (h.names p.key (key_mem List.mem_cons_self)).1
    refine Object.within_upTo.mp (Object.within_mapping.mpr (Store.insertEntry_within ?_ ?_ ?_))
    · exact Value.within_upTo.mpr (Nat.le_trans hbound hsize)
    · exact (hanswer y rfl).2.mono fun _ hq => hq.2
    · exact Object.within_mapping.mp (Object.within_upTo.mpr (hwhole.object hmapping))
  · rw [← hinsert]
    exact Store.set_item hmapping (hkey ▸ hhashable)
  · exact Store.get?_put_same (Nat.lt_of_lt_of_le hl hsize)
  · exact fun m hm => Store.get?_put_of_ne hm.symm
  · intro m hm hne hnot
    rw [Store.get?_put_of_ne hne.symm]
    exact hframe m hm hnot
  · intro o ho
    have hspared := ho w ⟨h.whole, Nat.le_refl _, .refl⟩
    rw [hrun] at hspared
    exact hspared

/-- The other parts are found as before. -/
theorem Independent.undisturbed (h : Independent s l es (p :: ps)) (hst : p.Stored s l es y u.store t) (hq : q ∈ ps) :
    q.Undisturbed s t := by
  have hbeside := (List.pairwise_cons.mp h.beside).1 q hq
  have hlies := h.lies q (List.mem_cons_of_mem p hq)
  refine ⟨hst.whole, hst.size, fun m hm => ?_, fun o ho => ?_⟩
  · refine hst.frame m (hlies.scope_lt hm) ?_ fun hmem => hbeside.apart m hmem hm
    rintro rfl
    exact hlies.root hm
  · rcases ho with ho | ⟨n, -, heq⟩
    · exact hst.given o (hbeside.spares o ho)
    · cases heq

/-- The other parts are as independent of one another as before. -/
theorem Independent.rest (h : Independent s l es (p :: ps)) (hst : p.Stored s l es y u.store t) :
    Independent t l (s.insertEntry p.key y es) ps := by
  have hhead := List.pairwise_cons.mp h.beside
  have hlies := h.lies p List.mem_cons_self
  obtain ⟨hhashable, hfound⟩ := (Store.get_item_iff h.mapping).mp hlies.found
  have hkeys := Store.map_insertEntry (y := y) hfound
  have hframe : ∀ m < s.size, m ≠ l → (∀ q ∈ p :: ps, Place.object m ∉ q.ground) → t.get? m = s.get? m :=
    fun m hm hne hnot => hst.frame m hm hne (hnot p List.mem_cons_self)
  have hviews : ∀ k ∈ es.map (·.1) ++ (p :: ps).map Part.key, t.view k = s.view k := fun k hk =>
    h.view_same hframe hk
  have hlookup : ∀ d, t.lookup (s.insertEntry p.key y es) d = s.lookup (s.insertEntry p.key y es) d :=
    Store.lookup_congr fun e he => hviews e.1 (List.mem_append_left _ (hkeys ▸ List.mem_map_of_mem he))
  have hun : ∀ q ∈ ps, q.Undisturbed s t := fun q hq => h.undisturbed hst hq
  refine ⟨hst.whole, hst.mapping, fun q hq => ?_, fun q hq => ?_, fun k hk => ?_, ?_⟩
  · have hq' := h.lies q (List.mem_cons_of_mem p hq)
    refine hq'.keep (hun q hq) ((Store.get_item_iff hst.mapping).mpr ?_)
    obtain ⟨hhashable', hfound'⟩ := (Store.get_item_iff h.mapping).mp hq'.found
    rw [hviews q.key (key_mem (List.mem_cons_of_mem p hq))]
    exact ⟨hhashable', (hlookup _).trans ((Store.lookup_insertEntry_unlike hhashable hhashable'
      (hhead.1 q hq).unlike).trans hfound')⟩
  · exact (h.sound q (List.mem_cons_of_mem p hq)).keep (hun q hq)
  · rw [hkeys] at hk
    obtain ⟨hbound, hclear⟩ := h.names k (by
      rcases List.mem_append.mp hk with hk | hk
      · exact List.mem_append_left _ hk
      · exact List.mem_append_right _ (List.mem_cons_of_mem _ hk))
    refine ⟨Nat.le_trans hbound hst.size, fun m hm => ?_⟩
    -- what a key leads to now, it led to before, since none of these objects has changed
    have hm' := h.whole.reachable_of_same (Value.bound_le.mp hbound)
      (fun m hm => hframe m (Store.lt_of_mem_reachable hm) (hclear m hm).1 (hclear m hm).2) m hm
    exact ⟨(hclear m hm').1, fun q hq => (hclear m hm').2 q (List.mem_cons_of_mem p hq)⟩
  · refine hhead.2.imp_of_mem fun {q r} hq hr hqr => hqr.keep (hun q hq) (hun r hr) ?_ ?_
    · exact hviews q.key (key_mem (List.mem_cons_of_mem p hq))
    · exact hviews r.key (key_mem (List.mem_cons_of_mem p hr))

variable {v : World} {as : List (Value × Data)}

/-- What a fact has made of its part is not touched when the others are run. -/
theorem Independent.answer_kept (h : Independent w.store l es (p :: ps))
    (hrun : exec (p.fact.mutate p.value) w = (.ok y, u)) (hst : p.Stored w.store l es y u.store t)
    (hrest : Settled t l (w.store.insertEntry p.key y es) ps as v) :
    v.store.view y = u.store.view y ∧ p.fact.Judges v y true := by
  have hlies := h.lies p List.mem_cons_self
  have hbeside := (List.pairwise_cons.mp h.beside).1
  have hl := Store.lt_size_of_get? h.mapping
  obtain ⟨hwhole, hsize, hframe, hanswer⟩ := hlies.run h.whole hrun
  obtain ⟨hregion, hy⟩ := hanswer y rfl
  have hobject : ∀ m < u.store.size, m ≠ l → (∀ q ∈ ps, Place.object m ∉ q.ground) →
      v.store.get? m = u.store.get? m := fun m hm hne hnot =>
    (hrest.frame m (hst.grown.symm ▸ hm) hne hnot).trans (hst.other m hne)
  -- the answer lies on the ground of the part and on new objects, and the others have neither on their grounds
  have hsame : u.store.Unchanged (Fact.Apart.spread w.store p.ground u.store) v.store := by
    refine ⟨fun m hm => hobject m (hregion.bounded m hm) ?_ fun q hq hmem => ?_, fun o ho => ?_⟩
    · rintro rfl
      exact Fact.Apart.not_mem_spread hl (fun hmem => hlies.root (.inl hmem)) hm
    · rcases hm.1 with hm | ⟨m', heq, hle⟩
      · exact hbeside q hq |>.apart m hm (.inl hmem)
      · cases heq
        exact Nat.not_lt.mpr hle ((h.lies q (List.mem_cons_of_mem p hq)).region.bounded m hmem)
    · rcases ho.1 with ho | ⟨m', heq, -⟩
      · refine (hrest.given o fun q hq => ((hbeside q hq).spared o ho).keep (h.undisturbed hst hq)).trans ?_
        rw [Store.givenTo, Store.givenTo, hst.attributes]
      · cases heq
  have hcells : ∀ n ∈ p.fact.everyNode, v.store.get? n.cell = u.store.get? n.cell := by
    intro n hn
    have hscope := Part.cell_mem_scope hn
    refine hobject n.cell (Nat.lt_of_lt_of_le (hlies.cells n hn).1 hsize) ?_ fun q hq hmem => ?_
    · rintro heq
      exact hlies.root (heq ▸ hscope)
    · exact (hbeside q hq).besides n.cell hmem hscope
  have hfixed : ∀ n ∈ p.fact.everyNode, n.kind? = some .reference → ∀ x ∈ u.store.slots n.cell, x.refs = [] := by
    intro n hn
    rw [Store.slots, hframe n.cell (hlies.cells n hn).1 (hlies.cells n hn).2]
    exact hlies.fixed n hn
  have himage := hsame.image hregion hwhole.owned hrest.whole.owned
  have hview := himage.view_eq hy.refers
  rw [Value.move_id] at hview
  have hpasses := h.sound p List.mem_cons_self w y u ⟨h.whole, Nat.le_refl _, .refl⟩ hrun
  exact ⟨hview, hpasses.of_unchanged (hlies.fact.twinned hlies.stateless) hregion hy hwhole.owned
    hrest.whole.owned hsame hcells hfixed⟩

theorem Independent.settled_nil (h : Independent w.store l es []) : Settled w.store l es [] [] w where
  whole := h.whole
  size := Nat.le_refl _
  parts := .nil
  entries := ⟨es, h.mapping, rfl, fun _ _ he _ => he, fun _ _ _ => rfl⟩
  frame := fun _ _ _ _ => rfl
  given := fun _ _ => rfl

/-- When the other facts have been run as well, all parts are settled. -/
theorem Independent.settle (h : Independent w.store l es (p :: ps))
    (hrun : exec (p.fact.mutate p.value) w = (.ok y, u)) (hst : p.Stored w.store l es y u.store t)
    (hrest : Settled t l (w.store.insertEntry p.key y es) ps as v) :
    Settled w.store l es (p :: ps) ((y, u.store.view y) :: as) v := by
  have hhead := List.pairwise_cons.mp h.beside
  obtain ⟨hhashable, hfound⟩ := (Store.get_item_iff h.mapping).mp (h.lies p List.mem_cons_self).found
  have hframe : ∀ m < w.store.size, m ≠ l → (∀ q ∈ p :: ps, Place.object m ∉ q.ground) →
      v.store.get? m = w.store.get? m := fun m hm hne hnot =>
    (hrest.frame m (Nat.lt_of_lt_of_le hm hst.size) hne fun q hq => hnot q (List.mem_cons_of_mem p hq)).trans
      (hst.frame m hm hne (hnot p List.mem_cons_self))
  have hviewt : ∀ k ∈ es.map (·.1) ++ (p :: ps).map Part.key, t.view k = w.store.view k := fun k hk =>
    h.view_same (fun m hm hne hnot => hst.frame m hm hne (hnot p List.mem_cons_self)) hk
  have hviewv : ∀ k ∈ es.map (·.1) ++ (p :: ps).map Part.key, v.store.view k = w.store.view k := fun k hk =>
    h.view_same hframe hk
  obtain ⟨es', hes', hrevised⟩ := hrest.entries
  replace hrevised := hrevised.congr (fun q hq => hviewt q.key (key_mem (List.mem_cons_of_mem p hq)))
    fun e he => hviewt e.1 (List.mem_append_left _ (Store.map_insertEntry hfound ▸ List.mem_map_of_mem he))
  have hall := hrevised.insert hhashable hfound
  obtain ⟨hview, hpasses⟩ := h.answer_kept hrun hst hrest
  refine ⟨hrest.whole, Nat.le_trans hst.size hrest.size, .cons ⟨?_, hview, hpasses⟩ hrest.parts,
    ⟨es', hes', hall⟩, hframe, fun o ho => ?_⟩
  -- the part is found where the answer was stored, since no key written later is like its own
  · refine (Store.get_item_iff hes').mpr ?_
    rw [hviewv p.key (key_mem List.mem_cons_self)]
    refine ⟨hhashable, ?_⟩
    calc v.store.lookup es' (w.store.view p.key)
        = w.store.lookup es' (w.store.view p.key) := Store.lookup_congr (fun e he =>
          hviewv e.1 (List.mem_append_left _ (hall.keys ▸ List.mem_map_of_mem he))) _
      _ = w.store.lookup (w.store.insertEntry p.key y es) (w.store.view p.key) :=
          hrevised.others _ hhashable fun q hq => (hhead.1 q hq).unliked
      _ = some y := Store.lookup_insertEntry_self hfound
  · refine (hrest.given o fun q hq => ?_).trans (hst.given o (ho p List.mem_cons_self))
    exact (ho q (List.mem_cons_of_mem p hq)).keep (h.undisturbed hst hq)

end

end Conform
