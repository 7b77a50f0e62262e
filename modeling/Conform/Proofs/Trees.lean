import Conform.Proofs.Independence
import Mathlib.Data.List.Pairwise

/-!
# Trees

A value is a tree if nothing is reached from it twice (`Store.Tree`). Parts of a mapping that is a tree are independent
of one another if their keys differ and their facts bring along no objects of their own (`Branches.independent`): the
objects on the ground of each are those that its value leads to.
-/

namespace Conform

namespace Store

/-- Whether an object is reached from both of two values. -/
def Shares (s : Store) (x y : Value) : Prop := ∃ m, s.Reaches x (.object m) ∧ s.Reaches y (.object m)

/-- Whether a value is a tree: of the values that an object holds, no two lead to one object, and none of them leads
back. -/
structure Tree (s : Store) (v : Value) : Prop where
  apart : ∀ m o, s.Reaches v (.object m) → s.get? m = some o → o.values.Pairwise fun x y => ¬ s.Shares x y
  acyclic : ∀ m o, s.Reaches v (.object m) → s.get? m = some o → ∀ x ∈ o.values, ¬ s.Reaches x (.object m)

/-- Whether two entries of a mapping lead to no object in common, unless from their keys. -/
structure Forks (s : Store) (e e' : Value × Value) : Prop where
  values : ¬ s.Shares e.2 e'.2
  key : ¬ s.Shares e.1 e'.2
  value : ¬ s.Shares e.2 e'.1

variable {s : Store} {l m : Loc} {o : Object} {es : List (Value × Value)} {e e' : Value × Value} {x y : Value}
  {d : Data} {q : Place}

theorem Shares.symm (h : s.Shares x y) : s.Shares y x := h.imp fun _ => And.symm

instance (s : Store) : Std.Symm s.Forks where
  symm _ _ h := ⟨fun k => h.values k.symm, fun k => h.value k.symm, fun k => h.key k.symm⟩

theorem reaches_ref : s.Reaches (.ref l) (.object l) := .named List.mem_cons_self

/-- What is reached from a value that an object holds is reached from the object. -/
theorem Reaches.of_held (h : s.Reaches x q) (ho : s.get? l = some o) (hx : x ∈ o.values) : s.Reaches (.ref l) q :=
  (closed_reaches s (.ref l)).of_reaches (((closed_reaches s (.ref l)).object reaches_ref ho).value hx) h

theorem not_reaches (hx : x.places = []) : ¬ s.Reaches x q := by
  intro h
  induction h with
  | named hp =>
    rw [hx] at hp
    cases hp
  | kept _ _ ih => exact ih

theorem not_shares (h : x.places = [] ∨ y.places = []) : ¬ s.Shares x y := by
  rintro ⟨m, hx, hy⟩
  rcases h with h | h
  · exact not_reaches h hx
  · exact not_reaches h hy

/-- What a value leads to leads nowhere else. -/
theorem region_reaches (hs : s.Whole) (hx : x.bound ≤ s.size) : s.Region {q | s.Reaches x q} where
  closed := closed_reaches s x
  bounded := fun m hm => hs.closed.of_reaches (Value.within_upTo.mpr hx) hm m rfl

theorem reaches_of_reachable (h : m ∈ s.reachable x.refs) : s.Reaches x (.object m) := by
  refine reachable_subset (R := fun m => s.Reaches x (.object m)) (fun m hm => ?_) (fun m o hm ho r hr => ?_) m h
  · exact .named ((Value.object_mem_places x).mpr hm)
  · exact .kept hm ⟨o, ho, List.mem_append_left _ ((Value.object_mem_placesAll _).mpr hr)⟩

/-! ## Entries -/

theorem lookup_mem (h : s.lookup es d = some x) : ∃ e ∈ es, e.2 = x ∧ (s.view e.1).alike d = true := by
  obtain ⟨e, he, rfl⟩ := Option.map_eq_some_iff.mp h
  have hlike := List.find?_some he
  exact ⟨e, List.mem_of_find?_eq_some he, rfl, hlike⟩

section

variable (htree : s.Tree (.ref l)) (hes : s.get? l = some (.mapping es))

include htree hes

/-- In a mapping that is a tree the entries fork, and no key leads to an object of its value. -/
theorem Tree.entries : es.Pairwise s.Forks ∧ ∀ e ∈ es, ¬ s.Shares e.1 e.2 := by
  obtain ⟨hown, hothers⟩ := List.pairwise_flatMap.mp (htree.apart l _ reaches_ref hes)
  refine ⟨hothers.imp fun h => ⟨h _ (by simp) _ (by simp), h _ (by simp) _ (by simp), h _ (by simp) _ (by simp)⟩,
    fun e he => (List.pairwise_cons.mp (hown e he)).1 _ (by simp)⟩

theorem Tree.forks (he : e ∈ es) (he' : e' ∈ es) (hne : e ≠ e') : s.Forks e e' :=
  (htree.entries hes).1.forall he he' hne

theorem Tree.key_apart (he : e ∈ es) (he' : e' ∈ es) : ¬ s.Shares e.1 e'.2 := by
  by_cases heq : e = e'
  · exact heq ▸ (htree.entries hes).2 e he
  · exact (htree.forks hes he he' heq).key

theorem Tree.entry_acyclic (he : e ∈ es) : ¬ s.Reaches e.1 (.object l) ∧ ¬ s.Reaches e.2 (.object l) := by
  have hback := htree.acyclic l _ reaches_ref hes
  exact ⟨hback e.1 (List.mem_flatMap.mpr ⟨e, he, by simp⟩), hback e.2 (List.mem_flatMap.mpr ⟨e, he, by simp⟩)⟩

end

end Store

/-! ## Parts of a tree -/

/-- Whether a part hangs on a mapping: it is found there, the objects on its ground are those that its value leads to,
and the cells of its fact, whose reference values refer to nothing, are not in the mapping. -/
structure Part.Hangs (s : Store) (l : Loc) (es : List (Value × Value)) (p : Part) : Prop where
  formed : p.fact.Formed
  stateless : p.fact.stateful = false
  key : p.key ∈ es.map (·.1) ∨ p.key.refs = []
  found : p.accessor.get s (.ref l) = .ok p.value
  region : s.Region p.ground
  within : p.value.Within p.ground
  objects : ∀ m, Place.object m ∈ p.ground → s.Reaches p.value (.object m)
  cells : ∀ n ∈ p.fact.everyNode, n.cell < s.size ∧ ¬ s.Reaches (.ref l) (.object n.cell)
  slots : ∀ n ∈ p.fact.everyNode, ∀ y ∈ s.slots n.cell, y.Within p.ground
  fixed : ∀ n ∈ p.fact.everyNode, n.kind? = some .reference → ∀ y ∈ s.slots n.cell, y.refs = []
  accessors : ∀ n ∈ p.fact.everyNode, ∀ a ∈ n.accessor?,
    a.Sound ∧ a.Uniform True ∧ ∀ A : Arena, p.ground ⊆ A.values → a.Fits A
  generators : ∀ n ∈ p.fact.everyNode, ∀ A : Arena, p.ground ⊆ A.values → Fact.Draws A n.generator?

section

variable {s : Store} {l m : Loc} {es : List (Value × Value)} {p q : Part} {ps : List Part}

namespace Part.Hangs

theorem entry (h : p.Hangs s l es) (hes : s.get? l = some (.mapping es)) :
    ∃ e ∈ es, e.2 = p.value ∧ (s.view e.1).alike (s.view p.key) = true :=
  Store.lookup_mem ((Store.get_item_iff hes).mp h.found).2

/-- A fact that is a leaf, in a cell outside the mapping with values that name nothing, may be used on any part, whose
ground is what the value leads to. -/
theorem of_leaf (hs : s.Whole) (hes : s.get? l = some (.mapping es)) (hformed : p.fact.Formed)
    (hnodes : p.fact.everyNode = [p.fact]) (hstateless : p.fact.stateful = false) (haccessor : p.fact.accessor? = none)
    (hgenerator : p.fact.generator? = none) (hslots : ∀ x ∈ s.slots p.fact.cell, x.places = [])
    (hcell : p.fact.cell < s.size ∧ ¬ s.Reaches (.ref l) (.object p.fact.cell)) (hkey : p.key.refs = [])
    (hfound : p.accessor.get s (.ref l) = .ok p.value) (hground : p.ground = {q | s.Reaches p.value q}) :
    p.Hangs s l es := by
  have hself : ∀ {n : Fact}, n ∈ p.fact.everyNode → n = p.fact := fun hn => List.mem_singleton.mp (hnodes ▸ hn)
  refine ⟨hformed, hstateless, .inr hkey, hfound, ?_, ?_, ?_, ?_, ?_, ?_, ?_, ?_⟩
  · obtain ⟨e, he, heq, -⟩ := Store.lookup_mem ((Store.get_item_iff hes).mp hfound).2
    have hbounded := (Object.within_mapping.mp (Object.within_upTo.mpr (hs.object hes)) e he).2
    rw [hground]
    exact Store.region_reaches hs (heq ▸ Value.within_upTo.mp hbounded)
  · rw [hground]
    exact fun _ hq => .named hq
  · rw [hground]
    exact fun _ hm => hm
  · intro n hn
    rwa [hself hn]
  · intro n hn y hy q hq
    rw [hself hn] at hy
    rw [hslots y hy] at hq
    cases hq
  · intro n hn _ y hy
    rw [hself hn] at hy
    refine List.eq_nil_iff_forall_not_mem.mpr fun m hm => ?_
    have hm' := (Value.object_mem_places y).mpr hm
    rw [hslots y hy] at hm'
    cases hm'
  · intro n hn a ha
    rw [hself hn, haccessor] at ha
    cases ha
  · intro n hn A _ g hg
    rw [hself hn, hgenerator] at hg
    cases hg

variable (htree : s.Tree (.ref l)) (hes : s.get? l = some (.mapping es))

include hes

theorem reaches_ref (h : p.Hangs s l es) (hm : Place.object m ∈ p.ground) : s.Reaches (.ref l) (.object m) := by
  obtain ⟨e, he, heq, -⟩ := h.entry hes
  exact (h.objects m hm).of_held hes (List.mem_flatMap.mpr ⟨e, he, by simp [heq]⟩)

include htree

theorem lies (h : p.Hangs s l es) : p.Lies s l where
  formed := h.formed
  stateless := h.stateless
  found := h.found
  region := h.region
  within := h.within
  root := by
    obtain ⟨e, he, heq, -⟩ := h.entry hes
    rintro (hmem | ⟨n, hn, hcell⟩)
    · exact (htree.entry_acyclic hes he).2 (heq ▸ h.objects l hmem)
    · cases hcell
      exact (h.cells n hn).2 Store.reaches_ref
  cells := fun n hn => ⟨(h.cells n hn).1, fun hmem => (h.cells n hn).2 (h.reaches_ref hes hmem)⟩
  slots := h.slots
  fixed := h.fixed
  accessors := h.accessors
  generators := h.generators

/-- What a part leads to, a part under another key does not look at. -/
theorem apart (hp : p.Hangs s l es) (hq : q.Hangs s l es) (hne : ¬ (s.view p.key).alike (s.view q.key) = true)
    (hm : Place.object m ∈ p.ground) : Place.object m ∉ q.scope := by
  obtain ⟨e, he, heq, hlike⟩ := hp.entry hes
  obtain ⟨e', he', heq', hlike'⟩ := hq.entry hes
  have hhashable := ((Store.get_item_iff hes).mp hp.found).1
  have hhashable' := ((Store.get_item_iff hes).mp hq.found).1
  rintro (hmem | ⟨n, hn, hcell⟩)
  · refine (htree.forks hes he he' ?_).values ⟨m, heq ▸ hp.objects m hm, heq' ▸ hq.objects m hmem⟩
    rintro rfl
    -- one entry for both keys would make them alike
    exact hne (Data.alike_euclid hlike hlike' hhashable hhashable')
  · cases hcell
    exact (hq.cells n hn).2 (hp.reaches_ref hes hm)

/-- A key of the mapping leads to nothing that a part leads to. -/
theorem key_apart (h : p.Hangs s l es) {e : Value × Value} (he : e ∈ es) (hm : s.Reaches e.1 (.object m)) :
    Place.object m ∉ p.ground := by
  obtain ⟨e', he', heq, -⟩ := h.entry hes
  exact fun hmem => htree.key_apart hes he he' ⟨m, hm, heq ▸ h.objects m hmem⟩

end Part.Hangs

/-- Whether parts are branches of a mapping that is a tree, under keys that differ, with facts that make values that
pass. What two of them may have in common are classes and enumerations, which their facts give no attributes. -/
structure Branches (s : Store) (l : Loc) (es : List (Value × Value)) (ps : List Part) : Prop where
  whole : s.Whole
  mapping : s.get? l = some (.mapping es)
  tree : s.Tree (.ref l)
  hangs : ∀ p ∈ ps, p.Hangs s l es
  sound : ∀ p ∈ ps, p.Sound s
  unlike : ps.Pairwise fun p q =>
    ¬ (s.view p.key).alike (s.view q.key) = true ∧ ¬ (s.view q.key).alike (s.view p.key) = true
  spares : ps.Pairwise fun p q =>
    (∀ o, Place.attributes o ∈ q.ground → p.Spares s o) ∧ ∀ o, Place.attributes o ∈ p.ground → q.Spares s o

/-- Branches of a tree are independent of one another. -/
theorem Branches.independent (h : Branches s l es ps) : Independent s l es ps where
  whole := h.whole
  mapping := h.mapping
  lies := fun p hp => (h.hangs p hp).lies h.tree h.mapping
  sound := h.sound
  names := by
    have hentry : ∀ e ∈ es, e.1.bound ≤ s.size ∧ ∀ m ∈ s.reachable e.1.refs, m ≠ l ∧ ∀ p ∈ ps,
        Place.object m ∉ p.ground := by
      intro e he
      have hbounded := Object.within_mapping.mp (Object.within_upTo.mpr (h.whole.object h.mapping)) e he
      refine ⟨Value.within_upTo.mp hbounded.1, fun m hm => ?_⟩
      have hreaches := Store.reaches_of_reachable hm
      refine ⟨?_, fun p hp => (h.hangs p hp).key_apart h.tree h.mapping he hreaches⟩
      rintro rfl
      exact (h.tree.entry_acyclic h.mapping he).1 hreaches
    intro k hk
    rcases List.mem_append.mp hk with hk | hk
    · obtain ⟨e, he, rfl⟩ := List.mem_map.mp hk
      exact hentry e he
    · obtain ⟨p, hp, rfl⟩ := List.mem_map.mp hk
      rcases (h.hangs p hp).key with hmem | hrefs
      · obtain ⟨e, he, heq⟩ := List.mem_map.mp hmem
        exact heq ▸ hentry e he
      · refine ⟨Value.bound_le.mpr (by simp [hrefs]), fun m hm => ?_⟩
        rw [hrefs] at hm
        exact (Store.reachable_subset (R := fun _ => False) (List.forall_mem_nil _) (fun _ _ h => h.elim) m hm).elim
  beside := by
    refine (h.unlike.and h.spares).imp_of_mem fun {p q} hp hq hpq => ?_
    have hp' := h.hangs p hp
    have hq' := h.hangs q hq
    exact ⟨hpq.1.1, hpq.1.2, fun m hm => hp'.apart h.tree h.mapping hq' hpq.1.1 hm,
      fun m hm => hq'.apart h.tree h.mapping hp' hpq.1.2 hm, hpq.2.1, hpq.2.2⟩

end

end Conform
