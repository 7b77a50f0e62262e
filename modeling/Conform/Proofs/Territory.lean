import Conform.Proofs.Apart
import Conform.Proofs.Choosing
import Conform.Proofs.Keys

/-!
# The territory of a part

A `Part` of a mapping is what is found under one of its keys, with a fact for it. Its `ground` are the places that the
value and what the fact brings along lead to. Mutating the value works there and on new objects (`Part.Lies.run`), and
whether a value passes depends on the ground that it lies on and on the cells of the fact (`Fact.Judges.of_unchanged`).
-/

namespace Conform

open Act

/-! ## What is kept at places -/

namespace Store

/-- The attributes that a class, or an enumeration with its members, has been given. -/
def givenTo (s : Store) (o : Owner) : List (Atom × String × Value) := s.given.filter fun e => e.1.owner? = some o

/-- Whether two stores keep the same at the places of a set. -/
structure Unchanged (R : Set Place) (s t : Store) : Prop where
  object : ∀ l, Place.object l ∈ R → t.get? l = s.get? l
  given : ∀ o, Place.attributes o ∈ R → t.givenTo o = s.givenTo o

variable {R U : Set Place} {s t u : Store} {a : Atom} {o : Owner}

theorem Unchanged.refl : s.Unchanged R s := ⟨fun _ _ => rfl, fun _ _ => rfl⟩

theorem Unchanged.trans (h : s.Unchanged R t) (k : t.Unchanged R u) : s.Unchanged R u :=
  ⟨fun l hl => (k.object l hl).trans (h.object l hl), fun o ho => (k.given o ho).trans (h.given o ho)⟩

theorem Unchanged.mono (h : s.Unchanged R t) (hU : U ⊆ R) : s.Unchanged U t :=
  ⟨fun l hl => h.object l (hU hl), fun o ho => h.given o (hU ho)⟩

theorem mem_givenTo {e : Atom × String × Value} : e ∈ s.givenTo o ↔ e ∈ s.given ∧ e.1.owner? = some o := by
  rw [givenTo, List.mem_filter, decide_eq_true_iff]

theorem given?_of_givenTo (ha : a.owner? = some o) (h : t.givenTo o = s.givenTo o) (name : String) :
    t.given? a name = s.given? a name := by
  have hfind : ∀ r : Store, r.given? a name =
      ((r.givenTo o).find? fun e => e.1 = a && e.2.1 == name).map (·.2.2) := by
    intro r
    rw [given?, givenTo, List.find?_filter]
    congr 2
    funext e
    by_cases he : e.1 = a
    · simp [he, ha, beq_eq_decide]
    · simp [he]
  rw [hfind t, hfind s, h]

/-- What leads nowhere out of a set does not while nothing in the set changes. -/
theorem Unchanged.region (h : s.Unchanged R t) (hR : s.Region R) (hsize : s.size ≤ t.size) : t.Region R where
  closed := by
    intro p hp q hq
    cases p with
    | object l =>
      obtain ⟨o, ho, hq⟩ := hq
      rw [h.object l hp] at ho
      exact hR.closed _ hp q ⟨o, ho, hq⟩
    | attributes o =>
      obtain ⟨a, name, v, ha, hmem, hq⟩ := hq
      have hmem' : (a, name, v) ∈ s.givenTo o := h.given o hp ▸ mem_givenTo.mpr ⟨hmem, ha⟩
      exact hR.closed _ hp q ⟨a, name, v, ha, (mem_givenTo.mp hmem').1, hq⟩
  bounded := fun l hl => Nat.lt_of_lt_of_le (hR.bounded l hl) hsize

theorem Unchanged.image (h : s.Unchanged R t) (hR : s.Region R) (hs : s.Owned) (ht : t.Owned) :
    Image ⟨id, id⟩ R True s t where
  closed := hR.closed
  marks := fun _ => rfl
  get := by
    intro l hl
    obtain ⟨o, ho⟩ := exists_get? (hR.bounded l hl)
    refine ⟨o, ho, ?_⟩
    rw [Object.move_id]
    exact (h.object l hl).trans ho
  inj := fun _ _ _ _ heq => heq
  owned := hs
  given := by
    intro _ a ha name
    have hgiven : t.given? a name = s.given? a name := by
      cases howner : a.owner? with
      | none => rw [Accessor.given?_plain hs howner, Accessor.given?_plain ht howner]
      | some o => exact given?_of_givenTo howner (h.given o (ha o howner)) name
    rw [hgiven, Option.map_congr (g := id) fun v _ => Value.move_id v, Option.map_id, id_eq]

end Store

/-! ## Verdicts -/

/-- Whether a value passes a stateless fact depends on what the value leads to and on the cells of the fact. -/
theorem Fact.Judges.of_unchanged {f : Fact} {v : Value} {b : Bool} {w u : World} {R : Set Place}
    (h : f.Judges w v b) (htwinned : Twinned f.ReadsAttributes f.Consults id f) (hR : w.store.Region R)
    (hv : v.Within R) (hw : w.store.Owned) (hu : u.store.Owned) (hsame : w.store.Unchanged R u.store)
    (hcells : ∀ n ∈ f.everyNode, u.store.get? n.cell = w.store.get? n.cell)
    (hfixed : ∀ n ∈ f.everyNode, n.kind? = some .reference → ∀ y ∈ w.store.slots n.cell, y.refs = []) :
    f.Judges u v b := by
  have himage := hsame.image hR hw hu
  -- the later store is a twin of the first one in which nothing has been moved
  have htwins : Twins ⟨id, id⟩ R f.ReadsAttributes f.Consults w.store u.store := by
    refine ⟨⟨himage.closed, himage.marks, himage.get, himage.inj, himage.owned, fun _ => himage.given trivial⟩,
      ?_, ?_, ?_, ?_, ?_⟩
    · rintro c d ⟨-, rfl, n, hn, hk, rfl⟩
      refine ⟨fun y hy => Value.refers_of_refs (hfixed n hn hk y hy), ?_⟩
      rw [Store.slots, Store.slots, hcells n hn, List.map_congr_left fun y _ => Value.move_id y, List.map_id']
    · rintro c d ⟨hk, -⟩
      cases hk
    · rintro c d ⟨hk, -⟩
      cases hk
    · rintro c d ⟨hk, -⟩
      cases hk
    · rintro c d ⟨hk, -⟩
      cases hk
  have hends := (alike_check htwinned hv).ends htwins
  rw [Fact.move_id, Value.move_id] at hends
  obtain ⟨r, w', hr, hok⟩ := h
  rw [hr] at hends
  exact ⟨r, (exec (f.check v) u).2, Prod.ext hends.symm rfl, hok⟩

/-! ## Parts -/

/-- A part of a mapping: the key that it is found under and how the key is shown, the fact for it with the cell of the
lens that leads to it, the value that is found at first, and the places that the value and what the fact brings along
lead to. -/
structure Part where
  shown : String
  key : Value
  cell : Loc
  fact : Fact
  value : Value
  ground : Set Place

namespace Part

/-- The accessor of the item. -/
def accessor (p : Part) : Accessor := .item p.shown p.key

/-- The fact for the part as one for the mapping. -/
def lens (p : Part) : Fact := .lens p.cell p.accessor p.fact p.fact.stateful

/-- All places that using the fact on the part looks at: the ground and the cells of the fact. -/
def scope (p : Part) : Set Place := {q | q ∈ p.ground ∨ ∃ n ∈ p.fact.everyNode, q = .object n.cell}

/-- Whether the fact finds the part in the second store as in the first. -/
structure Undisturbed (p : Part) (s t : Store) : Prop where
  whole : t.Whole
  size : s.size ≤ t.size
  same : s.Unchanged p.scope t

/-- Whether a part lies in a mapping by itself: the value and what the fact holds are on its ground, which leads
nowhere else, and the cells of the fact are not. -/
structure Lies (s : Store) (l : Loc) (p : Part) : Prop where
  formed : p.fact.Formed
  stateless : p.fact.stateful = false
  found : p.accessor.get s (.ref l) = .ok p.value
  region : s.Region p.ground
  within : p.value.Within p.ground
  root : Place.object l ∉ p.scope
  cells : ∀ n ∈ p.fact.everyNode, n.cell < s.size ∧ Place.object n.cell ∉ p.ground
  slots : ∀ n ∈ p.fact.everyNode, ∀ y ∈ s.slots n.cell, y.Within p.ground
  fixed : ∀ n ∈ p.fact.everyNode, n.kind? = some .reference → ∀ y ∈ s.slots n.cell, y.refs = []
  accessors : ∀ n ∈ p.fact.everyNode, ∀ a ∈ n.accessor?,
    a.Sound ∧ a.Uniform True ∧ ∀ A : Arena, p.ground ⊆ A.values → a.Fits A
  generators : ∀ n ∈ p.fact.everyNode, ∀ A : Arena, p.ground ⊆ A.values → Fact.Draws A n.generator?

variable {p : Part} {s t u : Store} {l : Loc} {w : World}

theorem ground_subset : p.ground ⊆ p.scope := fun _ hq => .inl hq

theorem cell_mem_scope {n : Fact} (hn : n ∈ p.fact.everyNode) : Place.object n.cell ∈ p.scope := .inr ⟨n, hn, rfl⟩

theorem Undisturbed.trans (h : p.Undisturbed s t) (k : p.Undisturbed t u) : p.Undisturbed s u :=
  ⟨k.whole, Nat.le_trans h.size k.size, h.same.trans k.same⟩

theorem Undisturbed.cells (h : p.Undisturbed s t) {n : Fact} (hn : n ∈ p.fact.everyNode) :
    t.slots n.cell = s.slots n.cell := by
  rw [Store.slots, Store.slots, h.same.object _ (cell_mem_scope hn)]

namespace Lies

theorem scope_lt (h : p.Lies s l) {m : Loc} (hm : Place.object m ∈ p.scope) : m < s.size := by
  rcases hm with hm | ⟨n, hn, heq⟩
  · exact h.region.bounded m hm
  · cases heq
    exact (h.cells n hn).1

/-- The fact lies on the ground. -/
theorem fact (h : p.Lies s l) : p.fact.Lies s p.ground where
  formed := h.formed
  cells := h.cells
  slots := h.slots
  fixed := h.fixed
  accessors := fun n hn a ha => ⟨(h.accessors n hn a ha).2.2 _ Store.subset_around, (h.accessors n hn a ha).2.1⟩
  generators := fun n hn => h.generators n hn _ Store.subset_around

theorem keep (h : p.Lies s l) (hun : p.Undisturbed s t) (hfound : p.accessor.get t (.ref l) = .ok p.value) :
    p.Lies t l where
  formed := h.formed
  stateless := h.stateless
  found := hfound
  region := (hun.same.mono ground_subset).region h.region hun.size
  within := h.within
  root := h.root
  cells := fun n hn => ⟨Nat.lt_of_lt_of_le (h.cells n hn).1 hun.size, (h.cells n hn).2⟩
  slots := fun n hn => by
    rw [hun.cells hn]
    exact h.slots n hn
  fixed := fun n hn => by
    rw [hun.cells hn]
    exact h.fixed n hn
  accessors := h.accessors
  generators := h.generators

/-- Mutating the part writes to its ground and to new objects only, and what it answers lies there. -/
theorem run (h : p.Lies w.store l) (hw : w.store.Whole) {r : Except Fault Value} {u : World}
    (hrun : exec (p.fact.mutate p.value) w = (r, u)) :
    u.store.Whole ∧ w.store.size ≤ u.store.size ∧
    (∀ m < w.store.size, Place.object m ∉ p.ground → u.store.get? m = w.store.get? m) ∧
    ∀ y, r = .ok y → u.store.Region (Fact.Apart.spread w.store p.ground u.store) ∧
      y.Within (Fact.Apart.spread w.store p.ground u.store) := by
  have hbound : p.value.bound ≤ w.store.size := Value.within_upTo.mp fun q hq m heq => by
    subst heq
    exact h.region.bounded m (h.within _ hq)
  -- where the run writes is known from its arena, and what it refers to from its size
  have hsteady : p.fact.Steady := Fact.Steady.of_nodes h.formed fun n hn a ha => (h.accessors n hn a ha).1
  obtain ⟨hholds, hwithin, -⟩ := Arena.runs_mutate Arena.around_mutable (h.fact.fits h.stateless)
    (h.within.mono Store.subset_around) w (h.region.holds hw.owned)
  obtain ⟨⟨hsize, hwhole⟩, hbounded⟩ := sound_mutate hsteady hbound w hw (Nat.le_refl _)
  rw [hrun] at hholds hwithin hsize hwhole hbounded
  refine ⟨hwhole, hsize, fun m hm hnot => hholds.frame.outside hm hnot, fun y hy => ?_⟩
  refine ⟨Fact.Apart.region_spread hholds hwhole, fun q hq => ⟨hwithin y hy q hq, ?_⟩⟩
  exact Value.within_upTo.mpr (hbounded y hy) q hq

end Lies

end Part

end Conform
