import Conform.Proofs.Spanning
import Conform.Proofs.Territory
import Conform.Proofs.Unfolding

/-!
# Facts that serve a tree

`Fact.Serves s ls f` says that a fact of the stateless algebra is ready to be used on a tree that meets the objects
`ls`: its cells lie elsewhere, and what these hold and what its generators make names nothing that can be changed. Using
it on the tree is work on the objects of the tree and on new ones (`Store.Worked`, `Fact.Serves.mutate`), which leaves
all other trees and all other facts as they were. A complement serves where the fact does (`Fact.Serves.complement`).
-/

namespace Conform

open Act Store

/-! ## Accessors and elementary nodes -/

namespace Accessor

variable {a : Accessor} {A : Arena} {R : Set Place}

theorem refs_of_places {v : Value} (h : v.places = []) : v.refs = [] := by
  refine List.eq_nil_iff_forall_not_mem.mpr fun l hl => ?_
  have hmem := (Value.object_mem_places v).mpr hl
  rw [h] at hmem
  cases hmem

namespace Tentative

variable (h : a.Tentative)

include h

theorem readsIn : a.ReadsIn R := by
  cases a with
  | item shown key =>
    intro p hp
    rw [show key.places = [] from h] at hp
    cases hp
  | custom name get set => exact h.elim
  | _ => trivial

theorem fits : a.Fits A := by
  cases a with
  | item shown key => exact h.readsIn
  | custom name get set => exact h.elim
  | _ => trivial

theorem uniform : a.Uniform True := by
  cases a with
  | item shown key => exact refs_of_places h
  | custom name get set => exact h.elim
  | _ => trivial

theorem sound : a.Sound := by
  cases a with
  | item shown key => exact refs_of_places h
  | custom name get set => exact h.elim
  | _ => trivial

end Tentative

end Accessor

theorem Fact.Elementary.tentative {n : Fact} (h : n.Elementary) : ∀ a ∈ n.accessor?, a.Tentative := by
  intro a ha
  cases n with
  | lens c b f noted =>
    cases ha
    exact Accessor.Direct.tentative h
  | prism c b f noted =>
    cases ha
    exact h
  | _ => cases ha

/-! ## Work on a tree -/

namespace Store

/-- The places of a tree that has been worked on: those that it had, and new ones. -/
def grown (s : Store) (ls : List Loc) (t : Store) : Set Place := Fact.Apart.spread s (s.ground ls) t

/-- Whether a store comes from another one by work on the objects of a tree and on new ones. -/
structure Worked (s : Store) (ls : List Loc) (t : Store) : Prop where
  whole : t.Whole
  size : s.size ≤ t.size
  same : ∀ l < s.size, l ∉ ls → t.get? l = s.get? l
  given : s.SameGiven t
  region : t.Region (s.grown ls t)

variable {s t : Store} {ks ls : List Loc} {l : Loc} {xs : List Value}

theorem mem_grown : Place.object l ∈ s.grown ls t ↔ (l ∈ ls ∨ s.size ≤ l) ∧ l < t.size := by
  constructor
  · rintro ⟨hl, hlt⟩
    refine ⟨hl.imp mem_ground.mp ?_, hlt l rfl⟩
    rintro ⟨m, heq, hle⟩
    cases heq
    exact hle
  · rintro ⟨hl, hlt⟩
    refine ⟨hl.imp mem_ground.mpr fun hle => ⟨l, rfl, hle⟩, ?_⟩
    rintro m ⟨⟩
    exact hlt

theorem ground_subset_grown (hs : ∀ l ∈ ls, l < s.size) (h : s.size ≤ t.size) : s.ground ls ⊆ s.grown ls t := by
  refine fun p hp => ⟨.inl hp, ?_⟩
  rintro l rfl
  exact Nat.lt_of_lt_of_le (hs l (mem_ground.mp hp)) h

theorem bound_of_grown {y : Value} (h : y.Within (s.grown ls t)) : y.bound ≤ t.size :=
  Value.within_upTo.mp (h.mono fun _ hp => hp.2)

theorem barren_subset_grown : s.barren ⊆ s.grown ls t := by
  rintro p ⟨o, rfl, ho⟩
  refine ⟨.inl (barren_subset ⟨o, rfl, ho⟩), ?_⟩
  rintro l heq
  cases heq

namespace Worked

/-- What is below no object of the tree stays a tree. -/
theorem unfolds (h : s.Worked ls t) (hs : s.Owned) (hxs : s.Unfolds xs ks) (hks : ∀ l ∈ ks, l ∉ ls) :
    t.Unfolds xs ks :=
  hxs.keep hs (fun l hl => h.same l (hxs.lt l hl) (hks l hl)) h.given

end Worked

end Store

/-! ## Facts -/

namespace Fact

/-- Whether the cell of a node holds what can be compared with a tree: no reference value is a NaN, and the ends of a
range are integers, if it has any. -/
def Furnished (s : Store) (n : Fact) : Prop :=
  match n with
  | .equality _ _ _ _ => ∀ m, s.slot n.cell 0 ≠ .atom (.nan m)
  | .range _ _ => IsWholeEnd (s.slot n.cell 0) ∧ IsWholeEnd (s.slot n.cell 1)
  | _ => True

/-- Whether a fact of the stateless algebra can be used on a tree. -/
structure Serves (s : Store) (ls : List Loc) (f : Fact) : Prop where
  formed : f.Formed
  elementary : ∀ n ∈ f.everyNode, n.Elementary
  cells : ∀ n ∈ f.everyNode, n.cell < s.size ∧ n.cell ∉ ls
  held : ∀ n ∈ f.everyNode, ∀ y ∈ s.slots n.cell, y.Within s.barren
  furnished : ∀ n ∈ f.everyNode, n.Furnished s
  generators : ∀ n ∈ f.everyNode, ∀ A : Arena, s.barren ⊆ A.values → Draws A n.generator?

section

variable {s t : Store} {w u : World} {f g n : Fact} {ks ls : List Loc} {v x y : Value} {xs : List Value} {k : Nat}

theorem slot_congr {c d : Loc} (h : t.slots d = s.slots c) (i : Nat) : t.slot d i = s.slot c i := by
  rw [Store.slot, Store.slot, h]

theorem Furnished.keep (h : n.Furnished s) (hn : t.slots n.cell = s.slots n.cell) : n.Furnished t := by
  cases n with
  | equality c equal gen attempts =>
    intro m
    rw [slot_congr hn]
    exact h m
  | range c inside =>
    rw [Furnished, slot_congr hn, slot_congr hn]
    exact h
  | _ => trivial

/-- A node without slots is furnished, and so is one with the slots of another one of its kind. -/
theorem Furnished.turned {m : Fact} (h : n.Furnished s) (hturned : Turned n m)
    (hslots : t.slots m.cell = [] ∨ t.slots m.cell = s.slots n.cell) : m.Furnished t := by
  have hnull : ∀ i, t.slots m.cell = [] → t.slot m.cell i = .null := fun i h => by
    rw [Store.slot, h]
    rfl
  cases hturned with
  | equality =>
    rcases hslots with hslots | hslots
    · intro k heq
      cases (hnull 0 hslots).symm.trans heq
    · intro k
      rw [slot_congr hslots]
      exact h k
  | range =>
    rcases hslots with hslots | hslots
    · exact ⟨.inl (hnull 0 hslots), .inl (hnull 1 hslots)⟩
    · rw [Furnished, slot_congr hslots, slot_congr hslots]
      exact h
  | _ => trivial

namespace Serves

theorem refs (h : f.Serves s ls) (hn : n ∈ f.everyNode) : ∀ y ∈ s.slots n.cell, y.refs = [] := by
  intro y hy
  refine List.eq_nil_iff_forall_not_mem.mpr fun l hl => ?_
  obtain ⟨o, heq, -⟩ := h.held n hn y hy _ ((Value.object_mem_places y).mpr hl)
  cases heq

/-- Parts of a fact serve parts of the tree. -/
theorem part (h : f.Serves s ls) (hg : g.Formed) (hnodes : ∀ n ∈ g.everyNode, n ∈ f.everyNode) (hks : ks ⊆ ls) :
    g.Serves s ks where
  formed := hg
  elementary := fun n hn => h.elementary n (hnodes n hn)
  cells := fun n hn => (h.cells n (hnodes n hn)).imp_right fun hnot hmem => hnot (hks hmem)
  held := fun n hn => h.held n (hnodes n hn)
  furnished := fun n hn => h.furnished n (hnodes n hn)
  generators := fun n hn => h.generators n (hnodes n hn)

theorem stateless (h : f.Serves s ls) : f.stateful = false :=
  stateless_of_elementary h.formed fun n hn => h.elementary n (List.mem_append_left _ hn)

theorem quiet (h : f.Serves s ls) (v : Value) : Quiet (f.check v) := quiet_check h.formed h.stateless v

theorem tentative (h : f.Serves s ls) (hn : n ∈ f.everyNode) : ∀ a ∈ n.accessor?, a.Tentative :=
  (h.elementary n hn).tentative

theorem steady (h : f.Serves s ls) : f.Steady :=
  Steady.of_nodes h.formed fun _ hn a ha => (h.tentative hn a ha).sound

/-- A fact that serves a tree lies on its ground. -/
theorem lies (h : f.Serves s ls) : f.Lies s (s.ground ls) where
  formed := h.formed
  cells := fun n hn => (h.cells n hn).imp_right fun hnot hmem => hnot (mem_ground.mp hmem)
  slots := fun n hn y hy => (h.held n hn y hy).mono barren_subset
  fixed := fun _ hn _ => h.refs hn
  accessors := fun _ hn a ha => ⟨(h.tentative hn a ha).fits, (h.tentative hn a ha).uniform⟩
  generators := fun n hn => h.generators n hn _ (barren_subset.trans Store.subset_around)

theorem fits (h : f.Serves s ls) : f.Fits (Arena.around s (s.ground ls) False) false := h.lies.fits h.stateless

theorem keep (h : f.Serves s ls) (hcells : ∀ n ∈ f.everyNode, t.slots n.cell = s.slots n.cell) (hsize : s.size ≤ t.size)
    (hgiven : s.SameGiven t) : f.Serves t ls where
  formed := h.formed
  elementary := h.elementary
  cells := fun n hn => (h.cells n hn).imp_left fun hlt => Nat.lt_of_lt_of_le hlt hsize
  held := fun n hn => by
    rw [hcells n hn, hgiven.barren]
    exact h.held n hn
  furnished := fun n hn => (h.furnished n hn).keep (hcells n hn)
  generators := fun n hn A hA => h.generators n hn A (hgiven.barren ▸ hA)

/-- Work on a tree leaves the cells of a fact that serves it. -/
theorem slots (h : f.Serves s ls) (hworked : s.Worked ks t) (hks : ks ⊆ ls) (hn : n ∈ f.everyNode) :
    t.slots n.cell = s.slots n.cell :=
  slots_of_same (hworked.same _ (h.cells n hn).1 fun hmem => (h.cells n hn).2 (hks hmem))

theorem worked (h : f.Serves s ls) (hworked : s.Worked ks t) (hks : ks ⊆ ls) : f.Serves t ls :=
  h.keep (fun _ hn => h.slots hworked hks hn) hworked.size hworked.given

/-- A verdict stays as long as what the value leads to and the cells of the fact do. -/
theorem verdict?_same {R : Set Place} (h : f.Serves s ls) (hs : s.Owned) (hR : s.Region R) (hbarren : s.barren ⊆ R)
    (hsame : ∀ l, Place.object l ∈ R → t.get? l = s.get? l)
    (hcells : ∀ n ∈ f.everyNode, t.slots n.cell = s.slots n.cell) (hgiven : s.SameGiven t) (hy : y.Within R) :
    f.verdict? t y = f.verdict? s y :=
  verdict?_of_image (Image.of_sameGiven hR hs hsame hgiven) (fun n hn =>
    ⟨hcells n hn, fun x hx => (h.held n hn x hx).mono hbarren, fun a ha => (h.tentative hn a ha).readsIn⟩) hy

/-- A verdict on what has come of work on a tree stays as long as the tree's objects and the new ones do. -/
theorem verdict?_grown {s' : Store} (h : f.Serves s ls) (hks : ks ⊆ ls) (hworked : s.Worked ks t)
    (hsame : ∀ l < t.size, l ∈ ks ∨ s.size ≤ l → s'.get? l = t.get? l)
    (hcells : ∀ n ∈ f.everyNode, s'.slots n.cell = t.slots n.cell) (hgiven : t.SameGiven s')
    (hy : y.Within (s.grown ks t)) : f.verdict? s' y = f.verdict? t y := by
  refine (h.worked hworked hks).verdict?_same hworked.whole.owned hworked.region ?_ (fun l hl => ?_) hcells hgiven hy
  · rw [hworked.given.barren]
    exact barren_subset_grown
  · obtain ⟨hgrown, hlt⟩ := mem_grown.mp hl
    exact hsame l hlt hgrown

/-! ### Using a fact -/

/-- Work that keeps to an arena around a tree. -/
theorem work {α : Type} {a : Act α} {P : α → Prop} {Q : Nat → α → Prop} {z : α} (hw : w.store.Whole)
    (hxs : w.store.Unfolds xs ls) (hruns : (Arena.around w.store (w.store.ground ls) False).Runs a P)
    (hsound : Act.Sound w.store.size a Q)
    (hthrifty : (Arena.around w.store (w.store.ground ls) False).Thrifty a) (h : exec a w = (.ok z, u)) :
    w.store.Worked ls u.store ∧ P z ∧ Q u.store.size z := by
  have hstart : (Arena.around w.store (w.store.ground ls) False).Holds w.store := hxs.region.holds hw.owned
  obtain ⟨hholds, hpost, -⟩ := hruns w hstart
  obtain ⟨⟨hsize, hwhole⟩, hbounded⟩ := hsound w hw (Nat.le_refl _)
  have hgiven := hthrifty w hstart (by
    rintro o ((⟨l, -, heq⟩ | ⟨o', heq, ho⟩) | ⟨l, heq, -⟩)
    · cases heq
    · cases heq
      exact ho
    · cases heq)
  rw [h] at hholds hpost hsize hwhole hbounded hgiven
  refine ⟨⟨hwhole, hsize, fun l hl hnot => ?_, .of_given hgiven, Apart.region_spread hholds hwhole⟩, hpost z rfl,
    hbounded z rfl⟩
  exact hholds.frame.outside hl fun hmem => hnot (mem_ground.mp hmem)

theorem frugal (h : f.Serves w.store ls) : f.Frugal (Arena.around w.store (w.store.ground ls) False) :=
  ⟨h.fits, h.formed, fun n hn => (h.elementary n hn).overwrites⟩

/-- Mutating a value keeps to its tree. -/
theorem mutate (h : f.Serves w.store ls) (hw : w.store.Whole) (hv : w.store.Unfolds [v] ls)
    (hrun : exec (mutateWithin k f v) w = (.ok y, u)) :
    w.store.Worked ls u.store ∧ y.Within (w.store.grown ls u.store) := by
  have hwithin := (hv.within v (List.mem_singleton_self v)).mono (subset_around (s := w.store))
  have hcareful := Arena.careful_mutateWithin Arena.around_mutable k f v h.frugal hwithin
  obtain ⟨hworked, hplaces, hsize⟩ :=
    work hw hv hcareful.runs (sound_mutateWithin k f v _ h.steady (hv.bound v (List.mem_singleton_self v)))
      hcareful.thrifty hrun
  exact ⟨hworked, fun p hp => ⟨hplaces p hp, Value.within_upTo.mpr hsize p hp⟩⟩

/-- So does mutating several values one after the other. -/
theorem mutateElements (h : f.Serves w.store ls) (hw : w.store.Whole) (hxs : w.store.Unfolds xs ls) {ys : List Value}
    {i : Nat} (hrun : exec (mutateElements (mutateWithin k f) i xs) w = (.ok ys, u)) :
    w.store.Worked ls u.store ∧ ∀ y ∈ ys, y.Within (w.store.grown ls u.store) := by
  have hwithin : ∀ x ∈ xs, x.Within (Arena.around w.store (w.store.ground ls) False).values := fun x hx =>
    (hxs.within x hx).mono (subset_around (s := w.store))
  have hbound : Value.boundAll xs ≤ w.store.size := Value.boundAll_le.mpr hxs.bound
  have hcareful := fun x hx => Arena.careful_mutateWithin (A := Arena.around w.store (w.store.ground ls) False)
    Arena.around_mutable k f x h.frugal hx
  have hruns := Arena.runs_mutateElements (i := i) (fun x hx => (hcareful x hx).runs) hwithin
  have hsound : Act.Sound w.store.size (Fact.mutateElements (mutateWithin k f) i xs) BoundedAll :=
    sound_mutateElements (fun x m _ hx => sound_mutateWithin k f x m h.steady hx) hbound
  obtain ⟨hworked, hplaces, hsize⟩ := work hw hxs hruns hsound (Arena.thrifty_mutateElements hcareful hwithin) hrun
  refine ⟨hworked, fun y hy p hp => ⟨hplaces y hy p hp, ?_⟩⟩
  exact Value.allWithin_upTo.mpr hsize y hy p hp

/-! ### Complements -/

/-- Making a complement is no work on a tree. -/
theorem complement_worked (h : f.Serves w.store ls) (hw : w.store.Whole) {o : Option Fact}
    (hrun : exec f.complement w = (.ok o, u)) : u.store.Whole ∧ w.store.Extends u.store := by
  obtain ⟨hsize, hwhole⟩ := (sound_complement h.steady w hw (Nat.le_refl _)).1
  rw [hrun] at hwhole
  exact ⟨hwhole, (founds_turned h.formed w o u rfl hrun).1⟩

/-- A complement serves where the fact does, and says the opposite. -/
theorem complement (h : f.Serves w.store ls) (hxs : w.store.Unfolds xs ls)
    (hrun : exec f.complement w = (.ok (some g), u)) : g.Serves u.store ls ∧ Opposes u.store f g := by
  obtain ⟨hext, hreverses⟩ := founds_turned h.formed w (some g) u rfl hrun
  have hcells : ∀ l ∈ f.cells, l < w.store.size := fun l hl => by
    rw [← map_cell_nodes] at hl
    obtain ⟨n, hn, rfl⟩ := List.mem_map.mp hl
    exact (h.cells n (List.mem_append_left _ hn)).1
  obtain ⟨-, hanswers⟩ := founds_complement h.formed hcells w (some g) u rfl hrun
  have hg := hreverses g rfl
  have hkept : f.Serves u.store ls :=
    h.keep (fun n hn => hext.slots (h.cells n hn).1) hext.size_le hext.sameGiven
  -- a node is one of the fact, or turns one round in a cell that is new or holds the same
  have hslots : ∀ n ∈ f.everyNode, ∀ m : Fact,
      (u.store.slots m.cell = [] ∨ u.store.slots m.cell = w.store.slots n.cell) →
        u.store.slots m.cell = [] ∨ u.store.slots m.cell = u.store.slots n.cell := fun n hn m =>
    Or.imp_right fun heq => by rw [heq, hext.slots (h.cells n hn).1]
  refine ⟨⟨hg.formed, hg.elementary h.elementary, ?_, ?_, ?_, ?_⟩, (hanswers g rfl).opposes⟩
  · intro m hm
    rcases hg.nodes m hm with hm | ⟨n, hn, -, hnew, hlt, -⟩
    · exact hkept.cells m hm
    · exact ⟨hlt, fun hmem => absurd (hxs.lt _ hmem) (Nat.not_lt.mpr hnew)⟩
  · intro m hm y hy
    rcases hg.nodes m hm with hm | ⟨n, hn, -, -, -, heq⟩
    · exact hkept.held m hm y hy
    · rcases hslots n hn m heq with heq | heq
      · rw [heq] at hy
        cases hy
      · rw [heq] at hy
        exact hkept.held n hn y hy
  · intro m hm
    rcases hg.nodes m hm with hm | ⟨n, hn, hturned, -, -, heq⟩
    · exact hkept.furnished m hm
    · exact (hkept.furnished n hn).turned hturned (hslots n hn m heq)
  · intro m hm
    rcases hg.nodes m hm with hm | ⟨n, hn, hturned, -⟩
    · exact hkept.generators m hm
    · rw [hturned.generator?]
      exact hkept.generators n hn

end Serves

end

end Fact

end Conform
