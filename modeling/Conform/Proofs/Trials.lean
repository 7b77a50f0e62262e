import Conform.Proofs.Memory

/-!
# Trying out copies

A stateful fact is tried out on a copy, which is checked by another copy and taken over if it is right.
`Fact.Ready` is what holds of a value and a world in between, `Ready.frame_aside` says that checks write to new
places only, and `Ready.commit_copy` that what is taken over is what the copy held when it had been run.
-/

namespace Conform

open Act

/-- The arena of checks on copies: the values are those of the arena around a region, and nothing but new
places is written to. -/
def Arena.aside (s : Store) (U : Set Place) (t : Store) : Arena :=
  ⟨{p | ∃ l, p = .object l ∧ t.size ≤ l}, s.around U, t, True⟩

namespace Store

variable {s t : Store}

/-- What was there before only new places were written to is there afterwards. -/
theorem Frame.get_old (h : s.Frame {p | ∃ l, p = .object l ∧ s.size ≤ l} t) {l : Loc} (hl : l < s.size) :
    t.get? l = s.get? l := by
  refine h.get l ?_
  rintro ⟨m, heq, hle⟩
  cases heq
  exact Nat.not_lt.mpr hle hl

theorem Frame.given_old (h : s.Frame {p | ∃ l, p = .object l ∧ s.size ≤ l} t) (a : Atom) (name : String) :
    t.given? a name = s.given? a name := by
  refine h.given a ?_ name
  rintro o - ⟨m, heq, -⟩
  cases heq

end Store

namespace Fact

/-- What holds of a value and a world that a run around a region has come to. -/
structure Ready (s : Store) (U : Set Place) (x : Value) (u : World) : Prop where
  holds : (Arena.around s U True).Holds u.store
  whole : u.store.Whole
  within : x.Within (s.around U)
  bounded : x.bound ≤ u.store.size

section

variable {s : Store} {U : Set Place} {f : Fact} {fs : List Fact} {v x y : Value} {w u : World}

theorem any_stateful_singleton : [f].any stateful = f.stateful := by
  rw [List.any_cons, List.any_nil, Bool.or_false]

theorem cellsAll_singleton : cellsAll [f] = f.cells := by
  rw [cellsAll, cellsAll, List.append_nil]

namespace Apart

theorem ready (h : Apart w.store U fs) (hv : v.Within U) : Ready w.store U v w where
  holds := h.region.holds h.whole.owned
  whole := h.whole
  within := hv.mono Store.subset_around
  bounded := Value.bound_le.mpr fun l hl => h.region.bounded l (hv.refers l hl)

theorem takesCopies (h : Apart s U fs) : (Arena.around s U True).TakesCopies :=
  fun o => Store.subset_around (h.attributes o)

theorem fits_around (h : Apart s U fs) : FitsAll (Arena.around s U True) (fs.any stateful) fs := by
  refine h.fits (A := Arena.around s U True) rfl Store.subset_around ?_
  rintro l (hl | ⟨m, heq, hle⟩)
  · exact .inl hl
  · cases heq
    exact .inr hle

theorem fits_self (h : Apart s U [f]) : f.Fits (Arena.around s U True) f.stateful := by
  have hfits := h.fits_around
  rw [any_stateful_singleton] at hfits
  exact hfits.1

end Apart

namespace Ready

/-- An action that keeps to the arena and gives no object back leads from one such place to another. -/
theorem run {α : Type} {a : Act α} {P : α → Prop} {Q : Nat → α → Prop} (hu : Ready s U x u)
    (hruns : (Arena.around s U True).Runs a P) (hsound : Act.Sound x.bound a Q) :
    (Arena.around s U True).Holds (exec a u).2.store ∧ (exec a u).2.store.Whole ∧
      u.store.size ≤ (exec a u).2.store.size ∧
      ∀ z, (exec a u).1 = .ok z → P z ∧ Q (exec a u).2.store.size z := by
  obtain ⟨hholds, hpost, -⟩ := hruns u hu.holds
  obtain ⟨⟨hsize, hwhole⟩, hok⟩ := hsound u hu.whole hu.bounded
  exact ⟨hholds, hwhole, hsize, fun z hz => ⟨hpost z hz, hok z hz⟩⟩

theorem apart (hu : Ready s U x u) (h : Apart s U fs) : Apart u.store (Apart.spread s U u.store) fs :=
  h.step hu.holds hu.whole

theorem within_spread (hu : Ready s U x u) : x.Within (Apart.spread s U u.store) :=
  fun p hp => ⟨hu.within p hp, Value.within_upTo.mpr hu.bounded p hp⟩

theorem holds_aside (hu : Ready s U x u) : (Arena.aside s U u.store).Holds u.store := by
  refine ⟨hu.holds.closed, ?_, ?_, hu.holds.owned, .refl _ _⟩
  · rintro l vs ⟨m, heq, hle⟩ hget
    cases heq
    rw [Store.get?_eq_none hle] at hget
    cases hget
  · exact fun l hl => ⟨⟨l, rfl, hl⟩, (hu.holds.fresh l hl).2⟩

theorem fits_aside (hu : Ready s U x u) (h : Apart s U fs) :
    FitsAll (Arena.aside s U u.store) (fs.any stateful) fs := by
  refine (hu.apart h).fits (A := Arena.aside s U u.store) rfl (fun _ hp => hp.1) ?_
  rintro l ⟨m, heq, hle⟩
  cases heq
  exact .inr hle

/-- What runs in the arena of checks writes to new places only. -/
theorem frame_aside {α : Type} {a : Act α} {P : α → Prop} (hu : Ready s U x u)
    (hruns : (Arena.aside s U u.store).Runs a P) :
    u.store.Frame {p | ∃ l, p = .object l ∧ u.store.size ≤ l} (exec a u).2.store :=
  (hruns u hu.holds_aside).1.frame

/-! ## Taking over a copy -/

/-- Facts that take over a copy remember what the copy remembered when it had been run, and nothing but
their cells changes, if only new places have been written to since. -/
theorem commit_copy {b c : World} (hu : Ready s U x u) (h : Apart s U fs) (hb : Ready s U y b)
    (hsize : (u.store.copy (cellsAll fs)).2.size ≤ b.store.size)
    (hframe : b.store.Frame {p | ∃ l, p = .object l ∧ b.store.size ≤ l} c.store) :
    ∃ d, exec (commitCells (cellsAll fs) (cellsAll (moveAll (u.store.copy (cellsAll fs)).1.place fs))) c =
        (.ok (), d) ∧
      stateAll d.store fs = stateAll b.store (moveAll (u.store.copy (cellsAll fs)).1.place fs) ∧
      (∀ l, l < b.store.size → l ∉ cellsAll fs → d.store.get? l = b.store.get? l) ∧
      ∀ a name, d.store.given? a name = b.store.given? a name := by
  have hcells := (hu.apart h).cells_lt
  have hplaced : ∀ l ∈ cellsAll fs, u.store.size ≤ (u.store.copy (cellsAll fs)).1.place l ∧
      (u.store.copy (cellsAll fs)).1.place l < b.store.size := by
    intro l hl
    have hmem := Store.mem_reachable_root hl (hcells l hl)
    obtain ⟨o, ho⟩ := Store.exists_get? (hcells l hl)
    have hget := Store.get?_copy_place hmem
    rw [ho] at hget
    exact ⟨Store.size_le_copy_place hmem, Nat.lt_of_lt_of_le (Store.lt_size_of_get? hget) hsize⟩
  have hlt : ∀ l ∈ cellsAll fs, l < c.store.size := by
    intro l hl
    have hle := Nat.le_trans (Nat.le_trans (hplaced l hl).1 (Nat.le_of_lt (hplaced l hl).2)) hframe.size
    exact Nat.lt_of_lt_of_le (hcells l hl) hle
  obtain ⟨d, hcommit, -, hgiven, hother, hslots⟩ := exec_commitCells (w := c)
    (m := (u.store.copy (cellsAll fs)).1.place) hlt fun l hl l' hl' heq =>
      Nat.not_lt.mpr (hplaced l hl).1 (heq ▸ hcells l' hl')
  refine ⟨d, ?_, ?_, fun l hl hcell => (hother l hcell).trans (hframe.get_old hl), ?_⟩
  · rw [cellsAll_move]
    exact hcommit
  · refine h.stateAll_commit hb.holds hb.whole ?_ ?_ fun l hl hcell =>
      (hother l hcell).trans (hframe.get_old hl)
    · intro l hl
      have hle := Nat.le_trans hu.holds.frame.size (hplaced l hl).1
      exact ⟨.inr ⟨_, rfl, hle⟩, .inr ⟨_, rfl, hle⟩⟩
    · intro l hl
      rw [Store.slots_of_get? (hslots l hl), Store.slots, Store.slots, hframe.get_old (hplaced l hl).2]
  · intro a name
    rw [← hframe.given_old, Store.given?, Store.given?, hgiven]

end Ready

end

end Fact

end Conform
