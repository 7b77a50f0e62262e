import Conform.Proofs.Apart

/-!
# Guarded objects

Objects are *guarded* if nothing else in the store refers to them (`Store.Guarded`): only who holds a
reference already can get at them. A stateless fact that is used on a value without such references leaves
guarded objects alone and answers a value without such references (`Guarded.stateless`), and what is new in
the store may be guarded as well (`Guarded.grow`).
-/

namespace Conform

open Act Conform.Fact

/-- The places other than some objects. -/
def beyond (X : Set Loc) : Set Place := {p | ∀ l, p = .object l → l ∉ X}

/-- Whether some objects are referred to from one another only. -/
structure Store.Guarded (s : Store) (X : Set Loc) : Prop where
  whole : s.Whole
  bounded : ∀ l ∈ X, l < s.size
  closed : s.Closed (beyond X)

/-- Whether a value leads to allocated objects, none of them guarded. -/
structure Value.Clear (X : Set Loc) (n : Nat) (v : Value) : Prop where
  within : v.Within (beyond X)
  bounded : v.bound ≤ n

/-- Whether a store has come from another by work beside guarded objects. -/
structure Store.Beside (s : Store) (X : Set Loc) (t : Store) : Prop where
  guarded : t.Guarded X
  size : s.size ≤ t.size
  same : ∀ l ∈ X, t.get? l = s.get? l

/-- The arena of everything but some objects. -/
def Arena.beside (s : Store) (X : Set Loc) : Arena := ⟨beyond X, beyond X, s, True⟩

/-- Whether a set of objects comes from another by adding objects that are new to a store. -/
structure Grown (s : Store) (X Y : Set Loc) : Prop where
  old : X ⊆ Y
  new : ∀ l ∈ Y, l ∈ X ∨ s.size ≤ l

variable {s t : Store} {X Y Z : Set Loc} {v : Value}

@[simp] theorem object_mem_beyond {l : Loc} : Place.object l ∈ beyond X ↔ l ∉ X :=
  ⟨fun h => h l rfl, by rintro h _ ⟨⟩; exact h⟩

@[simp] theorem attributes_mem_beyond {o : Owner} : Place.attributes o ∈ beyond X := nofun

theorem Grown.refl : Grown s X X := ⟨fun _ h => h, fun _ h => .inl h⟩

theorem Grown.trans (h : Grown s X Y) (k : Grown t Y Z) (hsize : s.size ≤ t.size) : Grown s X Z where
  old := fun _ hl => k.old (h.old hl)
  new := by
    intro l hl
    rcases k.new l hl with hl | hl
    · exact h.new l hl
    · exact .inr (Nat.le_trans hsize hl)

/-- An allocated object that is not guarded stays so. -/
theorem Grown.not_mem (h : Grown s X Y) {l : Loc} (hlt : l < s.size) (hl : l ∉ X) : l ∉ Y := by
  intro hY
  rcases h.new l hY with hX | hle
  · exact hl hX
  · exact Nat.not_lt.mpr hle hlt

namespace Value

theorem Clear.of_refs {n : Nat} (h : v.refs = []) : v.Clear X n where
  within := within_of_refs (fun _ => attributes_mem_beyond) h
  bounded := by rw [bound_of_refs h]; exact Nat.zero_le _

theorem clear_iff {n : Nat} : v.Clear X n ↔ ∀ l ∈ v.refs, l ∉ X ∧ l < n := by
  constructor
  · intro h l hl
    exact ⟨object_mem_beyond.mp (h.within.refers l hl), bound_le.mp h.bounded l hl⟩
  · refine fun h => ⟨?_, bound_le.mpr fun l hl => (h l hl).2⟩
    intro p hp
    cases p with
    | object l => exact object_mem_beyond.mpr (h l ((object_mem_places v).mp hp)).1
    | attributes o => exact attributes_mem_beyond

/-- A value stays clear when the store and what is guarded grow. -/
theorem Clear.grow (h : v.Clear X s.size) (hg : Grown s X Y) {n : Nat} (hn : s.size ≤ n) : v.Clear Y n := by
  refine clear_iff.mpr fun l hl => ?_
  obtain ⟨hX, hlt⟩ := clear_iff.mp h l hl
  exact ⟨hg.not_mem hlt hX, Nat.lt_of_lt_of_le hlt hn⟩

end Value

theorem Store.Guarded.beside (h : s.Guarded X) : s.Beside X s := ⟨h, Nat.le_refl _, fun _ _ => rfl⟩

theorem Store.Beside.trans {u : Store} (h : s.Beside X t) (k : t.Beside X u) : s.Beside X u where
  guarded := k.guarded
  size := Nat.le_trans h.size k.size
  same := fun l hl => (k.same l hl).trans (h.same l hl)

namespace Store.Guarded

/-- The objects that are new to a later store may be guarded too, if everything else is as it was. -/
theorem grow (h : s.Guarded X) (hw : t.Whole) (hgiven : t.given = s.given) (hsize : s.size ≤ t.size)
    (hold : ∀ l, l < s.size → l ∉ X → t.get? l = s.get? l) :
    ∃ Y, Grown s X Y ∧ (∀ l, s.size ≤ l → l < t.size → l ∈ Y) ∧ t.Guarded Y := by
  have hrest : ∀ q, q ∈ beyond X → q ∈ upTo s.size →
      q ∈ beyond (X ∪ {l | s.size ≤ l ∧ l < t.size}) := by
    rintro q hq hlt l rfl (hl | hl)
    · exact object_mem_beyond.mp hq hl
    · exact Nat.not_lt.mpr hl.1 (hlt l rfl)
  refine ⟨X ∪ {l | s.size ≤ l ∧ l < t.size}, ⟨fun l hl => .inl hl, ?_⟩, fun l hl hlt => .inr ⟨hl, hlt⟩,
    hw, ?_, ?_⟩
  · rintro l (hl | hl)
    · exact .inl hl
    · exact .inr hl.1
  · rintro l (hl | hl)
    · exact Nat.lt_of_lt_of_le (h.bounded l hl) hsize
    · exact hl.2
  · intro p hp q hq
    cases p with
    | object l =>
      obtain ⟨o, ho, hq⟩ := hq
      have hmem := object_mem_beyond.mp hp
      have hX : l ∉ X := fun hl => hmem (.inl hl)
      have hlt : l < s.size := by
        by_contra hle
        exact hmem (.inr ⟨Nat.not_lt.mp hle, lt_size_of_get? ho⟩)
      rw [hold l hlt hX] at ho
      refine hrest q (h.closed _ (object_mem_beyond.mpr hX) q ⟨o, ho, hq⟩) ?_
      exact h.whole.closed (.object l) (by rintro _ ⟨⟩; exact hlt) q ⟨o, ho, hq⟩
    | attributes o =>
      have hs : s.Names (.attributes o) q := by
        obtain ⟨a, name, w, hown, hmem, hq⟩ := hq
        exact ⟨a, name, w, hown, hgiven ▸ hmem, hq⟩
      exact hrest q (h.closed _ attributes_mem_beyond q hs) (h.whole.closed (.attributes o) nofun q hs)

/-- Writing to guarded objects leaves them guarded. -/
theorem rewrite (h : s.Guarded X) (hw : t.Whole) (hgiven : t.given = s.given) (hsize : t.size = s.size)
    (hold : ∀ l, l ∉ X → t.get? l = s.get? l) : t.Guarded X := by
  obtain ⟨Y, hY, -, hguarded⟩ := h.grow hw hgiven (Nat.le_of_eq hsize.symm) fun l _ hl => hold l hl
  have heq : Y = X := by
    refine Set.Subset.antisymm (fun l hl => ?_) hY.old
    rcases hY.new l hl with hX | hle
    · exact hX
    · exact absurd (hguarded.bounded l hl) (hsize ▸ Nat.not_lt.mpr hle)
  exact heq ▸ hguarded

theorem put (h : s.Guarded X) {l : Loc} {o : Object} (hl : l ∈ X) (ho : o.bound ≤ s.size) :
    (s.put l o).Guarded X := by
  refine h.rewrite (h.whole.put ho) rfl size_put fun m hm => get?_put_of_ne ?_
  rintro rfl
  exact hm hl

/-! ## Working beside guarded objects -/

theorem holds (h : s.Guarded X) : (Arena.beside s X).Holds s where
  closed := h.closed
  slots := fun _ _ hl hget _ hm => Value.within_ref.mp ((h.closed.object hl hget).value hm)
  fresh := by
    have hfresh : ∀ l, s.size ≤ l → l ∉ X := fun l hl hX => Nat.not_lt.mpr hl (h.bounded l hX)
    exact fun l hl => ⟨object_mem_beyond.mpr (hfresh l hl), object_mem_beyond.mpr (hfresh l hl)⟩
  owned := h.whole.owned
  frame := .refl _ _

theorem takesCopies : (Arena.beside s X).TakesCopies := fun _ => attributes_mem_beyond

theorem mutable : (Arena.beside s X).Mutable := fun _ h => h

/-- An action that keeps beside guarded objects leaves them as they are, and guarded. -/
theorem run {α : Type} {a : Act α} {P : α → Prop} {Q : Nat → α → Prop} {n : Nat} {w : World}
    (h : w.store.Guarded X) (hn : n ≤ w.store.size) (hruns : (Arena.beside w.store X).Runs a P)
    (hsound : Act.Sound n a Q) : w.store.Beside X (exec a w).2.store ∧
      ∀ x, (exec a w).1 = .ok x → P x ∧ Q (exec a w).2.store.size x := by
  obtain ⟨hholds, hpost, -⟩ := hruns w h.holds
  obtain ⟨⟨hsize, hwhole⟩, hok⟩ := hsound w h.whole hn
  refine ⟨⟨⟨hwhole, fun l hl => Nat.lt_of_lt_of_le (h.bounded l hl) hsize, hholds.closed⟩, hsize, ?_⟩,
    fun x hx => ⟨hpost x hx, hok x hx⟩⟩
  exact fun l hl => hholds.frame.get l fun hmem => object_mem_beyond.mp hmem hl

end Store.Guarded

/-- Mutating with a stateless fact on the rest leaves guarded objects as they are. The cells of the fact
are guarded, and what they hold refers to nothing. -/
theorem Store.Guarded.stateless {f : Fact} {w : World} (levels : Nat) (h : w.store.Guarded X)
    (htame : Tame [f]) (hs : f.stateful = false) (hcells : ∀ n ∈ f.everyNode, n.cell ∈ X)
    (hslots : ∀ n ∈ f.everyNode, ∀ x ∈ w.store.slots n.cell, x.refs = [])
    (hv : v.Clear X w.store.size) :
    let out := exec (mutateWithin levels f v) w
    w.store.Beside X out.2.store ∧ ∀ y, out.1 = .ok y → y.Clear X out.2.store.size := by
  have hnode : ∀ n ∈ inPlace [f], n ∈ f.everyNode := by
    intro n hn
    rcases List.mem_append.mp (mem_inPlace hn) with hn | hn
    · exact List.mem_append_left _ (by simpa [nodesAll] using hn)
    · exact List.mem_append_right _ (by simpa [chosenAll] using hn)
  have hfits := htame.fits (A := Arena.beside w.store X) takesCopies fun n hn =>
    ⟨fun hmem => object_mem_beyond.mp hmem (hcells n (hnode n hn)), fun x hx =>
      Value.within_of_refs (fun _ => attributes_mem_beyond) (hslots n (hnode n hn) x hx)⟩
  rw [List.any_cons, hs] at hfits
  obtain ⟨hbeside, hok⟩ := h.run hv.bounded (Arena.runs_mutateWithin mutable levels f v hfits.1 hv.within)
    (sound_mutateWithin levels f v _ htame.steady.1 (Nat.le_refl _))
  exact ⟨hbeside, fun y hy => ⟨(hok y hy).1, (hok y hy).2⟩⟩

end Conform
