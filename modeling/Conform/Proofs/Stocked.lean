import Conform.Proofs.Guarded
import Conform.Proofs.Immutable
import Conform.Proofs.Memory

/-!
# What guarded cells hold

The cells of facts whose values are immutable hold nothing but immutable data, except that a distinct fact
keeps a list of its own (`Fact.Stocked`). `Store.noted` is what a counter or a distinct fact has noted. Copying
and committing carry the notes over, advancing a cell changes its own notes only, and whatever leaves the cells
and the lists alone changes none.
-/

namespace Conform

open Act Conform.Fact

/-- What a cell has noted: the integers of a counter, or the values that a distinct fact has seen. -/
def Store.noted (s : Store) (c : Loc) : List Value :=
  match s.slots c with
  | [.ref l] => s.listItems (.ref l)
  | vs => vs

namespace Fact

/-- Whether the cell of a node holds what cells of its kind hold, all of it immutable. -/
def Stores (s : Store) (X : Set Loc) (n : Fact) : Prop :=
  match n.kind? with
  | some .counter => ∃ a b j k, a.integer? = some j ∧ b.integer? = some k ∧
    s.get? n.cell = some (.slots [.atom a, .atom b])
  | some .memory => ∃ l xs, s.get? n.cell = some (.slots [.ref l]) ∧ s.get? l = some (.list xs) ∧ l ∈ X ∧
    ∀ x ∈ xs, x.Bare
  | _ => ∃ vs, s.get? n.cell = some (.slots vs) ∧ ∀ x ∈ vs, x.Bare

/-- The cells of nodes, and the lists in them. -/
def heldBy (s : Store) (ns : List Fact) : Set Loc := {l | ∃ n ∈ ns, l = n.cell ∨ s.slots n.cell = [.ref l]}

/-- Whether the cells of nodes are guarded and hold what they should. Every list has one cell. -/
structure Stocked (s : Store) (X : Set Loc) (ns : List Fact) : Prop where
  cells : ∀ n ∈ ns, n.cell ∈ X
  stores : ∀ n ∈ ns, n.Stores s X
  kinds : ∀ n ∈ ns, ∀ m ∈ ns, n.cell = m.cell → n.kind? = m.kind?
  lists : ∀ n ∈ ns, ∀ m ∈ ns, ∀ l, s.slots n.cell = [.ref l] → s.slots m.cell = [.ref l] → n.cell = m.cell
  listed : ∀ n ∈ ns, ∀ l, s.slots n.cell = [.ref l] → ∀ m ∈ ns, m.cell ≠ l

end Fact

/-! ## Notes -/

theorem Value.Bare.clear {v : Value} (h : v.Bare) {X : Set Loc} {n : Nat} : v.Clear X n := .of_refs h.refs

namespace Store

variable {s t : Store} {c l : Loc} {vs xs : List Value}

theorem slots_of_same (h : t.get? c = s.get? c) : t.slots c = s.slots c := by rw [slots, slots, h]

theorem noted_of_slots (h : s.slots c = vs) (hne : ∀ l, vs ≠ [.ref l]) : s.noted c = vs := by
  unfold noted
  rw [h]
  split
  · next l => exact absurd rfl (hne l)
  · rfl

theorem noted_of_list (h : s.slots c = [.ref l]) (hl : s.get? l = some (.list xs)) : s.noted c = xs := by
  simp only [noted, h, listItems, hl]

/-- Notes are the same where the cell and its list are. -/
theorem noted_of_same (h : t.get? c = s.get? c) (hl : ∀ l, s.slots c = [.ref l] → t.get? l = s.get? l) :
    t.noted c = s.noted c := by
  have hslots := slots_of_same h
  unfold noted
  rw [hslots]
  split
  · next l heq => simp only [listItems, hl l heq]
  · rfl

end Store

namespace Fact

variable {s t : Store} {X Y : Set Loc} {ns ms : List Fact} {n : Fact} {w : World}

/-- Nodes of a kind whose cells hold the same are stocked alike. -/
theorem Stores.transport {n' : Fact} (h : n.Stores s X) (hXY : X ⊆ Y) (hkind : n'.kind? = n.kind?)
    (hcell : t.get? n'.cell = s.get? n.cell)
    (hlist : ∀ l, s.slots n.cell = [.ref l] → t.get? l = s.get? l) : n'.Stores t Y := by
  unfold Stores at h ⊢
  rw [hkind, hcell]
  split at h
  · exact h
  · obtain ⟨l, xs, hget, hl, hmem, hxs⟩ := h
    exact ⟨l, xs, hget, (hlist l (Store.slots_of_get? hget)).trans hl, hXY hmem, hxs⟩
  · exact h

theorem Stores.counter (h : n.Stores s X) (hk : n.kind? = some .counter) :
    ∃ a b j k, a.integer? = some j ∧ b.integer? = some k ∧
      s.get? n.cell = some (.slots [.atom a, .atom b]) := by
  unfold Stores at h
  rw [hk] at h
  exact h

theorem Stores.memory (h : n.Stores s X) (hk : n.kind? = some .memory) :
    ∃ l xs, s.get? n.cell = some (.slots [.ref l]) ∧ s.get? l = some (.list xs) ∧ l ∈ X ∧
      ∀ x ∈ xs, x.Bare := by
  unfold Stores at h
  rw [hk] at h
  exact h

/-- A cell holds slots, and lists are referred to by the cells of distinct facts only. -/
theorem Stores.slots (h : n.Stores s X) : ∃ vs, s.get? n.cell = some (.slots vs) ∧
    ((∀ x ∈ vs, x.Bare) ∨ n.kind? = some .memory ∧ ∃ l xs, vs = [.ref l] ∧ s.get? l = some (.list xs) ∧
      l ∈ X ∧ ∀ x ∈ xs, x.Bare) := by
  unfold Stores at h
  split at h
  · obtain ⟨a, b, j, k, ha, hb, hget⟩ := h
    refine ⟨_, hget, .inl fun x hx => ?_⟩
    rcases List.mem_pair.mp hx with rfl | rfl
    · exact Value.bare_of_integer ha
    · exact Value.bare_of_integer hb
  · obtain ⟨l, xs, hget, hl, hmem, hxs⟩ := h
    exact ⟨_, hget, .inr ⟨‹_›, l, xs, rfl, hl, hmem, hxs⟩⟩
  · obtain ⟨vs, hget, hvs⟩ := h
    exact ⟨vs, hget, .inl hvs⟩

/-- A cell that refers to a list is that of a distinct fact. -/
theorem Stores.of_ref (h : n.Stores s X) {l : Loc} (hl : s.slots n.cell = [.ref l]) :
    n.kind? = some .memory ∧ ∃ xs, s.get? l = some (.list xs) ∧ l ∈ X ∧ ∀ x ∈ xs, x.Bare := by
  obtain ⟨vs, hget, hvs⟩ := h.slots
  rw [Store.slots_of_get? hget] at hl
  subst hl
  rcases hvs with hbare | ⟨hk, m, xs, heq, hrest⟩
  · cases (hbare (.ref l) (by simp)).refs
  · cases heq
    exact ⟨hk, xs, hrest⟩

theorem heldBy_mono (h : ∀ n ∈ ms, n ∈ ns) {l : Loc} (hl : l ∈ heldBy s ms) : l ∈ heldBy s ns := by
  obtain ⟨n, hn, hl⟩ := hl
  exact ⟨n, h n hn, hl⟩

theorem heldBy_of_same (h : ∀ n ∈ ns, t.get? n.cell = s.get? n.cell) : heldBy t ns = heldBy s ns := by
  ext l
  refine exists_congr fun n => and_congr_right fun hn => ?_
  rw [Store.slots_of_same (h n hn)]

namespace Stocked

theorem subset (h : Stocked s X ns) (hms : ∀ m ∈ ms, m ∈ ns) : Stocked s X ms where
  cells := fun n hn => h.cells n (hms n hn)
  stores := fun n hn => h.stores n (hms n hn)
  kinds := fun n hn m hm => h.kinds n (hms n hn) m (hms m hm)
  lists := fun n hn m hm => h.lists n (hms n hn) m (hms m hm)
  listed := fun n hn l hl m hm => h.listed n (hms n hn) l hl m (hms m hm)

theorem held_guarded (h : Stocked s X ns) : heldBy s ns ⊆ X := by
  rintro l ⟨n, hn, rfl | hl⟩
  · exact h.cells n hn
  · exact ((h.stores n hn).of_ref hl).2.choose_spec.2.1

/-- Cells stay stocked as long as they and their lists are left alone. -/
theorem frame (h : Stocked s X ns) (hXY : X ⊆ Y) (hsame : ∀ l ∈ heldBy s ns, t.get? l = s.get? l) :
    Stocked t Y ns := by
  have hcell : ∀ n ∈ ns, t.get? n.cell = s.get? n.cell := fun n hn => hsame _ ⟨n, hn, .inl rfl⟩
  have hslots : ∀ n ∈ ns, t.slots n.cell = s.slots n.cell := fun n hn => Store.slots_of_same (hcell n hn)
  refine ⟨fun n hn => hXY (h.cells n hn), fun n hn => ?_, h.kinds, ?_, ?_⟩
  · exact (h.stores n hn).transport hXY rfl (hcell n hn) fun l hl => hsame l ⟨n, hn, .inr hl⟩
  · intro n hn m hm l hl hl'
    exact h.lists n hn m hm l ((hslots n hn).symm.trans hl) ((hslots m hm).symm.trans hl')
  · intro n hn l hl
    exact h.listed n hn l ((hslots n hn).symm.trans hl)

theorem noted_frame (hsame : ∀ l ∈ heldBy s ns, t.get? l = s.get? l) (hn : n ∈ ns) :
    t.noted n.cell = s.noted n.cell :=
  Store.noted_of_same (hsame _ ⟨n, hn, .inl rfl⟩) fun l hl => hsame l ⟨n, hn, .inr hl⟩

end Stocked

/-! ## Advancing a cell -/

theorem exec_takeNext {c : Loc} {a b : Atom} {k : Int} (hb : b.integer? = some k)
    (hget : w.store.get? c = some (.slots [.atom a, .atom b])) :
    exec (takeNext c) w = (.ok (.atom b),
      { w with store := w.store.put c (.slots [.atom a, .int (k + 1)]) }) := by
  have hslot : w.store.slot c 0 = .atom a ∧ w.store.slot c 1 = .atom b := by
    simp [Store.slot, Store.slots_of_get? hget]
  have hnumeral : b.numeral? = some (.int k) := by
    cases b with
    | float x => cases hb
    | nan m => cases hb
    | _ => simp only [Atom.numeral?, hb, Option.map_some]
  have hviews : (w.store.view (.atom b)).numeral? = some (.int k) ∧
      (w.store.view (.int 1)).numeral? = some (.int 1) := ⟨hnumeral, rfl⟩
  have hsum : exec (sum (.atom b) (.int 1)) w = (.ok (.int (k + 1)), w) := by
    simp only [sum, exec_bind, exec_view, hviews.1, hviews.2]
    rfl
  simp only [takeNext, exec_bind, exec_ask, hslot.1, hslot.2, hsum, exec_put, exec_pure]

theorem exec_seen {c l : Loc} {xs : List Value} (hslots : w.store.get? c = some (.slots [.ref l]))
    (hl : w.store.get? l = some (.list xs)) : exec (seen c) w = (.ok xs, w) := by
  have hslot : w.store.slot c 0 = .ref l := by simp [Store.slot, Store.slots_of_get? hslots]
  simp only [seen, exec_ask, hslot, Store.listItems, hl]

theorem exec_remember {c l : Loc} {xs : List Value} {v : Value}
    (hslots : w.store.get? c = some (.slots [.ref l])) (hl : w.store.get? l = some (.list xs)) :
    exec (remember c v) w = (.ok (), { w with store := w.store.put l (.list (xs ++ [v])) }) := by
  have hslot : w.store.slot c 0 = .ref l := by simp [Store.slot, Store.slots_of_get? hslots]
  simp only [remember, exec_bind, exec_ask, hslot, exec_seen hslots hl, exec_put]

namespace Stocked

/-- Advancing a counter changes the integer that it expects next, and no other notes. -/
theorem putCounter (h : Stocked s X ns) (hg : s.Guarded X) (hn : n ∈ ns) (hk : n.kind? = some .counter)
    {a : Atom} {j k : Int} (ha : a.integer? = some j) :
    Stocked (s.put n.cell (.slots [.atom a, .int k])) X ns ∧
      (s.put n.cell (.slots [.atom a, .int k])).noted n.cell = [.atom a, .int k] ∧
      ∀ m ∈ ns, m.cell ≠ n.cell → (s.put n.cell (.slots [.atom a, .int k])).noted m.cell = s.noted m.cell := by
  have hlt := hg.bounded _ (h.cells n hn)
  have hsame : ∀ l, l ≠ n.cell → (s.put n.cell (.slots [.atom a, .int k])).get? l = s.get? l :=
    fun l hl => Store.get?_put_of_ne hl.symm
  have hget := Store.get?_put_same (o := .slots [.atom a, .int k]) hlt
  have hslots := Store.slots_of_get? hget
  have hother : ∀ m ∈ ns, m.cell ≠ n.cell → ∀ l, s.slots m.cell = [.ref l] → l ≠ n.cell :=
    fun m hm _ l hl heq => h.listed m hm l hl n hn heq.symm
  have hback : ∀ m ∈ ns, ∀ l, (s.put n.cell (.slots [.atom a, .int k])).slots m.cell = [.ref l] →
      s.slots m.cell = [.ref l] := by
    intro m hm l hl
    by_cases heq : m.cell = n.cell
    · rw [heq, hslots] at hl
      cases hl
    · rwa [Store.slots_of_same (hsame _ heq)] at hl
  refine ⟨⟨h.cells, fun m hm => ?_, h.kinds, ?_, ?_⟩, ?_, ?_⟩
  · by_cases heq : m.cell = n.cell
    · unfold Stores
      rw [h.kinds m hm n hn heq, hk, heq]
      exact ⟨a, .int k, j, k, ha, rfl, hget⟩
    · exact (h.stores m hm).transport (fun _ hl => hl) rfl (hsame _ heq) fun l hl =>
        hsame l (hother m hm heq l hl)
  · exact fun m hm m' hm' l hl hl' => h.lists m hm m' hm' l (hback m hm l hl) (hback m' hm' l hl')
  · exact fun m hm l hl => h.listed m hm l (hback m hm l hl)
  · exact Store.noted_of_slots hslots nofun
  · exact fun m hm hne => Store.noted_of_same (hsame _ hne) fun l hl => hsame l (hother m hm hne l hl)

/-- Remembering a value changes the list of a distinct fact, and no other notes. -/
theorem putList (h : Stocked s X ns) (hg : s.Guarded X) (hn : n ∈ ns) {l : Loc} {xs : List Value}
    (hl : s.slots n.cell = [.ref l]) (hxs : ∀ x ∈ xs, x.Bare) :
    Stocked (s.put l (.list xs)) X ns ∧ (s.put l (.list xs)).noted n.cell = xs ∧
      ∀ m ∈ ns, m.cell ≠ n.cell → (s.put l (.list xs)).noted m.cell = s.noted m.cell := by
  obtain ⟨-, ys, hget, hmem, -⟩ := (h.stores n hn).of_ref hl
  have hsame : ∀ m, m ≠ l → (s.put l (.list xs)).get? m = s.get? m := fun m hm => Store.get?_put_of_ne hm.symm
  have hcell : ∀ m ∈ ns, (s.put l (.list xs)).get? m.cell = s.get? m.cell :=
    fun m hm => hsame _ (h.listed n hn l hl m hm)
  have hslots : ∀ m ∈ ns, (s.put l (.list xs)).slots m.cell = s.slots m.cell :=
    fun m hm => Store.slots_of_same (hcell m hm)
  have hput := Store.get?_put_same (o := .list xs) (hg.bounded l hmem)
  refine ⟨⟨h.cells, fun m hm => ?_, h.kinds, ?_, ?_⟩, ?_, ?_⟩
  · by_cases heq : s.slots m.cell = [.ref l]
    · have hk := ((h.stores m hm).of_ref heq).1
      obtain ⟨vs, hvs, -⟩ := (h.stores m hm).slots
      unfold Stores
      rw [hk]
      refine ⟨l, xs, ?_, hput, hmem, hxs⟩
      rw [hcell m hm, hvs, ← heq, Store.slots_of_get? hvs]
    · refine (h.stores m hm).transport (fun _ hl => hl) rfl (hcell m hm) fun l' hl' => hsame l' ?_
      rintro rfl
      exact heq hl'
  · intro m hm m' hm' l' hl' hl''
    exact h.lists m hm m' hm' l' ((hslots m hm).symm.trans hl') ((hslots m' hm').symm.trans hl'')
  · exact fun m hm l' hl' => h.listed m hm l' ((hslots m hm).symm.trans hl')
  · exact Store.noted_of_list ((hslots n hn).trans hl) hput
  · intro m hm hne
    refine Store.noted_of_same (hcell m hm) fun l' hl' => hsame l' ?_
    rintro rfl
    exact hne (h.lists m hm n hn l' hl' hl)

end Stocked

/-! ## Copies -/

/-- The nodes that stay in place and the copied nodes of facts. -/
def withCopies (ns fs : List Fact) (r : Relocation) : List Fact := ns ++ nodesAll (moveAll r.place fs)

theorem move_mem_nodesAll {fs : List Fact} {m : Loc → Loc} (hn : n ∈ nodesAll fs) :
    n.move m ∈ nodesAll (moveAll m fs) := by
  rw [nodesAll_move]
  exact List.mem_map.mpr ⟨n, hn, rfl⟩

theorem move_mem_withCopies {fs : List Fact} {r : Relocation} (hn : n ∈ nodesAll fs) :
    n.move r.place ∈ withCopies ns fs r :=
  List.mem_append_right _ (move_mem_nodesAll hn)

namespace Stocked

section

variable {fs : List Fact}

/-- Cells are stocked together if they hold nothing in common. -/
theorem append (h : Stocked s X ns) (h' : Stocked s X ms) (happart : ∀ l ∈ heldBy s ns, l ∉ heldBy s ms) :
    Stocked s X (ns ++ ms) := by
  have hcell : ∀ n ∈ ns, ∀ m ∈ ms, n.cell ≠ m.cell := fun n hn m hm heq =>
    happart _ ⟨n, hn, .inl rfl⟩ ⟨m, hm, .inl heq⟩
  refine ⟨fun n hn => (List.mem_append.mp hn).elim (h.cells n) (h'.cells n),
    fun n hn => (List.mem_append.mp hn).elim (h.stores n) (h'.stores n), ?_, ?_, ?_⟩
  · intro n hn m hm heq
    rcases List.mem_append.mp hn with hn | hn <;> rcases List.mem_append.mp hm with hm | hm
    · exact h.kinds n hn m hm heq
    · exact absurd heq (hcell n hn m hm)
    · exact absurd heq.symm (hcell m hm n hn)
    · exact h'.kinds n hn m hm heq
  · intro n hn m hm l hl hl'
    rcases List.mem_append.mp hn with hn | hn <;> rcases List.mem_append.mp hm with hm | hm
    · exact h.lists n hn m hm l hl hl'
    · exact (happart l ⟨n, hn, .inr hl⟩ ⟨m, hm, .inr hl'⟩).elim
    · exact (happart l ⟨m, hm, .inr hl'⟩ ⟨n, hn, .inr hl⟩).elim
    · exact h'.lists n hn m hm l hl hl'
  · intro n hn l hl m hm heq
    rcases List.mem_append.mp hn with hn | hn <;> rcases List.mem_append.mp hm with hm | hm
    · exact h.listed n hn l hl m hm heq
    · exact happart l ⟨n, hn, .inr hl⟩ ⟨m, hm, .inl heq.symm⟩
    · exact happart l ⟨m, hm, .inl heq.symm⟩ ⟨n, hn, .inr hl⟩
    · exact h'.listed n hn l hl m hm heq

/-- What cells hold is reached from them. -/
theorem reachable (h : Stocked s X ns) (hg : s.Guarded X) (hfs : ∀ n ∈ nodesAll fs, n ∈ ns) :
    ∀ l ∈ heldBy s (nodesAll fs), l ∈ s.reachable (cellsAll fs) := by
  have hroot : ∀ n ∈ nodesAll fs, n.cell ∈ s.reachable (cellsAll fs) := fun n hn =>
    Store.mem_reachable_root (mem_cellsAll.mpr ⟨n, hn, rfl⟩) (hg.bounded _ (h.cells n (hfs n hn)))
  rintro l ⟨n, hn, rfl | hl⟩
  · exact hroot n hn
  · have hget := Store.get?_of_slots hl (by simp)
    have hmem : l ∈ (Object.slots [.ref l]).refs := by
      simp [Object.refs, Object.values, Value.refsAll, Value.refs]
    exact Store.reachable_closed (hroot n hn) hget hmem (hg.whole.ref_lt hget hmem)

/-- The copy of a cell holds the same, and a copy of its list. -/
theorem copied (h : Stocked s X ns) (hg : s.Guarded X) (hfs : ∀ n ∈ nodesAll fs, n ∈ ns) (hXY : X ⊆ Y)
    (hnew : ∀ l, s.size ≤ l → l < (s.copy (cellsAll fs)).2.size → l ∈ Y) (hn : n ∈ nodesAll fs) :
    let r := (s.copy (cellsAll fs)).1
    let t := (s.copy (cellsAll fs)).2
    (n.move r.place).Stores t Y ∧ t.noted (r.place n.cell) = s.noted n.cell ∧
      ∀ l', t.slots (r.place n.cell) = [.ref l'] → ∃ l, s.slots n.cell = [.ref l] ∧ l' = r.place l := by
  intro r t
  have hreach := h.reachable hg hfs
  have hcopy : ∀ l ∈ s.reachable (cellsAll fs), t.get? (r.place l) = (s.get? l).map (Object.move r) :=
    fun l hl => Store.get?_copy_place hl
  obtain ⟨vs, hget, hvs⟩ := (h.stores n (hfs n hn)).slots
  have hslots := Store.slots_of_get? hget
  have hcell := hcopy _ (hreach _ ⟨n, hn, .inl rfl⟩)
  rw [hget, Option.map_some, Object.move] at hcell
  rcases hvs with hbare | ⟨hk, l, xs, rfl, hl, -, hxs⟩
  · rw [Value.move_bare_all r hbare] at hcell
    have hne : ∀ l, vs ≠ [.ref l] := by
      rintro l rfl
      cases (hbare (.ref l) (by simp)).refs
    refine ⟨?_, ?_, fun l' hl' => ?_⟩
    · refine (h.stores n (hfs n hn)).transport hXY (kind?_move n) ?_ fun l hl => ?_
      · rw [cell_move, hcell, hget]
      · rw [hslots] at hl
        exact absurd hl (hne l)
    · rw [Store.noted_of_slots (Store.slots_of_get? hcell) hne, Store.noted_of_slots hslots hne]
    · rw [Store.slots_of_get? hcell] at hl'
      exact absurd hl' (hne l')
  · have hmem := hreach l ⟨n, hn, .inr hslots⟩
    have hlist := hcopy l hmem
    rw [hl, Option.map_some, Object.move, Value.move_bare_all r hxs] at hlist
    have hcell' : t.get? (r.place n.cell) = some (.slots [.ref (r.place l)]) := hcell
    refine ⟨?_, ?_, fun l' hl' => ?_⟩
    · unfold Stores
      rw [kind?_move, hk, cell_move]
      exact ⟨r.place l, xs, hcell', hlist,
        hnew _ (Store.size_le_copy_place hmem) (Store.lt_size_of_get? hlist), hxs⟩
    · rw [Store.noted_of_list (Store.slots_of_get? hcell') hlist, Store.noted_of_list hslots hl]
    · rw [Store.slots_of_get? hcell'] at hl'
      cases hl'
      exact ⟨l, hslots, rfl⟩

/-- Copies of cells are stocked, and hold new objects only. -/
theorem copies (h : Stocked s X ns) (hg : s.Guarded X) (hfs : ∀ n ∈ nodesAll fs, n ∈ ns) (hXY : X ⊆ Y)
    (hnew : ∀ l, s.size ≤ l → l < (s.copy (cellsAll fs)).2.size → l ∈ Y) :
    let r := (s.copy (cellsAll fs)).1
    let t := (s.copy (cellsAll fs)).2
    Stocked t Y (nodesAll (moveAll r.place fs)) ∧ ∀ l ∈ heldBy t (nodesAll (moveAll r.place fs)), s.size ≤ l := by
  intro r t
  have hreach := h.reachable hg hfs
  have hcopied : ∀ n ∈ nodesAll fs, (n.move r.place).Stores t Y ∧ t.noted (r.place n.cell) = s.noted n.cell ∧
      ∀ l', t.slots (r.place n.cell) = [.ref l'] → ∃ l, s.slots n.cell = [.ref l] ∧ l' = r.place l :=
    fun n hn => h.copied hg hfs hXY hnew hn
  have hplace : ∀ l ∈ heldBy s (nodesAll fs), s.size ≤ r.place l := fun l hl =>
    Store.size_le_copy_place (hreach l hl)
  have hinj : ∀ l ∈ heldBy s (nodesAll fs), ∀ m ∈ heldBy s (nodesAll fs), r.place l = r.place m → l = m :=
    fun l hl m hm => Store.copy_place_inj (hreach l hl) (hreach m hm)
  have hms : ∀ n ∈ nodesAll (moveAll r.place fs), ∃ n' ∈ nodesAll fs, n = n'.move r.place := by
    intro n hn
    rw [nodesAll_move] at hn
    obtain ⟨n', hn', rfl⟩ := List.mem_map.mp hn
    exact ⟨n', hn', rfl⟩
  refine ⟨⟨?_, ?_, ?_, ?_, ?_⟩, ?_⟩
  · intro n' hn'
    obtain ⟨n, hn, rfl⟩ := hms n' hn'
    obtain ⟨vs, hget, -⟩ := (hcopied n hn).1.slots
    rw [cell_move] at hget ⊢
    exact hnew _ (hplace _ ⟨n, hn, .inl rfl⟩) (Store.lt_size_of_get? hget)
  · intro n' hn'
    obtain ⟨n, hn, rfl⟩ := hms n' hn'
    exact (hcopied n hn).1
  · intro n' hn' m' hm' heq
    obtain ⟨n, hn, rfl⟩ := hms n' hn'
    obtain ⟨m, hm, rfl⟩ := hms m' hm'
    rw [cell_move, cell_move] at heq
    rw [kind?_move, kind?_move]
    exact h.kinds n (hfs n hn) m (hfs m hm) (hinj _ ⟨n, hn, .inl rfl⟩ _ ⟨m, hm, .inl rfl⟩ heq)
  · intro n' hn' m' hm' l hl hl'
    obtain ⟨n, hn, rfl⟩ := hms n' hn'
    obtain ⟨m, hm, rfl⟩ := hms m' hm'
    rw [cell_move] at hl hl' ⊢
    obtain ⟨k, hk, rfl⟩ := (hcopied n hn).2.2 l hl
    obtain ⟨k', hk', heq⟩ := (hcopied m hm).2.2 _ hl'
    cases hinj _ ⟨n, hn, .inr hk⟩ _ ⟨m, hm, .inr hk'⟩ heq
    rw [cell_move, h.lists n (hfs n hn) m (hfs m hm) k hk hk']
  · intro n' hn' l hl m' hm' heq
    obtain ⟨n, hn, rfl⟩ := hms n' hn'
    obtain ⟨m, hm, rfl⟩ := hms m' hm'
    rw [cell_move] at hl heq
    obtain ⟨k, hk, rfl⟩ := (hcopied n hn).2.2 l hl
    exact h.listed n (hfs n hn) k hk m (hfs m hm) (hinj _ ⟨m, hm, .inl rfl⟩ _ ⟨n, hn, .inr hk⟩ heq)
  · rintro l ⟨n', hn', hl⟩
    obtain ⟨n, hn, rfl⟩ := hms n' hn'
    rw [cell_move] at hl
    rcases hl with rfl | hl
    · exact hplace _ ⟨n, hn, .inl rfl⟩
    · obtain ⟨k, hk, rfl⟩ := (hcopied n hn).2.2 l hl
      exact hplace _ ⟨n, hn, .inr hk⟩

/-- Cells are stocked beside a copy of them, which has noted the same. -/
theorem copy (h : Stocked s X ns) (hg : s.Guarded X) (hfs : ∀ n ∈ nodesAll fs, n ∈ ns) :
    let r := (s.copy (cellsAll fs)).1
    let t := (s.copy (cellsAll fs)).2
    ∃ Y, Grown s X Y ∧ t.Guarded Y ∧ Stocked t Y (withCopies ns fs r) ∧
      (∀ l ∈ heldBy t (nodesAll (moveAll r.place fs)), s.size ≤ l) ∧
      (∀ n ∈ nodesAll fs, t.noted (r.place n.cell) = s.noted n.cell) ∧
      (∀ n ∈ nodesAll fs, ∀ m ∈ nodesAll fs, r.place n.cell = r.place m.cell → n.cell = m.cell) ∧
      ∀ n ∈ ns, t.noted n.cell = s.noted n.cell := by
  intro r t
  have hold : ∀ l, l < s.size → t.get? l = s.get? l := fun l hl => Store.get?_copy_of_lt hl
  have hsize : s.size ≤ t.size := by
    rw [Store.size_copy]
    exact Nat.le_add_right _ _
  obtain ⟨Y, hY, hnew, hguarded⟩ := hg.grow (hg.whole.copy (cellsAll fs)) rfl hsize fun l hl _ => hold l hl
  obtain ⟨hcopies, hfresh⟩ := h.copies hg hfs hY.old hnew
  have hsame : ∀ l ∈ heldBy s ns, t.get? l = s.get? l := fun l hl => hold l (hg.bounded l (h.held_guarded hl))
  have hheld : heldBy t ns = heldBy s ns := heldBy_of_same fun n hn => hsame _ ⟨n, hn, .inl rfl⟩
  refine ⟨Y, hY, hguarded, (h.frame hY.old hsame).append hcopies fun l hl hmem => ?_, hfresh,
    fun n hn => (h.copied hg hfs hY.old hnew hn).2.1, fun n hn m hm heq => ?_, fun n hn => noted_frame hsame hn⟩
  · rw [hheld] at hl
    exact Nat.not_lt.mpr (hfresh l hmem) (hg.bounded l (h.held_guarded hl))
  · have hreach := h.reachable hg hfs
    exact Store.copy_place_inj (hreach _ ⟨n, hn, .inl rfl⟩) (hreach _ ⟨m, hm, .inl rfl⟩) heq

/-- Cells that have come to hold what others hold, no two the same, are stocked. -/
theorem of_source (h : Stocked s X ms) (hns : ∀ n ∈ ns, n ∈ ms) (source : Fact → Fact)
    (hsource : ∀ n ∈ ns, source n ∈ ms ∧ (source n).kind? = n.kind? ∧ t.get? n.cell = s.get? (source n).cell)
    (hinj : ∀ n ∈ ns, ∀ m ∈ ns, (source n).cell = (source m).cell → n.cell = m.cell)
    (hlist : ∀ n ∈ ms, ∀ l, s.slots n.cell = [.ref l] → t.get? l = s.get? l) : Stocked t X ns := by
  have hslots : ∀ n ∈ ns, t.slots n.cell = s.slots (source n).cell := fun n hn => by
    rw [Store.slots, Store.slots, (hsource n hn).2.2]
  refine ⟨fun n hn => h.cells n (hns n hn), fun n hn => ?_, fun n hn m hm => h.kinds n (hns n hn) m (hns m hm),
    fun n hn m hm l hl hl' => ?_, fun n hn l hl m hm => ?_⟩
  · obtain ⟨hmem, hkind, hget⟩ := hsource n hn
    exact (h.stores _ hmem).transport (fun _ hl => hl) hkind.symm hget (hlist _ hmem)
  · rw [hslots n hn] at hl
    rw [hslots m hm] at hl'
    exact hinj n hn m hm (h.lists _ (hsource n hn).1 _ (hsource m hm).1 l hl hl')
  · rw [hslots n hn] at hl
    exact h.listed _ (hsource n hn).1 l hl m (hns m hm)

/-- Cells that take over what copies of them hold are stocked, and have noted what the copies have noted. -/
theorem commit {r : Relocation} (h : Stocked s X (withCopies ns fs r)) (hg : s.Guarded X)
    (hfs : ∀ n ∈ nodesAll fs, n ∈ ns) (hnew : ∀ n ∈ ns, ∀ m ∈ nodesAll fs, n.cell ≠ r.place m.cell)
    (hinj : ∀ n ∈ nodesAll fs, ∀ m ∈ nodesAll fs, r.place n.cell = r.place m.cell → n.cell = m.cell)
    (hsize : t.size = s.size) (hgiven : t.given = s.given)
    (hother : ∀ l, l ∉ cellsAll fs → t.get? l = s.get? l)
    (hcells : ∀ c ∈ cellsAll fs, t.get? c = some (.slots (s.slots (r.place c)))) :
    t.Guarded X ∧ Stocked t X ns ∧ (∀ n ∈ nodesAll fs, t.noted n.cell = s.noted (r.place n.cell)) ∧
      ∀ n ∈ ns, n.cell ∉ cellsAll fs → t.noted n.cell = s.noted n.cell := by
  have hns : ∀ n ∈ ns, n ∈ withCopies ns fs r := fun n hn => List.mem_append_left _ hn
  have hcopied : ∀ n ∈ nodesAll fs, n.move r.place ∈ withCopies ns fs r := fun n hn => move_mem_withCopies hn
  -- no list that a node holds is a cell that is written to
  have hlist : ∀ n ∈ withCopies ns fs r, ∀ l, s.slots n.cell = [.ref l] → t.get? l = s.get? l := by
    intro n hn l hl
    refine hother l fun hmem => ?_
    obtain ⟨m, hm, rfl⟩ := mem_cellsAll.mp hmem
    exact h.listed n hn _ hl m (hns m (hfs m hm)) rfl
  have hget : ∀ n ∈ nodesAll fs, t.get? n.cell = s.get? (r.place n.cell) := by
    intro n hn
    obtain ⟨vs, hget, -⟩ := (h.stores _ (hcopied n hn)).slots
    rw [cell_move] at hget
    rw [hcells _ (mem_cellsAll.mpr ⟨n, hn, rfl⟩), hget, ← Store.slots_of_get? hget]
  -- a cell has become its copy, or is what it was
  have hsource : ∀ n, ∃ n', n ∈ ns → n' ∈ withCopies ns fs r ∧ n'.kind? = n.kind? ∧
      t.get? n.cell = s.get? n'.cell ∧ ((n.cell ∉ cellsAll fs ∧ n' = n) ∨
        ∃ m ∈ nodesAll fs, m.cell = n.cell ∧ n' = m.move r.place) := by
    intro n
    by_cases hc : n.cell ∈ cellsAll fs
    · obtain ⟨m, hm, hcell⟩ := mem_cellsAll.mp hc
      refine ⟨m.move r.place, fun hn => ⟨hcopied m hm, ?_, ?_, .inr ⟨m, hm, hcell, rfl⟩⟩⟩
      · rw [kind?_move]
        exact h.kinds m (hns m (hfs m hm)) n (hns n hn) hcell
      · rw [← hcell, cell_move]
        exact hget m hm
    · exact ⟨n, fun hn => ⟨hns n hn, rfl, hother _ hc, .inl ⟨hc, rfl⟩⟩⟩
  choose source hsource using hsource
  refine ⟨?_, h.of_source hns source (fun n hn => ?_) (fun n hn m hm heq => ?_) hlist, fun n hn => ?_,
    fun n hn hc => Store.noted_of_same (hother _ hc) (hlist n (hns n hn))⟩
  · refine hg.rewrite (hg.whole.of_objects (Nat.le_of_eq hsize.symm) hgiven fun l o ho => ?_) hgiven hsize
      fun l hl => hother l fun hmem => hl ?_
    · by_cases hl : l ∈ cellsAll fs
      · rw [hcells l hl] at ho
        cases ho
        exact .inl (hsize ▸ hg.whole.slots)
      · exact .inr ((hother l hl).symm.trans ho)
    · obtain ⟨n, hn, rfl⟩ := mem_cellsAll.mp hmem
      exact h.cells n (hns n (hfs n hn))
  · exact ⟨(hsource n hn).1, (hsource n hn).2.1, (hsource n hn).2.2.1⟩
  · rcases (hsource n hn).2.2.2 with ⟨-, hk⟩ | ⟨k, hk, hkn, hk'⟩ <;>
      rcases (hsource m hm).2.2.2 with ⟨-, hl⟩ | ⟨l, hl, hlm, hl'⟩
    · rwa [hk, hl] at heq
    · rw [hk, hl', cell_move] at heq
      exact absurd heq (hnew n hn l hl)
    · rw [hk', hl, cell_move] at heq
      exact absurd heq.symm (hnew m hm k hk)
    · rw [hk', hl', cell_move, cell_move] at heq
      rw [← hkn, ← hlm]
      exact hinj k hk l hl heq
  · have hslots : t.slots n.cell = s.slots (r.place n.cell) := by rw [Store.slots, Store.slots, hget n hn]
    unfold Store.noted
    rw [hslots]
    split
    · next l heq =>
      have hcopy : s.slots (n.move r.place).cell = [.ref l] := by rwa [cell_move]
      simp only [Store.listItems, hlist _ (hcopied n hn) l hcopy]
    · rfl

end

end Stocked

end Fact

end Conform
