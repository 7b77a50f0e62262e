import Conform.Proofs.Interleaving
import Conform.Proofs.Passing

/-!
# Copies that keep abreast

A copy of a fact keeps abreast if it has noted what the fact has noted (`Fact.Abreast`). Then what it holds is what the
fact holds, moved (`Fact.Abreast.copiedTo`), so it checks as the fact does, and remembers the same
(`Fact.Abreast.state`). What a leaf has noted after a check depends only on what it has been used on
(`Fact.Stocked.visits`).
-/

namespace Conform

open Act Conform.Store

namespace Fact

variable {ns ms : List Fact} {f n : Fact} {s t : Store} {X Y : Set Loc} {v x y : Value} {k : CellKind}
  {c : Loc} {xs vs ys : List Value}

/-! ## Notes of a use -/

/-- What the notes of a cell are when its leaf has been used on a value. -/
def note : CellKind → List Value → Value → List Value
  | .memory, xs, v => xs ++ [v]
  | .counter, [first, .atom b], _ =>
    match b.integer? with
    | some k => [first, .int (k + 1)]
    | none => [first, .atom b]
  | _, xs, _ => xs

theorem note_counter {first : Value} {b : Atom} {j : Int} (hb : b.integer? = some j) :
    note .counter [first, .atom b] v = [first, .int (j + 1)] := by
  simp only [note, hb]

/-- Values that are noted are noted one after the other. -/
theorem Noting.foldl {exact : Prop} (h : Noting exact k xs vs ys) : vs.foldl (note k) xs = ys := by
  induction h with
  | none => rfl
  | next hj _ _ ih => rw [List.foldl_cons, note_counter hj, ih]
  | unseen _ _ ih => exact ih

/-- A counter notes any value as it notes another one. -/
theorem note_counter_congr : note .counter xs x = note .counter xs y := by
  unfold note
  split <;> simp_all

theorem NotedAlike.foldl : ∀ {vs ws xs : List Value}, NotedAlike k vs ws →
    vs.foldl (note k) xs = ws.foldl (note k) xs := by
  intro vs
  induction vs with
  | nil =>
    intro ws xs h
    rw [List.length_eq_zero_iff.mp h.length.symm]
  | cons v vs ih =>
    intro ws xs h
    cases ws with
    | nil => cases h.length
    | cons w ws =>
      by_cases hk : k = .counter
      · subst hk
        rw [List.foldl_cons, List.foldl_cons, note_counter_congr (y := w)]
        exact ih ⟨Nat.succ.inj h.length, fun hne => absurd rfl hne⟩
      · rw [h.same hk]

theorem Stocked.primed (h : Stocked s X ns) : Primed s ns where
  counters := fun n hn hk => by
    obtain ⟨a, b, j, k, -, hb, hget⟩ := (h.stores n hn).counter hk
    exact ⟨a, b, k, hb, hget⟩
  memories := fun n hn hk => by
    obtain ⟨l, xs, hget, hl, -⟩ := (h.stores n hn).memory hk
    exact ⟨l, xs, hget, hl⟩

/-- What a visit leaves of cells: what is stocked stays so, and the leaf has noted the value. -/
structure Visited (ns : List Fact) (s : Store) (X : Set Loc) (xs : List Visit) (t : Store) : Prop where
  guarded : t.Guarded X
  stocked : Stocked t X ns
  noted : ∀ n ∈ ns, ∀ k, n.kind? = some k → t.noted n.cell = (Visit.valuesAt n.cell xs).foldl (note k) (s.noted n.cell)

/-- A leaf that remembers may be used on values that refer to nothing. -/
theorem Stocked.visit (h : Stocked s X ns) (hg : s.Guarded X) (hn : n ∈ ns) (ha : n.NotesVisits)
    (hv : n.kind? = some .memory → v.Bare) : Visited ns s X [⟨n.cell, v⟩] (s.advance ⟨n.cell, v⟩) := by
  -- other cells keep their notes
  have hnoted : ∀ {t : Store} {k : CellKind}, n.kind? = some k → t.noted n.cell = note k (s.noted n.cell) v →
      (∀ m ∈ ns, m.cell ≠ n.cell → t.noted m.cell = s.noted m.cell) → ∀ m ∈ ns, ∀ j, m.kind? = some j →
        t.noted m.cell = (Visit.valuesAt m.cell [⟨n.cell, v⟩]).foldl (note j) (s.noted m.cell) := by
    intro t k hk hself hother m hm j hj
    rw [Visit.valuesAt_cons, Visit.valuesAt_nil, List.append_nil]
    by_cases heq : n.cell = m.cell
    · have hkind := h.kinds m hm n hn heq.symm
      rw [hj, hk] at hkind
      cases hkind
      rw [if_pos heq, ← heq, hself]
      rfl
    · rw [if_neg heq, hother m hm fun hne => heq hne.symm]
      rfl
  rcases ha with hk | hk
  · obtain ⟨a, b, i, j, ha, hb, hget⟩ := (h.stores n hn).counter hk
    rw [Store.advance_counter hget hb]
    obtain ⟨hst, hself, hother⟩ := h.putCounter hg hn hk (k := j + 1) ha
    refine ⟨hg.put (h.cells n hn) (Nat.zero_le _), hst, hnoted hk ?_ hother⟩
    rw [hself, Store.noted_of_slots (Store.slots_of_get? hget) fun _ hl => (by cases hl), note_counter hb]
  · obtain ⟨l, xs, hget, hl, hmem, hxs⟩ := (h.stores n hn).memory hk
    rw [Store.advance_memory hget hl]
    have hslots := Store.slots_of_get? hget
    have hbare : ∀ x ∈ xs ++ [v], x.Bare := by
      intro x hx
      rcases List.mem_append.mp hx with hx | hx
      · exact hxs x hx
      · rw [List.mem_singleton.mp hx]
        exact hv hk
    obtain ⟨hst, hself, hother⟩ := h.putList hg hn hslots hbare
    refine ⟨hg.put hmem ?_, hst, hnoted hk ?_ hother⟩
    · rw [Object.bound, Object.values, Value.boundAll, (Value.bare_all hbare).1]
      exact Nat.zero_le _
    · rw [hself, Store.noted_of_list hslots hl]
      rfl

/-- So may leaves one after the other. -/
theorem Stocked.visits {zs : List Visit} (h : Stocked s X ns) (hg : s.Guarded X) (hzs : VisitsOf ns zs)
    (hbare : ∀ z ∈ zs, ∀ n ∈ ns, n.kind? = some .memory → n.cell = z.cell → z.value.Bare) :
    Visited ns s X zs (zs.foldl Store.advance s) := by
  induction zs generalizing s with
  | nil => exact ⟨hg, h, fun _ _ _ _ => rfl⟩
  | cons z zs ih =>
    obtain ⟨cell, value⟩ := z
    obtain ⟨n, hn, ha, hcell⟩ := hzs ⟨cell, value⟩ (by simp)
    obtain rfl : n.cell = cell := hcell
    have hfirst := h.visit hg hn ha fun hk => hbare ⟨n.cell, value⟩ (by simp) n hn hk rfl
    obtain ⟨hg', hst, hnoted⟩ := ih hfirst.stocked hfirst.guarded (fun z hz => hzs z (by simp [hz]))
      fun z hz => hbare z (by simp [hz])
    refine ⟨hg', hst, fun m hm j hj => ?_⟩
    rw [List.foldl_cons, hnoted m hm j hj, hfirst.noted m hm j hj, ← List.foldl_append, ← valuesAt_append]
    rfl

/-! ## What facts hold -/

section

variable {fs : List Fact} {U V : Set Place} {l : Loc}

/-- What cells hold refers to lists only, no cell is one, and nothing stands for a missing part. -/
theorem Stocked.held_object (h : Stocked s X ns) {o : Object} (hl : l ∈ heldBy s ns) (ho : s.get? l = some o) :
    Value.absentMarksAll o.values = [] ∧ ∀ r ∈ o.refs, (∃ n ∈ ns, n.cell = l ∧ s.slots n.cell = [.ref r]) := by
  have hbare : ∀ zs : List Value, (∀ z ∈ zs, z.Bare) → o.values = zs → Value.absentMarksAll o.values = [] ∧
      ∀ r ∈ o.refs, (∃ n ∈ ns, n.cell = l ∧ s.slots n.cell = [.ref r]) := by
    rintro zs hzs rfl
    refine ⟨(Value.bare_all hzs).2, fun r hr => ?_⟩
    rw [Object.refs, (Value.bare_all hzs).1] at hr
    cases hr
  obtain ⟨n, hn, rfl | hlist⟩ := hl
  · obtain ⟨vs, hget, hvs⟩ := (h.stores n hn).slots
    rw [ho] at hget
    cases hget
    rcases hvs with hvs | ⟨-, m, -, rfl, -⟩
    · exact hbare vs hvs rfl
    · refine ⟨rfl, fun r hr => ⟨n, hn, rfl, ?_⟩⟩
      simp only [Object.refs, Object.values, Value.refsAll, Value.refs, List.append_nil, List.mem_singleton] at hr
      rw [hr]
      exact Store.slots_of_get? ho
  · obtain ⟨-, zs, hget, -, hzs⟩ := (h.stores n hn).of_ref hlist
    rw [ho] at hget
    cases hget
    exact hbare zs hzs rfl

/-- Nothing is reached from cells but what they hold. -/
theorem Stocked.reached (h : Stocked s X ns) (hfs : ∀ n ∈ nodesAll fs, n ∈ ns) :
    ∀ l ∈ s.reachable (cellsAll fs), l ∈ heldBy s (nodesAll fs) := by
  refine Store.reachable_subset (fun l hl => ?_) fun l o hl ho r hr => ?_
  · obtain ⟨n, hn, rfl⟩ := mem_cellsAll.mp hl
    exact ⟨n, hn, .inl rfl⟩
  · obtain ⟨n, hn, -, hslots⟩ := ((h.subset hfs).held_object hl ho).2 r hr
    exact ⟨n, hn, .inr hslots⟩

/-- Nothing that is reached from cells refers to a cell. -/
theorem Stocked.reached_refs (h : Stocked s X ns) (hfs : ∀ n ∈ nodesAll fs, n ∈ ns) :
    ∀ l ∈ s.reachable (cellsAll fs), ∀ o, s.get? l = some o →
      Value.absentMarksAll o.values = [] ∧ ∀ r ∈ o.refs, r ∉ cellsAll fs := by
  intro l hl o ho
  obtain ⟨hmarks, hrefs⟩ := (h.subset hfs).held_object (h.reached hfs l hl) ho
  refine ⟨hmarks, fun r hr hmem => ?_⟩
  obtain ⟨n, hn, -, hslots⟩ := hrefs r hr
  obtain ⟨m, hm, heq⟩ := mem_cellsAll.mp hmem
  exact h.listed n (hfs n hn) r hslots m (hfs m hm) heq

/-- Facts whose cells are stocked are apart from every region that holds nothing of theirs. -/
theorem Stocked.apart (h : Stocked s X ns) (hg : s.Guarded X) (htame : Tame fs) (hns : ∀ n ∈ everyNodeAll fs, n ∈ ns)
    (htree : ∀ n ∈ chosenAll fs, n.cell ∉ cellsAll fs) (hU : s.Region U) (hattrs : ∀ o, Place.attributes o ∈ U)
    (hheld : ∀ l ∈ heldBy s ns, Place.object l ∉ U) : Apart s U fs := by
  have hfs : ∀ n ∈ nodesAll fs, n ∈ ns := fun n hn => hns n (List.mem_append_left _ hn)
  have hfresh : ∀ l ∈ s.reachable (cellsAll fs), Place.object l ∉ U := fun l hl =>
    hheld l (heldBy_mono hfs (h.reached hfs l hl))
  refine ⟨htame, hg.whole, hU, hattrs, fun n hn => hg.bounded _ (h.cells n (hns n hn)),
    fun n hn => hheld _ ⟨n, hns n hn, .inl rfl⟩, htree, fun n hn => ?_, fun n hn z hz => ?_,
    fun _ => hfresh, fun _ => h.reached_refs hfs⟩
  · have hstores := h.stores n (hns n hn)
    unfold Keeps
    split
    · next hk =>
      obtain ⟨vs, hget, hvs | ⟨hk', -⟩⟩ := hstores.slots
      · rw [Store.slots_of_get? hget]
        exact fun z hz => ⟨(hvs z hz).refs, (hvs z hz).marks⟩
      · rw [hk] at hk'
        cases hk'
    · next hk =>
      obtain ⟨a, b, i, j, -, hb, hget⟩ := hstores.counter hk
      exact ⟨a, b, j, hb, hget⟩
    · next hk =>
      obtain ⟨l, zs, hget, hl, -⟩ := hstores.memory hk
      exact ⟨l, zs, Store.slots_of_get? hget, hl⟩
    · trivial
  · -- a node that is used in place remembers nothing
    obtain ⟨vs, hget, hvs | ⟨hk, -⟩⟩ := (h.stores n (hns n (mem_inPlace hn))).slots
    · rw [Store.slots_of_get? hget] at hz
      exact Value.within_of_refs hattrs (hvs z hz).refs
    · exfalso
      unfold inPlace at hn
      split at hn
      · cases kindAll_of_chosen htame.formed n hn _ hk
      · next hs =>
        rcases List.mem_append.mp hn with hn | hn
        · cases kindAll_of_stateless htame.formed (Bool.not_eq_true _ ▸ hs) n hn _ hk
        · cases kindAll_of_chosen htame.formed n hn _ hk

end

/-! ## Copies that keep abreast -/

/-- Whether a copy of a fact that has its cells elsewhere is stocked in a store, among some nodes, and has noted there
what the fact has noted in another store. -/
structure Abreast (f : Fact) (s : Store) (ms : List Fact) (m : Loc → Loc) (t : Store) (Y : Set Loc) : Prop where
  guarded : t.Guarded Y
  stocked : Stocked t Y ms
  nodes : ∀ n ∈ f.nodes, n.move m ∈ ms
  inj : ∀ n ∈ f.nodes, ∀ n' ∈ f.nodes, m n.cell = m n'.cell → n.cell = n'.cell
  noted : ∀ n ∈ f.nodes, n.kind?.isSome → t.noted (m n.cell) = s.noted n.cell

/-- The list that a cell refers to. -/
def list? (s : Store) (c : Loc) : Option Loc :=
  match s.slots c with
  | [.ref l] => some l
  | _ => none

theorem list?_eq {l : Loc} : list? s c = some l ↔ s.slots c = [.ref l] := by
  unfold list?
  constructor
  · intro h
    split at h
    · next heq =>
      cases h
      exact heq
    · cases h
  · intro h
    rw [h]

/-- Where the cells of a fact, and the lists in them, have gone to in a copy of the fact. -/
def relocation (f : Fact) (s : Store) (m : Loc → Loc) (t : Store) : Relocation where
  place l :=
    if l ∈ f.cells then m l
    else match f.nodes.find? fun n => list? s n.cell == some l with
      | some n => (list? t (m n.cell)).getD l
      | none => l
  mark := id

section

variable {U V : Set Place} {m : Loc → Loc} {l l' : Loc}

theorem place_cell (hn : n ∈ f.nodes) : (relocation f s m t).place n.cell = m n.cell := by
  refine if_pos ?_
  rw [← map_cell_nodes]
  exact List.mem_map.mpr ⟨n, hn, rfl⟩

theorem move_relocation : f.move (relocation f s m t).place = f.move m :=
  move_congr fun _ hc => if_pos hc

theorem place_other (hl : l ∉ heldBy s f.nodes) : (relocation f s m t).place l = l := by
  have hcell : l ∉ f.cells := fun hc => by
    rw [← map_cell_nodes] at hc
    obtain ⟨n, hn, rfl⟩ := List.mem_map.mp hc
    exact hl ⟨n, hn, .inl rfl⟩
  have hlist : f.nodes.find? (fun n => list? s n.cell == some l) = none :=
    List.find?_eq_none.mpr fun n hn heq => hl ⟨n, hn, .inr (list?_eq.mp (by simpa using heq))⟩
  simp only [relocation, if_neg hcell, hlist]

theorem place_list (hs : Stocked s X ns) (hns : ∀ n ∈ f.nodes, n ∈ ns) (hn : n ∈ f.nodes)
    (hl : s.slots n.cell = [.ref l]) (hl' : t.slots (m n.cell) = [.ref l']) :
    (relocation f s m t).place l = l' := by
  have hcell : l ∉ f.cells := fun hc => by
    rw [← map_cell_nodes] at hc
    obtain ⟨n', hn', heq⟩ := List.mem_map.mp hc
    exact hs.listed n (hns n hn) l hl n' (hns n' hn') heq
  obtain ⟨n', hfind⟩ : ∃ n', f.nodes.find? (fun n => list? s n.cell == some l) = some n' := by
    refine Option.isSome_iff_exists.mp (List.find?_isSome.mpr ⟨n, hn, ?_⟩)
    simpa using list?_eq.mpr hl
  have hslots : s.slots n'.cell = [.ref l] := list?_eq.mp (by simpa using List.find?_some hfind)
  have hsame : n'.cell = n.cell :=
    hs.lists n' (hns n' (List.mem_of_find?_eq_some hfind)) n (hns n hn) l hslots hl
  simp only [relocation, if_neg hcell, hfind, hsame, list?_eq.mpr hl', Option.getD_some]

/-- What a cell of a copy holds that keeps abreast. -/
theorem Abreast.slots (h : Abreast f s ms m t Y) (hs : Stocked s X ns) (hns : ∀ n ∈ f.nodes, n ∈ ns)
    (hn : n ∈ f.nodes) (hk : n.kind? = some k) :
    (∃ vs, s.get? n.cell = some (.slots vs) ∧ t.get? (m n.cell) = some (.slots vs) ∧ ∀ x ∈ vs, x.Bare) ∨
      ∃ l l' xs, s.get? n.cell = some (.slots [.ref l]) ∧ t.get? (m n.cell) = some (.slots [.ref l']) ∧
        s.get? l = some (.list xs) ∧ t.get? l' = some (.list xs) ∧ ∀ x ∈ xs, x.Bare := by
  have hnoted := h.noted n hn (by rw [hk]; rfl)
  have hstores := hs.stores n (hns n hn)
  have hstores' := h.stocked.stores _ (h.nodes n hn)
  have hk' : (n.move m).kind? = some k := (kind?_move n).trans hk
  by_cases hmemory : k = .memory
  · subst hmemory
    obtain ⟨l, xs, hget, hl, -, hxs⟩ := hstores.memory hk
    obtain ⟨l', xs', hget', hl', -⟩ := hstores'.memory hk'
    rw [cell_move] at hget'
    rw [Store.noted_of_list (Store.slots_of_get? hget) hl,
      Store.noted_of_list (Store.slots_of_get? hget') hl'] at hnoted
    exact .inr ⟨l, l', xs, hget, hget', hl, hnoted ▸ hl', hxs⟩
  · have hbare : ∀ {u : Store} {Z : Set Loc} {n' : Fact}, n'.Stores u Z → n'.kind? = some k →
        ∃ vs, u.get? n'.cell = some (.slots vs) ∧ u.noted n'.cell = vs ∧ ∀ x ∈ vs, x.Bare := by
      intro u Z n' hst hkn
      obtain ⟨vs, hget, hvs | ⟨hmem, -⟩⟩ := hst.slots
      · refine ⟨vs, hget, Store.noted_of_slots (Store.slots_of_get? hget) ?_, hvs⟩
        rintro l rfl
        cases (hvs (.ref l) (by simp)).refs
      · rw [hkn] at hmem
        cases hmem
        exact absurd rfl hmemory
    obtain ⟨vs, hget, heq, hvs⟩ := hbare hstores hk
    obtain ⟨vs', hget', heq', -⟩ := hbare hstores' hk'
    rw [cell_move] at hget' heq'
    rw [heq, heq'] at hnoted
    exact .inl ⟨vs, hget, hnoted ▸ hget', hvs⟩

theorem nodesAll_singleton : nodesAll [f] = f.nodes := by
  rw [nodesAll, nodesAll, List.append_nil]

/-- What a copy holds that keeps abreast is what the fact holds, moved, beside a region that is the same and in which
nothing of it lies. -/
theorem Abreast.copiedTo (h : Abreast f s ms m t Y) (hapart : Apart s V [f]) (hs : Stocked s X ns)
    (hns : ∀ n ∈ f.nodes, n ∈ ns)
    (hnew : ∀ l ∈ heldBy t (f.move m).nodes, Place.object l ∉ V ∧ ∀ n ∈ f.chosen, l ≠ n.cell)
    (hregion : ∀ l, Place.object l ∈ V → t.get? l = s.get? l) (hchosen : ∀ n ∈ f.chosen, t.get? n.cell = s.get? n.cell)
    (hgiven : ∀ a name, t.given? a name = s.given? a name) :
    Apart.CopiedTo s V [f] (relocation f s m t) t := by
  have hchosenAll : chosenAll [f] = f.chosen := by rw [chosenAll, chosenAll, List.append_nil]
  have hreached : ∀ l ∈ s.reachable (cellsAll [f]), l ∈ heldBy s f.nodes := fun l hl =>
    nodesAll_singleton ▸ hs.reached (nodesAll_singleton ▸ hns) l hl
  have hmoved : ∀ n ∈ f.nodes, n.move m ∈ (f.move m).nodes := fun n hn => by
    rw [nodes_move]
    exact List.mem_map_of_mem hn
  -- a list of the fact has its counterpart in the list of the copy
  have hlists : ∀ n ∈ f.nodes, ∀ l, s.slots n.cell = [.ref l] → ∃ l' xs, t.slots (m n.cell) = [.ref l'] ∧
      (relocation f s m t).place l = l' ∧ s.get? l = some (.list xs) ∧ t.get? l' = some (.list xs) ∧
        ∀ x ∈ xs, x.Bare := by
    intro n hn l hl
    have hk := ((hs.stores n (hns n hn)).of_ref hl).1
    rcases h.slots hs hns hn hk with ⟨vs, hget, -, hvs⟩ | ⟨l₁, l', xs, hget, hget', hlist, hlist', hxs⟩
    · rw [Store.slots_of_get? hget] at hl
      subst hl
      cases (hvs (.ref l) (by simp)).refs
    · rw [Store.slots_of_get? hget] at hl
      cases hl
      have hl' := Store.slots_of_get? hget'
      exact ⟨l', xs, hl', place_list hs hns hn (Store.slots_of_get? hget) hl', hlist, hlist', hxs⟩
  have hplaced : ∀ l ∈ heldBy s f.nodes, (relocation f s m t).place l ∈ heldBy t (f.move m).nodes := by
    rintro l ⟨n, hn, rfl | hl⟩
    · rw [place_cell hn]
      exact ⟨_, hmoved n hn, .inl (cell_move n).symm⟩
    · obtain ⟨l', xs, hl', heq, -⟩ := hlists n hn l hl
      rw [heq]
      exact ⟨_, hmoved n hn, .inr (by rwa [cell_move])⟩
  refine ⟨fun _ => rfl, fun l hl => place_other fun hmem => hl ?_, fun l hl l' hl' heq => ?_, fun l hl => ?_,
    fun l hl hcell => ?_, hregion, hchosenAll ▸ hchosen, hgiven⟩
  · obtain ⟨n, hn, rfl | hlist⟩ := hmem
    · exact hapart.cell_mem_reachable (nodesAll_singleton ▸ hn)
    · exact hapart.list_mem_reachable (nodesAll_singleton ▸ hn) hlist
  · have hcross : ∀ n ∈ f.nodes, ∀ n' ∈ f.nodes, ∀ l, s.slots n'.cell = [.ref l] →
        (relocation f s m t).place n.cell ≠ (relocation f s m t).place l := by
      intro n hn n' hn' l hl heq
      obtain ⟨l', xs, hslots, hplace, -⟩ := hlists n' hn' l hl
      rw [place_cell hn, hplace] at heq
      exact h.stocked.listed _ (h.nodes n' hn') l' (by rwa [cell_move]) _ (h.nodes n hn) ((cell_move n).trans heq)
    obtain ⟨n, hn, rfl | hl⟩ := hreached l hl <;> obtain ⟨n', hn', rfl | hl'⟩ := hreached l' hl'
    · rw [place_cell hn, place_cell hn'] at heq
      exact h.inj n hn n' hn' heq
    · exact absurd heq (hcross n hn n' hn' l' hl')
    · exact absurd heq.symm (hcross n' hn' n hn l hl)
    · obtain ⟨k, xs, hk, hplace, -⟩ := hlists n hn l hl
      obtain ⟨k', xs', hk', hplace', -⟩ := hlists n' hn' l' hl'
      rw [hplace, hplace'] at heq
      subst heq
      have hcells := h.stocked.lists _ (h.nodes n hn) _ (h.nodes n' hn') k (by rwa [cell_move]) (by rwa [cell_move])
      rw [cell_move, cell_move] at hcells
      rw [h.inj n hn n' hn' hcells, hl'] at hl
      cases hl
      rfl
  · rw [hchosenAll]
    exact hnew _ (hplaced l (hreached l hl))
  · by_cases hc : l ∈ cellsAll [f]
    · obtain ⟨n, hn, rfl, hk⟩ := hcell hc
      rw [nodesAll_singleton] at hn
      obtain ⟨k, hk⟩ := Option.isSome_iff_exists.mp hk
      rw [place_cell hn]
      rcases h.slots hs hns hn hk with ⟨vs, hget, hget', hvs⟩ | ⟨l, l', xs, hget, hget', -⟩
      · rw [hget, hget', Option.map_some, Object.move, Value.move_bare_all _ hvs]
      · rw [hget, hget', Option.map_some, Object.move, Value.moveAll_eq_map, List.map_cons, List.map_nil,
          Value.move, place_list hs hns hn (Store.slots_of_get? hget) (Store.slots_of_get? hget')]
    · obtain ⟨n, hn, rfl | hl⟩ := hreached l hl
      · exact absurd (mem_cellsAll.mpr ⟨n, nodesAll_singleton ▸ hn, rfl⟩) hc
      · obtain ⟨l', xs, -, hplace, hlist, hlist', hxs⟩ := hlists n hn l hl
        rw [hplace, hlist, hlist', Option.map_some, Object.move, Value.move_bare_all _ hxs]

end

/-- A copy keeps abreast as long as what it holds is left alone. -/
theorem Abreast.keep {m : Loc → Loc} {t' : Store} {Z : Set Loc} (h : Abreast f s ms m t Y) (hg : t'.Guarded Z)
    (hst : Stocked t' Z ms) (hsame : ∀ l ∈ heldBy t (f.move m).nodes, t'.get? l = t.get? l) :
    Abreast f s ms m t' Z ∧ heldBy t' (f.move m).nodes = heldBy t (f.move m).nodes := by
  have hmoved : ∀ n ∈ f.nodes, n.move m ∈ (f.move m).nodes := fun n hn => by
    rw [nodes_move]
    exact List.mem_map_of_mem hn
  refine ⟨⟨hg, hst, h.nodes, h.inj, fun n hn hk => ?_⟩, heldBy_of_same fun n hn => hsame n.cell ⟨n, hn, .inl rfl⟩⟩
  rw [← h.noted n hn hk, ← cell_move (m := m) n, Stocked.noted_frame hsame (hmoved n hn)]

/-- A copy that has just been taken keeps abreast, and holds new objects. -/
theorem Stocked.abreast_copy (h : Stocked s X ns) (hg : s.Guarded X) (hns : ∀ n ∈ f.nodes, n ∈ ns) :
    let r := (s.copy f.cells).1
    let t := (s.copy f.cells).2
    ∃ Y, Grown s X Y ∧ Abreast f t (withCopies ns [f] r) r.place t Y ∧
      ∀ l ∈ heldBy t (f.move r.place).nodes, s.size ≤ l := by
  have hnodes : ∀ n ∈ nodesAll [f], n ∈ ns := fun n hn => hns n (nodesAll_singleton (f := f) ▸ hn)
  obtain ⟨Y, hgrown, hguarded, hstocked, hfresh, hnoted, hinj, hstill⟩ := h.copy hg hnodes
  rw [cellsAll_singleton] at hguarded hstocked hfresh hnoted hinj hstill
  have hmem : ∀ n ∈ f.nodes, n ∈ nodesAll [f] := fun n hn => nodesAll_singleton (f := f) ▸ hn
  refine ⟨Y, hgrown, ⟨hguarded, hstocked, fun n hn => move_mem_withCopies (hmem n hn),
    fun n hn n' hn' => hinj n (hmem n hn) n' (hmem n' hn'), fun n hn _ => ?_⟩, fun l hl => hfresh l ?_⟩
  · rw [hnoted n (hmem n hn), hstill n (hns n hn)]
  · exact nodesAll_singleton (f := f.move (s.copy f.cells).1.place) ▸ hl

/-! ## What copies remember -/

/-- Bare values look the same in all stores. -/
theorem viewAll_bare (h : ∀ x ∈ xs, x.Bare) : t.viewAll xs = s.viewAll xs := by
  have himage : Store.Image ⟨id, id⟩ {p | ∀ l, p = .object l → False} False s.ungiven t.ungiven :=
    Store.image_of_refs (fun _ => rfl) (fun _ _ hl => hl.elim) (fun _ hl => hl.elim) fun _ _ hl => hl.elim
  have hview := himage.viewAll_eq fun x (hx : x ∈ xs) l hl => by
    rw [(h x hx).refs] at hl
    cases hl
  rw [List.map_congr_left fun x _ => Value.move_id x, List.map_id'] at hview
  simpa only [Store.viewAll, Store.view_ungiven] using hview

/-- What a leaf that advances remembers are its notes. -/
theorem Stores.remembers (h : n.Stores s X) (ha : n.NotesVisits) :
    n.remembers s = s.viewAll (s.noted n.cell) ∧ ∀ x ∈ s.noted n.cell, x.Bare := by
  rcases ha with hk | hk
  · obtain ⟨a, b, j, k, ha, hb, hget⟩ := h.counter hk
    have hslots := Store.slots_of_get? hget
    rw [Fact.remembers, hk, Store.noted_of_slots hslots fun _ hl => by cases hl]
    refine ⟨by rw [hslots], fun x hx => ?_⟩
    rcases List.mem_pair.mp hx with rfl | rfl
    · exact Value.bare_of_integer ha
    · exact Value.bare_of_integer hb
  · obtain ⟨l, xs, hget, hl, -, hxs⟩ := h.memory hk
    have hslots := Store.slots_of_get? hget
    rw [Fact.remembers, hk, Store.noted_of_list hslots hl]
    refine ⟨?_, hxs⟩
    simp only [Store.slot, hslots, List.getElem?_cons_zero, Option.getD_some, Store.listItems, hl]

/-- A copy that keeps abreast remembers what the fact remembers. -/
theorem Abreast.state {m : Loc → Loc} (h : Abreast f s ms m t Y) (hs : Stocked s X ns) (hns : ∀ n ∈ f.nodes, n ∈ ns) :
    (f.move m).state t = f.state s := by
  rw [Fact.state, Fact.state, nodes_move, List.map_map]
  refine List.map_congr_left fun n hn => ?_
  have hkind : (n.move m).kind? = n.kind? := kind?_move n
  by_cases ha : n.NotesVisits
  · have hk : n.kind?.isSome := by rcases ha with hk | hk <;> rw [hk] <;> rfl
    obtain ⟨hold, hbare⟩ := (hs.stores n (hns n hn)).remembers ha
    obtain ⟨hnew, -⟩ := (h.stocked.stores _ (h.nodes n hn)).remembers (show (n.move m).NotesVisits by
      rwa [NotesVisits, hkind])
    rw [Function.comp_apply, hnew, hold, cell_move, h.noted n hn hk, viewAll_bare hbare]
  · rw [Function.comp_apply, Fact.remembers, Fact.remembers, hkind]
    split
    · next hk => exact absurd (.inl hk) ha
    · next hk => exact absurd (.inr hk) ha
    · rfl

end Fact

end Conform
