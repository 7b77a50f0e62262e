import Conform.Proofs.Snapshot

/-!
# What facts remember

`Fact.state` lists what the counters and the lists of values seen of a fact hold, as trees. It is the same
in a copy, it does not change while the objects that the fact holds do not change, and committing a copy
makes it that of the copy.
-/

namespace Conform

namespace Store

variable {s t : Store} {r : Relocation} {P : Loc → Prop}

/-- A store without the attributes that have been given, which no tree shows. -/
def ungiven (s : Store) : Store := { s with given := [] }

theorem viewAt_ungiven (fuel : Nat) : ∀ (path : List Loc) (l : Loc),
    s.ungiven.viewAt fuel path l = s.viewAt fuel path l := by
  induction fuel with
  | zero =>
    intro path l
    rfl
  | succ fuel ih =>
    intro path l
    have hget : s.ungiven.get? l = s.get? l := rfl
    have hbelow : s.ungiven.viewAt fuel (l :: path) = s.viewAt fuel (l :: path) := funext fun m => ih _ m
    rw [viewAt, viewAt, hget, hbelow]

theorem view_ungiven : s.ungiven.view = s.view := by
  funext v
  have hat : s.ungiven.viewAt (s.objects.size + 1) [] = s.viewAt (s.objects.size + 1) [] :=
    funext fun l => viewAt_ungiven _ [] l
  show v.view (s.ungiven.viewAt (s.objects.size + 1) []) = _
  rw [hat, view]

/-- Objects that refer only to one another, moved, make an image of them, except for attributes. -/
theorem image_of_refs (hmarks : ∀ m, r.mark m = m)
    (hclosed : ∀ l o, P l → s.get? l = some o → ∀ m ∈ o.refs, P m)
    (hget : ∀ l, P l → ∃ o, s.get? l = some o ∧ t.get? (r.place l) = some (o.move r))
    (hinj : ∀ l m, P l → P m → r.place l = r.place m → l = m) :
    Image r {p | ∀ l, p = .object l → P l} False s.ungiven t.ungiven where
  closed := by
    rintro p hp q hq m rfl
    cases p with
    | object l =>
      obtain ⟨o, ho, hq⟩ := hq
      refine hclosed l o (hp l rfl) ho m ?_
      rcases List.mem_append.mp hq with hq | hq
      · exact (Value.object_mem_placesAll _).mp hq
      · cases o with
        | record cls xs extras => simp [RecordClass.places, Atom.places] at hq
        | _ => cases hq
    | attributes w =>
      obtain ⟨a, name, v, -, hmem, -⟩ := hq
      cases hmem
  marks := hmarks
  get := fun l hl => hget l (hl l rfl)
  inj := fun l m hl hm => hinj l m (hl l rfl) (hm m rfl)
  owned := nofun
  given := fun h => h.elim

end Store

namespace Fact

/-- What a node keeps of its use: the integers of a counter, and the values that a distinct fact has seen. -/
def remembers (s : Store) (n : Fact) : List Data :=
  match n.kind? with
  | some .counter => s.viewAll (s.slots n.cell)
  | some .memory => s.viewAll (s.listItems (s.slot n.cell 0))
  | _ => []

/-- What the counters and the lists of values seen of several facts hold. -/
def stateAll (s : Store) (fs : List Fact) : List (List Data) := (nodesAll fs).map (remembers s)

/-- What the counters and the lists of values seen of a fact hold. -/
def state (s : Store) (f : Fact) : List (List Data) := f.nodes.map (remembers s)

theorem stateAll_singleton {s : Store} {f : Fact} : stateAll s [f] = f.state s := by
  rw [stateAll, nodesAll, nodesAll, List.append_nil, state]

section

variable {s t : Store} {r : Relocation} {P : Loc → Prop}

/-- Nodes of one kind whose slots correspond remember the same. -/
theorem remembers_image (h : Store.Image r {p | ∀ l, p = .object l → P l} False s.ungiven t.ungiven)
    {n n' : Fact} (hkind : n'.kind? = n.kind?)
    (hslots : t.slots n'.cell = (s.slots n.cell).map (Value.move r))
    (hrefs : ∀ v ∈ s.slots n.cell, ∀ l ∈ v.refs, P l) : remembers t n' = remembers s n := by
  have hviews : ∀ vs : List Value, (∀ v ∈ vs, ∀ l ∈ v.refs, P l) →
      t.viewAll (vs.map (Value.move r)) = s.viewAll vs := by
    intro vs hvs
    have hview := h.viewAll_eq fun v (hv : v ∈ vs) l hl m heq => by
      cases heq
      exact hvs v hv l hl
    simpa only [Store.viewAll, Store.view_ungiven] using hview
  unfold remembers
  rw [hkind]
  split
  · rw [hslots, hviews _ hrefs]
  · have hslot : t.slot n'.cell 0 = (s.slot n.cell 0).move r := by
      rw [Store.slot, Store.slot, hslots, List.getElem?_map]
      cases (s.slots n.cell)[0]? with
      | none => exact (Value.move_atom h.marks _).symm
      | some v => rfl
    rw [hslot]
    cases hv : s.slot n.cell 0 with
    | ref l =>
      have hl : P l := by
        have hmem : Value.ref l ∈ s.slots n.cell := by
          rw [Store.slot] at hv
          cases hx : (s.slots n.cell)[0]? with
          | none => rw [hx] at hv; cases hv
          | some x =>
            rw [hx] at hv
            cases hv
            exact List.mem_of_getElem? hx
        exact hrefs _ hmem l (by simp [Value.refs])
      have hlR : Place.object l ∈ {p : Place | ∀ l, p = .object l → P l} := by
        rintro m ⟨⟩
        exact hl
      obtain ⟨o, ho, ho'⟩ := h.get l hlR
      have hget : s.get? l = some o := ho
      have hget' : t.get? (r.place l) = some (o.move r) := ho'
      simp only [Value.move, Store.listItems, hget, hget']
      cases o with
      | list xs =>
        rw [Object.move, Value.moveAll_eq_map]
        refine hviews xs fun v hv m hm => ?_
        have hwithin := h.closed.object hlR ho
        exact (Object.within_list.mp hwithin v hv).refers m hm m rfl
      | _ => rfl
    | atom a => cases a <;> rfl
    | _ => rfl
  · rfl

end

namespace Apart

variable {s t : Store} {U : Set Place} {fs : List Fact} {strict : Prop}

/-- Stateless facts remember nothing. -/
theorem remembers_nil (h : Apart s U fs) (hs : fs.any stateful = false) {n : Fact}
    (hn : n ∈ nodesAll fs) {n' : Fact} (hkind : n'.kind? = n.kind?) : remembers t n' = [] := by
  unfold remembers
  rw [hkind]
  split
  · next hk => exact nomatch kindAll_of_stateless h.formed hs n hn _ hk
  · next hk => exact nomatch kindAll_of_stateless h.formed hs n hn _ hk
  · rfl

/-- Facts whose objects have been copied somewhere remember the same there. -/
theorem stateAll_copied (h : Apart s U fs) {r : Relocation}
    (hr : fs.any stateful = true → (∀ m, r.mark m = m) ∧
      (∀ l ∈ s.reachable (cellsAll fs), ∀ m ∈ s.reachable (cellsAll fs),
        r.place l = r.place m → l = m) ∧
      ∀ l ∈ s.reachable (cellsAll fs), t.get? (r.place l) = (s.get? l).map (Object.move r)) :
    stateAll t (moveAll r.place fs) = stateAll s fs := by
  rw [stateAll, stateAll, nodesAll_move, List.map_map]
  refine List.map_congr_left fun n hn => ?_
  show remembers t (n.move r.place) = remembers s n
  cases hs : fs.any stateful with
  | false => rw [h.remembers_nil hs hn (kind?_move n), h.remembers_nil hs hn rfl]
  | true =>
    obtain ⟨hmarks, hinj, hcopy⟩ := hr hs
    have hclosed : ∀ l o, l ∈ s.reachable (cellsAll fs) → s.get? l = some o →
        ∀ m ∈ o.refs, m ∈ s.reachable (cellsAll fs) := fun l o hl ho m hm =>
      Store.reachable_closed hl ho hm (h.whole.ref_lt ho hm)
    have himage : Store.Image r {p | ∀ l, p = .object l → l ∈ s.reachable (cellsAll fs)} False
        s.ungiven t.ungiven := by
      refine Store.image_of_refs hmarks hclosed (fun l hl => ?_) fun l m hl hm => hinj l hl m hm
      obtain ⟨o, ho⟩ := Store.exists_get? (Store.lt_of_mem_reachable hl)
      exact ⟨o, ho, by rw [hcopy l hl, ho, Option.map_some]⟩
    have hmem := h.cell_mem_reachable hn
    refine remembers_image himage (kind?_move n) ?_ ?_
    · rw [cell_move, Store.slots, Store.slots, hcopy _ hmem]
      cases s.get? n.cell with
      | none => rfl
      | some o =>
        cases o with
        | slots vs => exact Value.moveAll_eq_map
        | _ => rfl
    · intro v hv l hl
      cases hget : s.get? n.cell with
      | none => simp [Store.slots, hget] at hv
      | some o =>
        cases o with
        | slots vs =>
          rw [Store.slots_of_get? hget] at hv
          exact hclosed _ _ hmem hget l (Value.mem_refsAll.mpr ⟨v, hv, hl⟩)
        | _ => simp [Store.slots, hget] at hv

/-- Facts remember the same as long as what they hold is not written to. -/
theorem stateAll_same (h : Apart s U fs)
    (hsame : fs.any stateful = true → ∀ l ∈ s.reachable (cellsAll fs), t.get? l = s.get? l) :
    stateAll t fs = stateAll s fs := by
  have hstate := h.stateAll_copied (t := t) (r := ⟨id, id⟩) fun hs => ⟨fun _ => rfl, fun _ _ _ _ heq => heq,
    fun l hl => by
      show t.get? l = _
      rw [hsame hs l hl]
      cases s.get? l with
      | none => rfl
      | some o => rw [Option.map_some, Object.move_id]⟩
  rwa [moveAll_id] at hstate

end Apart

/-! ## Committing -/

open Act

/-- Committing a copy makes the cells hold what their copies hold, and changes nothing else. -/
theorem exec_commitCells {m : Loc → Loc} : ∀ {cs : List Loc} {w : World},
    (∀ c ∈ cs, c < w.store.size) → (∀ c ∈ cs, ∀ d ∈ cs, m c ≠ d) →
    ∃ u, exec (commitCells cs (cs.map m)) w = (.ok (), u) ∧ u.store.size = w.store.size ∧
      u.store.given = w.store.given ∧ (∀ l, l ∉ cs → u.store.get? l = w.store.get? l) ∧
      ∀ c ∈ cs, u.store.get? c = some (.slots (w.store.slots (m c))) := by
  intro cs
  induction cs with
  | nil =>
    intro w _ _
    exact ⟨w, rfl, rfl, rfl, fun _ _ => rfl, nofun⟩
  | cons c cs ih =>
    intro w hlt hne
    have hclt := hlt c (by simp)
    obtain ⟨u, hrun, hsize, hgiven, hother, hcells⟩ :=
      ih (w := { w with store := w.store.put c (.slots (w.store.slots (m c))) })
        (fun d hd => by simpa using hlt d (by simp [hd]))
        fun d hd e he => hne d (by simp [hd]) e (by simp [he])
    refine ⟨u, ?_, ?_, hgiven, ?_, ?_⟩
    · simp only [commitCells, List.map_cons, List.zip_cons_cons]
      exact hrun
    · rw [hsize, Store.size_put]
    · intro l hl
      rw [hother l fun h => hl (by simp [h])]
      exact Store.get?_put_of_ne fun heq => hl (by simp [heq])
    · intro d hd
      by_cases hdcs : d ∈ cs
      · rw [hcells d hdcs, Store.slots_put_of_ne]
        exact fun heq => hne d hd c (by simp) heq.symm
      · have hdc : d = c := by
          rcases List.mem_cons.mp hd with h | h
          · exact h
          · exact absurd h hdcs
        subst hdc
        rw [hother d hdcs, Store.get?_put_same hclt]

namespace Apart

variable {s t q : Store} {U : Set Place} {fs : List Fact} {strict : Prop}

/-- Facts whose cells have taken over what a copy holds remember what the copy remembered. -/
theorem stateAll_commit (h : Apart s U fs) (hq : (Arena.around s U strict).Holds q) (hw : q.Whole)
    {m : Loc → Loc} (hfree : ∀ c ∈ cellsAll fs, (Arena.around s U strict).Free (m c))
    (hslots : ∀ c ∈ cellsAll fs, t.slots c = q.slots (m c))
    (hlate : ∀ l, l < q.size → l ∉ cellsAll fs → t.get? l = q.get? l) :
    stateAll t fs = stateAll q (moveAll m fs) := by
  have hcells : ∀ c ∈ cellsAll fs, Place.object c ∉ s.around U := by
    rintro c hc (hmem | ⟨l, heq, hle⟩)
    · obtain ⟨n, hn, rfl⟩ := mem_cellsAll.mp hc
      exact h.outside n (List.mem_append_left _ hn) hmem
    · cases heq
      exact Nat.not_lt.mpr hle (h.cells_lt c hc)
  have himage : Store.Image ⟨id, id⟩
      {p | ∀ l, p = .object l → Place.object l ∈ s.around U ∧ l < q.size} False q.ungiven t.ungiven := by
    refine Store.image_of_refs (fun _ => rfl) ?_ ?_ fun _ _ _ _ heq => heq
    · intro l o hl ho m hm
      refine ⟨hq.closed _ hl.1 _ ⟨o, ho, List.mem_append_left _ ?_⟩, hw.ref_lt ho hm⟩
      exact (Value.object_mem_placesAll _).mpr hm
    · intro l hl
      obtain ⟨o, ho⟩ := Store.exists_get? hl.2
      refine ⟨o, ho, ?_⟩
      rw [Object.move_id, ← ho]
      exact hlate l hl.2 fun hmem => hcells l hmem hl.1
  rw [stateAll, stateAll, nodesAll_move, List.map_map]
  refine List.map_congr_left fun n hn => ?_
  show remembers t n = remembers q (n.move m)
  have hc := mem_cellsAll.mpr ⟨n, hn, rfl⟩
  refine remembers_image himage (kind?_move n).symm ?_ ?_
  · rw [cell_move, hslots _ hc, List.map_congr_left fun v _ => Value.move_id v, List.map_id']
  · intro v hv l hl
    rw [cell_move] at hv
    refine ⟨(hq.slots_within (hfree _ hc).2 v hv).refers l hl, ?_⟩
    exact Value.bound_le.mp (Value.boundAll_le.mp hw.slots v hv) l hl

end Apart

end Fact

end Conform
