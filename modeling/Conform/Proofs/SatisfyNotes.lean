import Conform.Proofs.SnapshotNotes

/-!
# Satisfying and checking note the same

A call of `satisfy` that answers has verified its answer with the fact as it was before the call, and notes the parts
of the answer that the leaves see (`Fact.Concluded`). So whoever checks the answer with another copy of the fact,
which has noted the same before, finds it to pass, and the copy has noted the same afterwards
(`Fact.Concluded.replayed`, `Fact.satisfy_notes_alike`).
-/

namespace Conform

open Act Conform.Store

namespace Fact

variable {ns ms : List Fact} {p : Bool} {f n : Fact} {s t : Store} {X Y : Set Loc} {v x y : Value} {c : Loc}

/-! ## A call that answers -/

theorem ungiving_takeOver {g : Fact} : Act.Ungiving (if f.stateful then f.commit g else pure ()) := by
  split
  · exact ungiving_commitCells
  · exact quiet_pure.ungiving

section

variable {U : Set Place} {w u b : World} {attempts : Int}

/-- What is known of an answer: in a world in which the fact was as before the call, it has passed, and nothing has
changed since but the cells of a stateful fact. -/
structure Verified (f : Fact) (s : Store) (U : Set Place) (y : Value) (b u : World) : Prop where
  ready : Ready s U y b
  passes : ∃ r, (exec (f.check y) b).1 = .ok r ∧ r.ok = true
  same : ∀ l, l < b.store.size → (f.stateful = true → l ∉ f.cells) → u.store.get? l = b.store.get? l
  given : u.store.given = b.store.given
  late : f.stateful = false → (Arena.around s U True).Holds u.store ∧ u.store.Whole

/-- A fact is verified as it checks. -/
theorem Ready.exec_verify (h : Apart w.store U [f]) (hb : Ready w.store U y b) :
    (exec (verify f y) b).1 = (exec (f.check y) b).1 := by
  by_cases hs : f.stateful = true
  · have hcopied := (hb.apart h).check_copiedTo hs ((hb.apart h).copiedTo_copy (any_stateful_singleton.trans hs))
      hb.within_spread rfl (u := { b with store := (b.store.copy (cellsAll [f])).2 }) rfl
    rw [verify, exec_bind, exec_probe_stateful hs, ← cellsAll_singleton, hcopied]
  · rw [verify, exec_bind, exec_probe_stateless (by simpa using hs)]

theorem satisfy_verified (h : Apart w.store U [f]) (hv : v.Within U)
    (hrun : exec (satisfy f v attempts) w = (.ok y, u)) : ∃ b, Verified f w.store U y b u := by
  have hattempts : ¬ attempts < 1 := by
    intro hfew
    rw [satisfy, if_pos hfew] at hrun
    cases hrun
  rw [satisfy, if_neg hattempts] at hrun
  obtain ⟨k, last, x, u₀, htries, hends⟩ := exec_satisfyFrom_run f attempts v w
  have hready := (Ready.tries h hv htries).1
  have hrun' : exec (satisfyFrom f attempts attempts.toNat .pass v) w = (.ok y, u) := hrun
  rw [hrun'] at hends
  generalize hout : (Except.ok y, u) = out at hends
  cases hends with
  | raised _ _ => cases hout
  | exhausted _ => cases hout
  | @satisfied trial _ u' _ _ _ hattempt =>
    obtain ⟨a, b, r, hprobe, hmutate, hverify, hok⟩ := exec_attemptOnce_satisfied hattempt
    obtain ⟨d, hcommit, -, hlate, -⟩ := hready.commit_probe h hprobe hmutate hverify
    obtain ⟨z, hconclude, hz⟩ := exec_concludeAttempt hcommit
    rw [hconclude] at hout
    cases hout
    have hb := (hready.mutate_probe h hprobe hmutate).1
    refine ⟨b, hb, ⟨r, ?_, hok⟩, hz ▸ hlate, ?_, fun hs => ?_⟩
    · rw [← hb.exec_verify h, hverify]
    · have hverified := ungiving_verify h.formed.1 y b
      rw [hverify] at hverified
      have hlast := ungiving_takeOver (f := f) (g := trial) u'
      rw [hcommit] at hlast
      rw [hz, hlast, hverified]
    · obtain ⟨hholds, hwhole, -, -⟩ := hready.attempt h hattempt
      rw [hs] at hcommit
      cases hcommit
      exact hz ▸ ⟨hholds, hwhole⟩

/-- What is known of an answer of a call besides: what the fact holds lies outside the region and is stocked before the
call and after it, and has noted the parts of the answer that it sees. -/
structure Concluded (ns : List Fact) (f : Fact) (s : Store) (U : Set Place) (X : Set Loc) (y : Value) (u : World) :
    Prop where
  apart : Apart s U [f]
  nodes : ∀ n ∈ f.nodes, n ∈ ns
  held : ∀ l ∈ heldBy s f.nodes, l < s.size ∧ Place.object l ∉ U
  before : Stocked s X ns
  verified : ∃ b, Verified f s U y b u
  noted : ∃ p Z, Followed p [f] ∧ (p = true → f.Laid u.store Z y) ∧ ∀ n ∈ f.nodes, ∀ k, n.kind? = some k →
    Noting False k (s.noted n.cell) (noticed u.store p n.cell [f] y) (u.store.noted n.cell)
  after : ∃ Z, u.store.Guarded Z ∧ Stocked u.store Z ns

/-- Beyond the region nothing has changed but the cells of the fact. -/
theorem Concluded.kept (h : Concluded ns f s U X y u) {l : Loc} (hl : l < s.size) (hU : Place.object l ∉ U)
    (hcell : l ∉ f.cells) : u.store.get? l = s.get? l := by
  obtain ⟨b, hb⟩ := h.verified
  rw [hb.same l (Nat.lt_of_lt_of_le hl hb.ready.holds.frame.size) fun _ => hcell]
  exact hb.ready.holds.frame.outside hl hU

theorem Concluded.size (h : Concluded ns f s U X y u) : s.size ≤ u.store.size := by
  obtain ⟨b, hb⟩ := h.verified
  -- every object that there was is there still, a cell because it is stocked
  refine Nat.le_of_not_lt fun hlt => ?_
  have hsize : u.store.size < b.store.size := Nat.lt_of_lt_of_le hlt hb.ready.holds.frame.size
  by_cases hcell : u.store.size ∈ f.cells
  · obtain ⟨Z, hguarded, hstocked⟩ := h.after
    rw [← map_cell_nodes] at hcell
    obtain ⟨n, hn, heq⟩ := List.mem_map.mp hcell
    exact Nat.lt_irrefl _ (heq ▸ hguarded.bounded n.cell (hstocked.cells n (h.nodes n hn)))
  · obtain ⟨o, ho⟩ := Store.exists_get? hsize
    exact Nat.lt_irrefl _ (Store.lt_size_of_get? ((hb.same _ hsize fun _ => hcell).trans ho))

theorem accessors_readsIn {R : Set Place} (h : Tame [f]) (hR : ∀ o, Place.attributes o ∈ R) : f.ReadsIn R := by
  intro n hn a ha
  obtain ⟨hsound, huniform, -⟩ := h.accessors n (List.mem_append_left _ (nodesAll_singleton ▸ hn)) a ha
  cases a with
  | item shown key => exact Value.within_of_refs hR hsound
  | custom m get set => exact huniform
  | _ => trivial

theorem progress_held {l : Loc} (hl : l ∈ progress s ns) : l ∈ heldBy s ns := by
  obtain ⟨n, hn, ⟨-, rfl⟩ | ⟨-, hl⟩⟩ := hl
  · exact ⟨n, hn, .inl rfl⟩
  · exact ⟨n, hn, .inr hl⟩

/-- A region stays one while nothing in it changes. -/
theorem region_of_same {R : Set Place} (h : s.Region R) (hsame : ∀ l, Place.object l ∈ R → t.get? l = s.get? l)
    (hgiven : t.given = s.given) : t.Region R := by
  refine ⟨fun p hp q hq => ?_, fun l hl => ?_⟩
  · cases p with
    | object l =>
      obtain ⟨o, ho, hq⟩ := hq
      exact h.closed _ hp q ⟨o, hsame l hp ▸ ho, hq⟩
    | attributes o =>
      obtain ⟨a, name, x, ha, hmem, hq⟩ := hq
      exact h.closed _ hp q ⟨a, name, x, ha, hgiven ▸ hmem, hq⟩
  · obtain ⟨o, ho⟩ := Store.exists_get? (h.bounded l hl)
    exact Store.lt_size_of_get? ((hsame l hl).trans ho)

/-- What the fact holds is when the answer is verified as it was before the call, and lies outside the region that the
answer does. -/
theorem Concluded.held_verified (h : Concluded ns f s U X y u) (hb : Verified f s U y b u) :
    (∀ l ∈ heldBy s f.nodes, b.store.get? l = s.get? l) ∧
      ∀ l ∈ heldBy b.store f.nodes, Place.object l ∉ Apart.spread s U b.store := by
  have hkept : ∀ l ∈ heldBy s f.nodes, b.store.get? l = s.get? l := fun l hl =>
    hb.ready.holds.frame.outside (h.held l hl).1 (h.held l hl).2
  refine ⟨hkept, fun l hl => ?_⟩
  rw [heldBy_of_same fun n hn => hkept n.cell ⟨n, hn, .inl rfl⟩] at hl
  exact Apart.not_mem_spread (h.held l hl).1 (h.held l hl).2

/-- The region that the answer lies in has not changed since then. -/
theorem Concluded.region_verified (h : Concluded ns f s U X y u) (hb : Verified f s U y b u) {l : Loc}
    (hl : Place.object l ∈ Apart.spread s U b.store) : u.store.get? l = b.store.get? l := by
  refine hb.same l ((hb.ready.apart h.apart).region.bounded l hl) fun _ hcell => ?_
  rw [← map_cell_nodes] at hcell
  obtain ⟨n, hn, rfl⟩ := List.mem_map.mp hcell
  exact (h.held_verified hb).2 n.cell ⟨n, hn, .inl rfl⟩ hl

/-- Whether a copy can follow a call: it keeps abreast of the fact as this was before the call, holds nothing of the
region, and finds the region as the call has left it. -/
structure Follows (f : Fact) (s : Store) (U : Set Place) (u : World) (ms : List Fact) (m : Loc → Loc) (t : Store)
    (Y : Set Loc) : Prop where
  abreast : Abreast f s ms m t Y
  held : ∀ l ∈ heldBy t (f.move m).nodes, l < s.size ∧ Place.object l ∉ U ∧ ∀ n ∈ f.chosen, l ≠ n.cell
  same : ∀ l, Place.object l ∈ s.around U → l < u.store.size → t.get? l = u.store.get? l
  chosen : ∀ n ∈ f.chosen, t.get? n.cell = u.store.get? n.cell
  given : t.given = u.store.given

namespace Follows

variable {m : Loc → Loc}

theorem nodes (hc : Follows f s U u ms m t Y) : ∀ n ∈ (f.move m).nodes, n ∈ ms := fun n hn => by
  rw [nodes_move] at hn
  obtain ⟨n', hn', rfl⟩ := List.mem_map.mp hn
  exact hc.abreast.nodes n' hn'

theorem region_same (hc : Follows f s U u ms m t Y) (h : Concluded ns f s U X y u) (hb : Verified f s U y b u)
    {l : Loc} (hl : Place.object l ∈ Apart.spread s U b.store) : t.get? l = b.store.get? l := by
  obtain ⟨o, ho⟩ := Store.exists_get? ((hb.ready.apart h.apart).region.bounded l hl)
  have hlate := h.region_verified hb hl
  rw [hc.same l hl.1 (Store.lt_size_of_get? (hlate.trans ho)), hlate]

theorem region (hc : Follows f s U u ms m t Y) (h : Concluded ns f s U X y u) (hb : Verified f s U y b u) :
    t.Region (Apart.spread s U b.store) :=
  region_of_same (hb.ready.apart h.apart).region (fun _ hl => hc.region_same h hb hl) (hc.given.trans hb.given)

/-- The copy holds what the fact held when the answer was verified, moved. -/
theorem copiedTo (hc : Follows f s U u ms m t Y) (h : Concluded ns f s U X y u) (hb : Verified f s U y b u) :
    Apart.CopiedTo b.store (Apart.spread s U b.store) [f] (relocation f b.store m t) t := by
  have hapart := hb.ready.apart h.apart
  obtain ⟨hkept, -⟩ := h.held_verified hb
  have habreast : Abreast f b.store ms m t Y := ⟨hc.abreast.guarded, hc.abreast.stocked, hc.abreast.nodes,
    hc.abreast.inj, fun n hn hk => (hc.abreast.noted n hn hk).trans (Stocked.noted_frame hkept hn).symm⟩
  refine habreast.copiedTo hapart ((h.before.subset h.nodes).frame (Set.Subset.refl X) hkept) (fun _ hn => hn)
    (fun l hl => ?_) (fun l hl => hc.region_same h hb hl) (fun n hn => ?_) fun a name => ?_
  · obtain ⟨hlt, hU, hne⟩ := hc.held l hl
    exact ⟨Apart.not_mem_spread hlt hU, hne⟩
  · have hn' : n ∈ chosenAll [f] := List.mem_append_left _ hn
    rw [hc.chosen n hn]
    exact hb.same n.cell (hapart.allocated n (List.mem_append_right _ hn')) fun _ hcell =>
      hapart.tree n hn' (cellsAll_singleton ▸ hcell)
  · rw [Store.given?, hc.given, hb.given, ← Store.given?]

/-- So it checks the answer as the fact has been verified to check it. -/
theorem passes {c : World} (hc : Follows f s U u ms m c.store Y) (h : Concluded ns f s U X y u)
    (hb : Verified f s U y b u) : ∃ r, (exec ((f.move m).check y) c).1 = .ok r ∧ r.ok = true := by
  obtain ⟨hkept, hheld⟩ := h.held_verified hb
  have hstocked : Stocked b.store X f.nodes := (h.before.subset h.nodes).frame (Set.Subset.refl X) hkept
  have hnodes : ∀ n ∈ nodesAll [f], n ∈ f.nodes := fun n hn => nodesAll_singleton (f := f) ▸ hn
  have htwin := (hb.ready.apart h.apart).check_twin (w := b) (u := c)
    (fun l hl => hheld l (nodesAll_singleton (f := f) ▸ hstocked.reached hnodes l hl))
    (fun l hl o ho => (hstocked.reached_refs hnodes l hl o ho).2) (hc.copiedTo h hb) hb.ready.within_spread rfl rfl
  rw [move_relocation] at htwin
  exact htwin ▸ hb.passes

/-- Nothing that the copy holds is read when it is used on the answer. -/
theorem sheltered (hc : Follows f s U u ms m t Y) (h : Concluded ns f s U X y u) (hb : Verified f s U y b u) :
    Sheltered (Apart.spread s U b.store) (f.move m).nodes t := by
  refine ⟨hc.region h hb, hc.abreast.guarded.whole.owned, (hc.abreast.stocked.subset hc.nodes).primed, ?_⟩
  intro l hl
  obtain ⟨hlt, hU, -⟩ := hc.held l (progress_held hl)
  exact Apart.not_mem_spread hlt hU

/-- It passes the answer in the world that the call leaves, as far as anything is read. -/
theorem passing {c : World} (hc : Follows f s U u ms m c.store Y) (h : Concluded ns f s U X y u)
    (hb : Verified f s U y b u) :
    Passing (Apart.spread s U b.store) (f.move m).nodes u.store (f.move m) y := by
  have hapart := hb.ready.apart h.apart
  have hlate : u.store.Region (Apart.spread s U b.store) :=
    region_of_same hapart.region (fun _ hl => h.region_verified hb hl) hb.given
  obtain ⟨r, hrun, hok⟩ := hc.passes h hb
  obtain ⟨Z, hguarded, -⟩ := h.after
  refine ⟨h.apart.formed.1.move, fun _ hn => hn, accessors_readsIn h.apart.toTame.move hapart.attributes,
    hb.ready.within_spread, c, _, r, ⟨hlate, hguarded.whole.owned, hc.sheltered h hb, fun l hl => ?_, hc.given⟩,
    Prod.ext hrun rfl, hok⟩
  exact (hc.region_same h hb hl).trans (h.region_verified hb hl).symm

/-- When it checks the answer, what its leaves are used on is noted as the fact has noted what it has seen, and it
remembers nothing that refers to anything. -/
theorem visits {c : World} (hc : Follows f s U u ms m c.store Y) (h : Concluded ns f s U X y u)
    (hb : Verified f s U y b u) :
    (∀ n ∈ f.nodes, ∀ k, n.kind? = some k →
      (Visit.valuesAt (m n.cell) ((f.move m).visits u.store y)).foldl (note k) (s.noted n.cell) =
        u.store.noted n.cell) ∧
      ∀ z ∈ (f.move m).visits u.store y, ∀ n ∈ ms, n.kind? = some .memory → n.cell = z.cell → z.value.Bare := by
  obtain ⟨p, Z, hfollowed, hlaid, hnoted⟩ := h.noted
  have hpassing := hc.passing h hb
  have halike : ∀ n ∈ f.nodes, ∀ k, n.kind? = some k →
      NotedAlike k (Visit.valuesAt (m n.cell) ((f.move m).visits u.store y)) (noticed u.store p n.cell [f] y) := by
    intro n hn k hk
    have hinj : ∀ n' ∈ nodesAll [f], m n'.cell = m n.cell → n'.cell = n.cell := fun n' hn' heq =>
      hc.abreast.inj n' (nodesAll_singleton (f := f) ▸ hn') n hn heq
    rw [← noticed_move hinj]
    refine Followed.alike_visits hfollowed.move (fun n' hn' heq => ?_) (fun hp => (laid_move f y).mpr (hlaid hp))
      hpassing
    rw [← (kind?_move n).trans hk]
    exact hc.abreast.stocked.kinds n' (hc.nodes n' hn') _ (hc.abreast.nodes n hn) (heq.trans (cell_move n).symm)
  refine ⟨fun n hn k hk => (halike n hn k hk).foldl.trans (hnoted n hn k hk).foldl, fun z hz n hn hk hcell => ?_⟩
  -- what is remembered of the answer is immutable, since it is stocked
  obtain ⟨n₁, hn₁, -, hcell₁⟩ := advances_of_visits hz
  have hmoved : ∃ n' ∈ f.nodes, n'.move m = n₁ := by
    rw [nodes_move] at hn₁
    exact List.mem_map.mp hn₁
  obtain ⟨n', hn', rfl⟩ := hmoved
  rw [cell_move] at hcell₁
  have hk' : n'.kind? = some .memory := by
    rw [← kind?_move, ← hk]
    exact hc.abreast.stocked.kinds _ (hc.abreast.nodes n' hn') n hn (by rw [cell_move, hcell₁, hcell])
  have hseen : z.value ∈ noticed u.store p n'.cell [f] y := by
    rw [← (halike n' hn' _ hk').same fun hk => (by cases hk), Visit.valuesAt]
    exact List.mem_map.mpr ⟨z, List.mem_filter.mpr ⟨hz, by simp [hcell₁]⟩, rfl⟩
  obtain ⟨_, -, hafter⟩ := h.after
  obtain ⟨l, xs, hget, hl, -, hxs⟩ := (hafter.stores n' (h.nodes n' hn')).memory hk'
  have hlist := (hnoted n' hn' _ hk').memory.1
  rw [Store.noted_of_list (Store.slots_of_get? hget) hl] at hlist
  exact hxs z.value (hlist ▸ List.mem_append_right _ hseen)

end Follows

/-- Who checks an answer with a copy that has noted what the fact had noted before the call finds it to pass, and the
copy has noted what the fact has noted after the call. Nothing changes but what the copy holds. -/
theorem Concluded.replayed {m : Loc → Loc} {c : World} (h : Concluded ns f s U X y u)
    (hc : Follows f s U u ms m c.store Y) :
    ∃ r c', exec ((f.move m).check y) c = (.ok r, c') ∧ r.ok = true ∧ Abreast f u.store ms m c'.store Y ∧
      (∀ l, l ∉ heldBy c.store (f.move m).nodes → c'.store.get? l = c.store.get? l) ∧
      (∀ l ∈ heldBy c'.store (f.move m).nodes, l ∈ heldBy c.store (f.move m).nodes) ∧
      c'.store.given = c.store.given := by
  obtain ⟨b, hb⟩ := h.verified
  have hwithin := hb.ready.within_spread
  obtain ⟨r, hpass, hok⟩ := hc.passes h hb
  have hrun : exec ((f.move m).check y) c = (.ok r, (exec ((f.move m).check y) c).2) := Prod.ext hpass rfl
  have hreads : (f.move m).ReadsIn (Apart.spread s U b.store) :=
    accessors_readsIn h.apart.toTame.move (hb.ready.apart h.apart).attributes
  have hsheltered := hc.sheltered h hb
  have hmoved :=
    notes_check hsheltered h.apart.formed.1.move (fun _ hn => hn) hreads hwithin c _ r hsheltered .refl hrun
  have himage : Store.Image ⟨id, id⟩ (Apart.spread s U b.store) True c.store u.store :=
    .of_same (hc.region h hb) hsheltered.owned
      (fun l hl => (h.region_verified hb hl).trans (hc.region_same h hb hl).symm) hc.given.symm
  rw [← visits_same himage hreads hwithin] at hmoved
  obtain ⟨hnotes, hbare⟩ := hc.visits h hb
  have hof : VisitsOf ms ((f.move m).visits u.store y) := visitsOf_visits hc.nodes
  have hvisited := hc.abreast.stocked.visits hc.abreast.guarded hof hbare
  have hon := (hsheltered.primed.foldl_advance (visitsOf_visits (s := u.store) (v := y) fun _ hn => hn)).2
  refine ⟨r, _, hrun, hok, ?_⟩
  rw [hmoved]
  refine ⟨⟨hvisited.guarded, hvisited.stocked, hc.abreast.nodes, hc.abreast.inj, fun n hn hk => ?_⟩,
    fun l hl => hon.same l fun hmem => hl (progress_held hmem), ?_, hon.given⟩
  · obtain ⟨k, hk⟩ := Option.isSome_iff_exists.mp hk
    have hnoted := hvisited.noted _ (hc.abreast.nodes n hn) k ((kind?_move n).trans hk)
    rw [cell_move, hc.abreast.noted n hn (by rw [hk]; rfl), hnotes n hn k hk] at hnoted
    exact hnoted
  · rintro l ⟨n, hn, rfl | hl⟩
    · exact ⟨n, hn, .inl rfl⟩
    · -- the cell of a distinct fact keeps its list
      obtain ⟨hk, -⟩ := (hvisited.stocked.stores n (hc.nodes n hn)).of_ref hl
      have hcell := hon.same _ (hsheltered.primed.cell_notMem hn hk)
      exact ⟨n, hn, .inr ((Store.slots_of_same hcell).symm.trans hl)⟩

/-- Whether a call can be made whose answer is known in this way: nothing that cells hold lies in the region that the
value does, and a fact that advances is tracked and has a value that is poised for it. -/
structure Prepared (ns : List Fact) (p : Bool) (f : Fact) (v : Value) (s : Store) (U : Set Place) (X : Set Loc) :
    Prop where
  apart : Apart s U [f]
  within : v.Within U
  nodes : ∀ n ∈ everyNodeAll [f], n ∈ ns
  guarded : s.Guarded X
  stocked : Stocked s X ns
  held : ∀ l ∈ heldBy s ns, Place.object l ∉ U
  poised : f.stateful = true → Followed p [f] ∧ Poised ns p [f] v s X

theorem Prepared.nodes_mem (h : Prepared ns p f v s U X) : ∀ n ∈ f.nodes, n ∈ ns := fun n hn =>
  h.nodes n (List.mem_append_left _ (nodesAll_singleton (f := f) ▸ hn))

/-- A fact that does not advance leaves all cells as they are. -/
theorem Verified.held_same (h : Verified f s U y b u) (hs : f.stateful = false) {l : Loc} (hl : l < s.size)
    (hU : Place.object l ∉ U) : u.store.get? l = s.get? l := by
  have hsize : s.size ≤ b.store.size := h.ready.holds.frame.size
  rw [h.same l (Nat.lt_of_lt_of_le hl hsize) fun hst => by rw [hs] at hst; cases hst]
  exact h.ready.holds.frame.outside hl hU

/-- What cells hold is stocked among any objects that it is part of. -/
theorem Stocked.narrow (h : Stocked s X ns) (hheld : ∀ l ∈ heldBy s ns, l ∈ Y) : Stocked s Y ns := by
  refine ⟨fun n hn => hheld _ ⟨n, hn, .inl rfl⟩, fun n hn => ?_, h.kinds, h.lists, h.listed⟩
  have hstores := h.stores n hn
  unfold Stores at hstores ⊢
  split at hstores
  · exact hstores
  · obtain ⟨l, xs, hget, hl, -, hxs⟩ := hstores
    exact ⟨l, xs, hget, hl, hheld l ⟨n, hn, .inr (Store.slots_of_get? hget)⟩, hxs⟩
  · exact hstores

/-- What is guarded outside the region is still so. -/
theorem Verified.guarded (h : Verified f s U y b u) (hs : f.stateful = false) (hg : s.Guarded X)
    (hattrs : ∀ o, Place.attributes o ∈ U) : u.store.Guarded {l | l ∈ X ∧ Place.object l ∉ U} := by
  obtain ⟨hholds, hwhole⟩ := h.late hs
  have hkept : ∀ l, l < s.size → Place.object l ∉ U → u.store.get? l = s.get? l := fun l hl hU =>
    h.held_same hs hl hU
  have hsize : s.size ≤ u.store.size := hholds.frame.size
  -- what is in the arena refers to nothing guarded that was there before
  have harena : ∀ q, q ∈ s.around U → q ∈ beyond {l | l ∈ X ∧ Place.object l ∉ U} := by
    rintro q hq l rfl ⟨hl, hnot⟩
    rcases hq with hq | ⟨m, heq, hle⟩
    · exact hnot hq
    · cases heq
      exact Nat.not_lt.mpr hle (hg.bounded l hl)
  refine ⟨hwhole, fun l hl => Nat.lt_of_lt_of_le (hg.bounded l hl.1) hsize, fun p hp q hq => ?_⟩
  by_cases hmem : p ∈ s.around U
  · exact harena q (hholds.closed p hmem q hq)
  · cases p with
    | attributes o => exact absurd (Store.subset_around (hattrs o)) hmem
    | object l =>
      have hnot : Place.object l ∉ U := fun hl => hmem (Store.subset_around hl)
      have hlt : l < s.size := Nat.lt_of_not_le fun hle => hmem (.inr ⟨l, rfl, hle⟩)
      have hX : l ∉ X := fun hl => object_mem_beyond.mp hp ⟨hl, hnot⟩
      obtain ⟨o, ho, hq⟩ := hq
      rw [hkept l hlt hnot] at ho
      exact fun m hm hmX => hg.closed _ (object_mem_beyond.mpr hX) q ⟨o, ho, hq⟩ m hm hmX.1

theorem Prepared.concluded (h : Prepared ns p f v w.store U X) (hrun : exec (satisfy f v attempts) w = (.ok y, u)) :
    Concluded ns f w.store U X y u := by
  have hverified := satisfy_verified h.apart h.within hrun
  have hheld : ∀ l ∈ heldBy w.store ns, l < w.store.size ∧ Place.object l ∉ U := fun l hl =>
    ⟨h.guarded.bounded l (h.stocked.held_guarded hl), h.held l hl⟩
  have hends : (∃ p Z, Followed p [f] ∧ (p = true → f.Laid u.store Z y) ∧ ∀ n ∈ f.nodes, ∀ k, n.kind? = some k →
      Noting False k (w.store.noted n.cell) (noticed u.store p n.cell [f] y) (u.store.noted n.cell)) ∧
        ∃ Z, u.store.Guarded Z ∧ Stocked u.store Z ns := by
    cases hs : f.stateful with
    | true =>
      obtain ⟨hfollowed, hpoised⟩ := h.poised hs
      obtain ⟨Z, x, hcalled⟩ := satisfy_called attempts ⟨h.apart.toTame, hfollowed, h.nodes⟩ hs hpoised
      rw [hrun] at hcalled
      obtain ⟨rfl, hnoted⟩ := hcalled.answer y rfl
      have hleft := hcalled.leaves.poised
      exact ⟨⟨p, Z, hfollowed, (rests_singleton.mp hleft.rests).1, fun n hn k hk =>
        (hnoted n (h.nodes_mem n hn) k hk).mono False.elim⟩, Z, hleft.guarded, hleft.stocked⟩
    | false =>
      obtain ⟨b, hb⟩ := hverified
      have hkept : ∀ l ∈ heldBy w.store ns, u.store.get? l = w.store.get? l := fun l hl =>
        hb.held_same hs (hheld l hl).1 (hheld l hl).2
      have hnarrow : Stocked w.store {l | l ∈ X ∧ Place.object l ∉ U} ns := h.stocked.narrow fun l hl =>
        ⟨h.stocked.held_guarded hl, (hheld l hl).2⟩
      have hfollowed : Followed false [f] := followed_whole.mpr (List.forall_mem_singleton.mpr (.still hs))
      refine ⟨⟨false, X, hfollowed, fun hp => (by cases hp), fun n hn k _ => ?_⟩, _,
        hb.guarded hs h.guarded h.apart.attributes, hnarrow.frame (Set.Subset.refl _) hkept⟩
      rw [noticed_of_stateless h.apart.formed.1 hs, Stocked.noted_frame hkept (h.nodes_mem n hn)]
      exact .none
  exact ⟨h.apart, h.nodes_mem, fun l hl => hheld l (heldBy_mono h.nodes_mem hl), h.stocked,
    hverified, hends.1, hends.2⟩

/-- The places that nothing guarded is among, and those that a value leads to. -/
def surroundings (s : Store) (X : Set Loc) (v : Value) : Set Place := (beyond X ∩ upTo s.size) ∪ s.reach (· = v)

theorem region_surroundings (hg : s.Guarded X) (hv : v.bound ≤ s.size) : s.Region (surroundings s X v) := by
  have hrest : s.Region (beyond X ∩ upTo s.size) :=
    ⟨fun p hp q hq => ⟨hg.closed p hp.1 q hq, hg.whole.closed p hp.2 q hq⟩, fun l hl => hl.2 l rfl⟩
  exact hrest.union (Store.region_reach hg.whole fun x hx => hx ▸ hv)

/-- Before a call a copy of the fact may be taken, which keeps abreast. -/
theorem Poised.prepared (h : Poised ns p [f] v s X) (hsuited : Suited ns p [f])
    (htree : ∀ n ∈ chosenAll [f], n.cell ∉ cellsAll [f])
    (hunshared : ∀ l ∈ heldBy s ns, ¬ s.Reaches v (.object l)) :
    let r := (s.copy f.cells).1
    let t := (s.copy f.cells).2
    ∃ U Y, Prepared (withCopies ns [f] r) p f v t U Y ∧ Abreast f t (withCopies ns [f] r) r.place t Y ∧
      ∀ l ∈ heldBy t (f.move r.place).nodes, l < t.size ∧ Place.object l ∉ U ∧ ∀ n ∈ ns, l ∉ heldBy t [n] := by
  have hmem : ∀ n ∈ f.nodes, n ∈ ns := fun n hn =>
    hsuited.nodes n (List.mem_append_left _ (nodesAll_singleton (f := f) ▸ hn))
  obtain ⟨Y, hgrown, habreast, hfresh⟩ := h.stocked.abreast_copy h.guarded hmem
  intro r t
  have hold : ∀ l, l < s.size → t.get? l = s.get? l := fun l hl => Store.get?_copy_of_lt hl
  have hsize : s.size ≤ t.size := by
    rw [Store.size_copy]
    exact Nat.le_add_right _ _
  have hregion := region_surroundings h.guarded h.bounded
  -- the cells hold what they held, and the copies hold new objects
  have hkept : ∀ n ∈ ns, ∀ l ∈ heldBy t [n], l ∈ heldBy s ns := by
    rintro n hn l ⟨m, hm, hl⟩
    rw [List.mem_singleton.mp hm] at hl
    refine ⟨n, hn, hl.imp_right fun hl => ?_⟩
    rwa [Store.slots_of_same (hold n.cell (h.held_lt ⟨n, hn, .inl rfl⟩))] at hl
  have hheld : ∀ l ∈ heldBy t (withCopies ns [f] r), l ∈ heldBy s ns ∨ s.size ≤ l := by
    rintro l ⟨n, hn, hl⟩
    rcases List.mem_append.mp hn with hn | hn
    · exact .inl (hkept n hn l ⟨n, List.mem_singleton_self n, hl⟩)
    · exact .inr (hfresh l ⟨n, nodesAll_singleton (f := f.move r.place) ▸ hn, hl⟩)
  have hout : ∀ l ∈ heldBy t (withCopies ns [f] r), Place.object l ∉ surroundings s X v := by
    intro l hl hU
    rcases hheld l hl with hmem | hle
    · rcases hU with hU | ⟨x, rfl, hx⟩
      · exact object_mem_beyond.mp hU.1 (h.stocked.held_guarded hmem)
      · exact hunshared l hmem hx
    · exact Nat.not_lt.mpr hle (hregion.bounded l hU)
  have hnodes : ∀ n ∈ everyNodeAll [f], n ∈ withCopies ns [f] r := fun n hn =>
    List.mem_append_left _ (hsuited.nodes n hn)
  have hcopies : ∀ n ∈ (f.move r.place).nodes, n ∈ withCopies ns [f] r := fun n hn =>
    List.mem_append_right _ (nodesAll_singleton (f := f.move r.place) ▸ hn)
  obtain ⟨-, hun⟩ := h.keep hsuited habreast.guarded hgrown hsize fun l hl =>
    hold l (hl.elim h.trail_lt h.held_lt)
  have hstill : Poised (withCopies ns [f] r) p [f] v t Y := by
    refine ⟨habreast.guarded, habreast.stocked, hun.rests h.rests hgrown hsize, fun l hl hmem => ?_,
      Nat.le_trans h.bounded hsize⟩
    rw [hun.trail] at hl
    rcases hheld l hmem with hmem | hle
    · exact h.free l hl hmem
    · exact Nat.not_lt.mpr hle (h.trail_lt hl)
  have hattrs : ∀ o, Place.attributes o ∈ surroundings s X v := fun o =>
    .inl ⟨attributes_mem_beyond, fun l hl => by cases hl⟩
  have hwithin : v.Within (surroundings s X v) := fun p hp => .inr ⟨v, rfl, .named hp⟩
  have happart : Apart t (surroundings s X v) [f] := by
    refine habreast.stocked.apart habreast.guarded hsuited.toTame hnodes htree ?_ hattrs hout
    exact region_of_same hregion (fun l hl => hold l (hregion.bounded l hl)) rfl
  refine ⟨surroundings s X v, Y, ⟨happart, hwithin, hnodes, habreast.guarded, habreast.stocked, hout, fun _ =>
    ⟨hsuited.followed, hstill⟩⟩, habreast, fun l hl => ⟨?_, hout l (heldBy_mono hcopies hl), fun n hn hmem => ?_⟩⟩
  · exact habreast.guarded.bounded l (habreast.stocked.held_guarded (heldBy_mono hcopies hl))
  · exact Nat.not_lt.mpr (hfresh l hl) (h.held_lt (hkept n hn l hmem))

/-- A call of `satisfy` that answers leaves a fact with the same counters and lists of values seen as a check of the
answer leaves a copy of the fact that was taken before the call, and the check passes.

The fact is followed piece by piece or as a whole (`Fact.Followed`): its counters and distinct facts are reached through
labels, lenses and prisms on entries, elements, and conjunctions of lenses and prisms under different texts; or there
are only counters in it, below lenses, labels and conjunctions, beside members that do not advance. In the first case
the objects that lead to what they see are different for different members and elements (`Fact.Poised`). In either case
the value leads to nothing that cells hold. -/
theorem satisfy_notes_alike {g : Fact} (hsuited : Suited ns p [f]) (htree : ∀ n ∈ chosenAll [f], n.cell ∉ cellsAll [f])
    (hpoised : Poised ns p [f] v w.store X) (hunshared : ∀ l ∈ heldBy w.store ns, ¬ w.store.Reaches v (.object l))
    (hrun : exec (do
      let g ← f.copy
      return (g, ← satisfy f v attempts)) w = (.ok (g, y), u)) :
    ∃ r z, exec (g.check y) u = (.ok r, z) ∧ r.ok = true ∧ g.state z.store = f.state u.store := by
  obtain ⟨U, Y, hprepared, habreast, hcopies⟩ := hpoised.prepared hsuited htree hunshared
  obtain ⟨g', w', hcopy, hrun⟩ := exec_bind_ok hrun
  obtain ⟨y', u', hrun, hend⟩ := exec_bind_ok hrun
  rw [exec_copy] at hcopy
  cases hcopy
  cases hend
  have hconcluded := hprepared.concluded (w := ⟨_, _, _⟩) hrun
  -- the call leaves the copy alone
  have hcells : ∀ l ∈ heldBy (w.store.copy f.cells).2 (f.move (w.store.copy f.cells).1.place).nodes,
      u.store.get? l = (w.store.copy f.cells).2.get? l := by
    intro l hl
    obtain ⟨hlt, hU, hne⟩ := hcopies l hl
    refine hconcluded.kept hlt hU fun hcell => ?_
    rw [← map_cell_nodes] at hcell
    obtain ⟨n, hn, rfl⟩ := List.mem_map.mp hcell
    exact hne n (hsuited.nodes n (List.mem_append_left _ (nodesAll_singleton (f := f) ▸ hn)))
      ⟨n, List.mem_singleton_self n, .inl rfl⟩
  obtain ⟨Z, hguarded, hstocked⟩ := hconcluded.after
  obtain ⟨hstill, hheld⟩ := habreast.keep hguarded hstocked hcells
  have hnew : ∀ l ∈ heldBy u.store (f.move (w.store.copy f.cells).1.place).nodes,
      l < (w.store.copy f.cells).2.size ∧ Place.object l ∉ U ∧ ∀ n ∈ f.chosen, l ≠ n.cell := by
    intro l hl
    obtain ⟨hlt, hU, hne⟩ := hcopies l (hheld ▸ hl)
    refine ⟨hlt, hU, fun n hn heq => hne n ?_ ⟨n, List.mem_singleton_self n, .inl heq⟩⟩
    exact hsuited.nodes n (List.mem_append_right _ (List.mem_append_left _ hn))
  obtain ⟨r, z, hcheck, hok, hafter, -⟩ :=
    hconcluded.replayed (c := u) ⟨hstill, hnew, fun _ _ _ => rfl, fun _ _ => rfl, rfl⟩
  exact ⟨r, z, hcheck, hok, hafter.state hstocked hprepared.nodes_mem⟩

end

/-- The batch counts on from seven, and so does a copy of its fact that checks it. -/
theorem satisfy_notes_alike_batch : ∃ g y u r z, exec (do
      let g ← batchFact.copy
      return (g, ← satisfy batchFact (.ref 3) 3)) ticketWorld = (.ok (g, y), u) ∧
    exec (g.check y) u = (.ok r, z) ∧ r.ok = true ∧ g.state z.store = batchFact.state u.store ∧
    (batchFact.state u.store).map (List.map Data.render) = [[], [], ["7", "8"], [], ["3"]] := by
  have hready := (ticket_ready ⟨batchFact, .ref 3, 3⟩ (by simp [ticketCalls])).1
  have hunshared : ∀ l ∈ heldBy ticketWorld.store ticketNodes, ¬ ticketWorld.store.Reaches (.ref 3) (.object l) := by
    intro l hl hreach
    have hclosed : ticketWorld.store.Closed {.object 3} := by
      rintro p rfl q ⟨o, ho, hq⟩
      cases ho
      cases (show q ∈ [] from hq)
    cases hclosed.of_reaches (fun p hp => by simpa [Value.places] using hp) hreach
    exact ticket_stocked.mapping_not_held rfl hl
  have hanswers : ((exec (do
      let g ← batchFact.copy
      return (g, ← satisfy batchFact (.ref 3) 3)) ticketWorld).1.isOk = true ∧
    (batchFact.state (exec (do
      let g ← batchFact.copy
      return (g, ← satisfy batchFact (.ref 3) 3)) ticketWorld).2.store).map (List.map Data.render) =
        [[], [], ["7", "8"], [], ["3"]]) := by
    constructor <;> decide +kernel
  rcases hrun : exec (do
      let g ← batchFact.copy
      return (g, ← satisfy batchFact (.ref 3) 3)) ticketWorld with ⟨e | ⟨g, y⟩, u⟩
  · rw [hrun] at hanswers
    cases hanswers.1
  · rw [hrun] at hanswers
    obtain ⟨r, z, hcheck, hok, hstate⟩ :=
      satisfy_notes_alike hready.suited (List.forall_mem_nil _) hready.poised hunshared hrun
    exact ⟨g, y, u, r, z, rfl, hcheck, hok, hstate, hanswers.2⟩

end Fact

end Conform
