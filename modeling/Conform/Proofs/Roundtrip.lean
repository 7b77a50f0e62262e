import Conform.Proofs.RecordFacts
import Conform.Proofs.SatisfyAttributes

/-!
# Records that are built and checked

Values are built in turn from a template that is a mapping with a record-like fact, and then checked in the same order
with a copy that was taken before. Each value lies on its own (`Fact.Recorder.built`), what is built later leaves it
alone (`Fact.Spares`), and the copy has noted at each value what the fact had noted when it was built
(`Fact.Recorder.rounds`). So all values pass (`Fact.buildSeq_checkSeq`).
-/

namespace Conform

open Act Draw

/-! ## Templates -/

/-- A template stays one while objects other than cells stay. -/
theorem Store.Generable.keep {s t : Store} {deep : Prop}
    (h : ∀ l o, s.get? l = some o → (∀ vs, o ≠ .slots vs) → t.get? l = some o) :
    ∀ {levels : Nat} {v : Value}, s.Generable deep levels v → t.Generable deep levels v := by
  intro levels
  induction levels with
  | zero => exact fun hv => hv
  | succ levels ih =>
    intro v hv
    cases v with
    | atom a => exact hv
    | tuple cls xs => exact fun x hx => ih (hv x hx)
    | frozen cls xs => exact ⟨hv.1, hv.2.1, fun p hp hset => ih (hv.2.2 p hp hset)⟩
    | set xs => exact hv
    | ref l =>
      obtain ⟨o, hget, ho⟩ := hv
      refine ⟨o, h l o hget ?_, ?_⟩
      · rintro vs rfl
        exact ho
      · cases o with
        | list xs => exact fun x hx => ih (ho x hx)
        | mapping es => exact fun e he => ⟨(ho e he).1, ih (ho e he).2⟩
        | record cls xs extras => exact ⟨ho.1, ho.2.1, fun p hp hset => ih (ho.2.2 p hp hset)⟩
        | slots vs => exact ho

namespace Fact

variable {ns ms : List Fact} {f : Fact} {s t : Store} {U : Set Place} {X Y Z : Set Loc} {w u v : World} {y : Value}
  {like : Loc} {attempts : Int}

/-- Whether values may be built in turn from a template, with a fact among some nodes: the fact is record-like and
gives no attributes, what its cells hold is stocked, what is given to classes refers to nothing, and the template has
immutable values where distinct facts see them. -/
structure Recorder (ns : List Fact) (f : Fact) (like : Loc) (s : Store) (X : Set Loc) : Prop where
  recordlike : f.Recordlike
  tame : Tame [f]
  nodes : ∀ n ∈ everyNodeAll [f], n ∈ ns
  tree : ∀ n ∈ chosenAll [f], n.cell ∉ cellsAll [f]
  guarded : s.Guarded X
  stocked : Stocked s X ns
  modest : ∃ owners, f.Modest s owners
  inert : ∀ g ∈ s.given, g.2.2.refs = []
  template : ∃ es, s.get? like = some (.mapping es)
  generable : s.Generable True deepest (.ref like)
  immutable : ∀ n ∈ f.nodes, n.kind? = some .memory → ∀ x ∈ f.watched s n.cell (.ref like), x.Immutable

/-- Whether nothing that was there before has changed but the cells of a fact. -/
structure Spares (f : Fact) (s t : Store) : Prop where
  size : s.size ≤ t.size
  kept : ∀ l, l < s.size → l ∉ f.cells → t.get? l = s.get? l
  given : t.given = s.given

theorem Spares.trans (h : f.Spares s t) (k : f.Spares t w.store) : f.Spares s w.store where
  size := Nat.le_trans h.size k.size
  kept := fun l hl hcell => (k.kept l (Nat.lt_of_lt_of_le hl h.size) hcell).trans (h.kept l hl hcell)
  given := k.given.trans h.given

namespace Recorder

theorem nodes_mem (h : Recorder ns f like s X) : ∀ n ∈ f.nodes, n ∈ ns := fun n hn =>
  h.nodes n (List.mem_append_left _ (nodesAll_singleton (f := f) ▸ hn))

theorem cell_lt (h : Recorder ns f like s X) {l : Loc} (hl : l ∈ f.cells) : l < s.size := by
  rw [← map_cell_nodes] at hl
  obtain ⟨n, hn, rfl⟩ := List.mem_map.mp hl
  exact h.guarded.bounded _ (h.stocked.cells n (h.nodes_mem n hn))

/-- Values may be built as long as nothing but the cells of the fact has changed. -/
theorem later (h : Recorder ns f like s X) (hspares : f.Spares s t) (hmodest : ∃ owners, f.Modest t owners)
    (hg : t.Guarded Y) (hst : Stocked t Y ms) (hms : ∀ n ∈ ns, n ∈ ms) : Recorder ms f like t Y := by
  -- what is no cell is the same
  have hkept : ∀ l o, s.get? l = some o → (∀ vs, o ≠ .slots vs) → t.get? l = some o := by
    intro l o hget ho
    rw [hspares.kept l (Store.lt_size_of_get? hget) fun hcell => ?_, hget]
    rw [← map_cell_nodes] at hcell
    obtain ⟨n, hn, rfl⟩ := List.mem_map.mp hcell
    obtain ⟨vs, hslots, -⟩ := (h.stocked.stores n (h.nodes_mem n hn)).slots
    rw [hget] at hslots
    exact ho vs (Option.some.inj hslots)
  obtain ⟨es, hes⟩ := h.template
  have hes' := hkept like _ hes fun _ ho => by cases ho
  refine ⟨h.recordlike, h.tame, fun n hn => hms n (h.nodes n hn), h.tree, hg, hst, hmodest, hspares.given ▸ h.inert,
    ⟨es, hes'⟩, h.generable.keep hkept, fun n hn hk x hx => ?_⟩
  obtain ⟨x', hx', rfl⟩ := h.recordlike.watched_like (R := Eq) h.tame.formed.1 hes hes'
    (List.forall₂_same.mpr fun e _ => ⟨rfl, rfl⟩) x hx
  exact h.immutable n hn hk x' hx'

/-- A value that has been drawn is ready to be satisfied. -/
theorem prepared {x : Value} (h : Recorder ns f like w.store X) (hvaries : w.source.isFixed = false)
    (hrun : exec (arbitrary (.ref like)) w = (.ok x, u)) :
    w.store.Supplemented u.store ∧ ∃ Z, Prepared ns true f x u.store (between w.store.size u.store.size) Z := by
  obtain ⟨es, hes⟩ := h.template
  obtain ⟨-, l, fs, rfl, hdrawn⟩ := drawn_mapping hvaries h.guarded.whole hes h.generable hrun
  have hguarded := hdrawn.guarded h.guarded
  have hsame : ∀ k ∈ heldBy w.store ns, u.store.get? k = w.store.get? k := fun k hk =>
    hdrawn.supplemented.get k (h.guarded.bounded k (h.stocked.held_guarded hk))
  have hstocked : Stocked u.store (X ∪ {l}) ns := h.stocked.frame Set.subset_union_left hsame
  have hheld : ∀ k ∈ heldBy u.store ns, k < w.store.size := fun k hk => by
    rw [heldBy_of_same fun n hn => hsame n.cell ⟨n, hn, .inl rfl⟩] at hk
    exact h.guarded.bounded k (h.stocked.held_guarded hk)
  have hregion := hdrawn.region h.inert
  have hroot : l < u.store.size := Store.lt_size_of_get? hdrawn.get
  have hout : ∀ k ∈ heldBy u.store ns, Place.object k ∉ between w.store.size u.store.size := fun k hk hmem =>
    Nat.not_lt.mpr (hmem k rfl).1 (hheld k hk)
  refine ⟨hdrawn.supplemented, X ∪ {l}, ?_, ?_, h.nodes, hguarded, hstocked, hout, fun hs =>
    ⟨followed_pieces.mpr (List.forall_mem_singleton.mpr (h.recordlike.tracked h.tame.formed.1 hs)), ?_⟩⟩
  · exact hstocked.apart hguarded h.tame h.nodes h.tree hregion (fun _ _ ho => by cases ho) hout
  · refine Value.within_ref.mpr fun k hk => ?_
    cases hk
    exact ⟨hdrawn.new, hroot⟩
  · have hlaid : f.Laid u.store (X ∪ {l}) (.ref l) := by
      refine h.recordlike.laid h.tame.formed.1 (.inr rfl) hdrawn.get (fun e he => hdrawn.clear h.guarded he) ?_
      intro n hn hk y hy
      obtain ⟨x, hx, hshaped⟩ := h.recordlike.watched_like (R := u.store.Shaped) h.tame.formed.1 hes hdrawn.get
        (hdrawn.entries.imp fun _ _ he => ⟨he.1, he.2.2⟩) y hy
      exact hshaped.immutable (h.immutable n hn hk x hx)
    refine ⟨hguarded, hstocked, rests_piece.mpr hlaid, fun k hk hmem => ?_, ?_⟩
    · obtain rfl := h.recordlike.path_subset h.tame.formed.1 (mem_trail_singleton.mp hk).2
      exact Nat.not_lt.mpr hdrawn.new (hheld k hmem)
    · exact hroot

/-- A value that is built is the answer of a call that works on new objects and on the cells of the fact. -/
theorem built (h : Recorder ns f like w.store X) (hvaries : w.source.isFixed = false)
    (hrun : exec (build f (.ref like) attempts) w = (.ok y, v)) :
    f.Spares w.store v.store ∧ (∃ Z, Recorder ns f like v.store Z) ∧ v.source.isFixed = false ∧
      ∃ u Z, w.store.Supplemented u ∧ Concluded ns f u (between w.store.size u.size) Z y v := by
  obtain ⟨owners, hmodest⟩ := h.modest
  have hlike : (Value.ref like).Within (Arena.ofOwners w.store owners).values :=
    Value.within_ref.mpr Arena.free_ofOwners.2
  obtain ⟨hholds, hgiven, hvaried⟩ := hmodest.exec_build attempts h.tame.formed.1 h.guarded.whole.owned hlike
  rw [hrun] at hholds hgiven hvaried
  have hmodest' := hmodest.keep hholds hgiven
  obtain ⟨x, u, hdraw, hrun⟩ := exec_bind_ok hrun
  obtain ⟨hadded, Z, hprepared⟩ := h.prepared hvaries hdraw
  have hconcluded := hprepared.concluded hrun
  obtain ⟨Z', hguarded, hstocked⟩ := hconcluded.after
  have hspares : f.Spares w.store v.store := by
    refine ⟨Nat.le_trans hadded.size hconcluded.size, fun l hl hcell => ?_, hgiven⟩
    have hnot : Place.object l ∉ between w.store.size u.store.size := fun hmem => Nat.not_lt.mpr (hmem l rfl).1 hl
    rw [hconcluded.kept (Nat.lt_of_lt_of_le hl hadded.size) hnot hcell, hadded.get l hl]
  exact ⟨hspares, ⟨Z', h.later hspares ⟨owners, hmodest'⟩ hguarded hstocked fun _ hn => hn⟩, hvaried hvaries,
    u.store, Z, hadded, hconcluded⟩

end Recorder

/-! ## Copies that check what is built -/

/-- Whether a copy can check values that have been built in turn: it keeps abreast of the fact as this was before, holds
nothing of what was added since, and finds that as it was left. -/
structure Trails (f : Fact) (s t : Store) (ms : List Fact) (m : Loc → Loc) (c : Store) (Y : Set Loc) : Prop where
  abreast : Abreast f s ms m c Y
  held : ∀ l ∈ heldBy c (f.move m).nodes, l < s.size ∧ ∀ n ∈ f.chosen, l ≠ n.cell
  same : ∀ l, s.size ≤ l → l < t.size → c.get? l = t.get? l
  chosen : ∀ n ∈ f.chosen, c.get? n.cell = t.get? n.cell
  given : c.given = t.given

section

variable {m : Loc → Loc} {a b c : Store}

/-- A copy that can check all values can check the first one. -/
theorem Trails.follows (hc : Trails f s t ms m c Y) (h : Recorder ns f like s X) (hadded : s.Supplemented a)
    (hbetween : f.Spares s v.store) (hspares : f.Spares v.store t) :
    Follows f a (between s.size a.size) v ms m c Y := by
  have hsame : ∀ l ∈ heldBy s f.nodes, a.get? l = s.get? l := fun l hl =>
    hadded.get l (h.guarded.bounded l (h.stocked.held_guarded (heldBy_mono h.nodes_mem hl)))
  refine ⟨⟨hc.abreast.guarded, hc.abreast.stocked, hc.abreast.nodes, hc.abreast.inj, fun n hn hk => ?_⟩,
    fun l hl => ?_, fun l hl hlt => ?_, fun n hn => ?_, hc.given.trans hspares.given⟩
  · exact (hc.abreast.noted n hn hk).trans (Stocked.noted_frame hsame hn).symm
  · obtain ⟨hlt, hne⟩ := hc.held l hl
    exact ⟨Nat.lt_of_lt_of_le hlt hadded.size, fun hmem => Nat.not_lt.mpr (hmem l rfl).1 hlt, hne⟩
  · have hle : s.size ≤ l := by
      rcases hl with hl | ⟨k, heq, hle⟩
      · exact (hl l rfl).1
      · cases heq
        exact Nat.le_trans hadded.size hle
    rw [hc.same l hle (Nat.lt_of_lt_of_le hlt hspares.size)]
    exact hspares.kept l hlt fun hcell => Nat.not_lt.mpr hle (h.cell_lt hcell)
  · have hchosen : n ∈ chosenAll [f] := List.mem_append_left _ hn
    have hlt := h.guarded.bounded _ (h.stocked.cells n (h.nodes n (List.mem_append_right _ hchosen)))
    rw [hc.chosen n hn]
    exact hspares.kept _ (Nat.lt_of_lt_of_le hlt hbetween.size) fun hcell =>
      h.tree n hchosen (cellsAll_singleton ▸ hcell)

/-- A copy that has checked the first value can check the others. -/
theorem Trails.later (hc : Trails f s t ms m c Y) (hbetween : f.Spares s v.store) (hb : Abreast f v.store ms m b Y)
    (hsame : ∀ l, l ∉ heldBy c (f.move m).nodes → b.get? l = c.get? l)
    (hheld : ∀ l ∈ heldBy b (f.move m).nodes, l ∈ heldBy c (f.move m).nodes) (hgiven : b.given = c.given) :
    Trails f v.store t ms m b Y where
  abreast := hb
  held := fun l hl => by
    obtain ⟨hlt, hne⟩ := hc.held l (hheld l hl)
    exact ⟨Nat.lt_of_lt_of_le hlt hbetween.size, hne⟩
  same := fun l hle hlt => by
    have hold : s.size ≤ l := Nat.le_trans hbetween.size hle
    rw [hsame l fun hmem => Nat.not_lt.mpr hold (hc.held l hmem).1, hc.same l hold hlt]
  chosen := fun n hn => by
    rw [hsame n.cell fun hmem => (hc.held _ hmem).2 n hn rfl, hc.chosen n hn]
  given := hgiven.trans hc.given

end

/-! ## Building in turn -/

theorem buildSeq_succ {like : Value} {k : Nat} : buildSeq f like (k + 1 : Nat) attempts = (do
    let y ← build f like attempts
    let ys ← buildSeq f like k attempts
    return y :: ys) := by
  simp only [buildSeq, Int.toNat_natCast, List.replicate_succ, List.mapM_cons]

/-- Building values in turn leaves alone what was there before but the cells of the fact, and whoever checks the values
with a copy that has noted what the fact had noted before finds them all to pass. -/
theorem Recorder.rounds {k : Nat} : ∀ {w u : World} {X : Set Loc} {vs : List Value}, Recorder ns f like w.store X →
    w.source.isFixed = false → exec (buildSeq f (.ref like) k attempts) w = (.ok vs, u) →
    vs.length = k ∧ f.Spares w.store u.store ∧ (∃ Z, Recorder ns f like u.store Z) ∧
      ∀ {ms m Y i} {c : World}, Trails f w.store u.store ms m c.store Y →
        ∃ rs z, exec (checkFrom (f.move m) i vs) c = (.ok rs, z) ∧ (Report.combine rs).ok = true := by
  induction k with
  | zero =>
    intro w u X vs h _ hrun
    cases hrun
    exact ⟨rfl, ⟨Nat.le_refl _, fun _ _ _ => rfl, rfl⟩, ⟨X, h⟩, fun _ => ⟨[], _, rfl, rfl⟩⟩
  | succ k ih =>
    intro w u X vs h hvaries hrun
    rw [buildSeq_succ] at hrun
    obtain ⟨y, v, hbuild, hrun⟩ := exec_bind_ok hrun
    obtain ⟨ys, u', hrest, hrun⟩ := exec_bind_ok hrun
    cases hrun
    obtain ⟨hbetween, ⟨Z, hnext⟩, hvaried, a, Z', hadded, hconcluded⟩ := h.built hvaries hbuild
    obtain ⟨hlength, hspares, hlast, hreplay⟩ := ih hnext hvaried hrest
    refine ⟨by rw [List.length_cons, hlength], hbetween.trans hspares, hlast, fun {ms m Y i c} hc => ?_⟩
    obtain ⟨r, b, hcheck, hok, habreast, hsame, hheld, hgiven'⟩ :=
      hconcluded.replayed (hc.follows h hadded hbetween hspares)
    obtain ⟨rs, z, hchecks, hoks⟩ := hreplay (i := i + 1) (hc.later hbetween habreast hsame hheld hgiven')
    refine ⟨r.under ("item " ++ toString i) :: rs, z, ?_, ?_⟩
    · rw [checkFrom, exec_bind, hcheck]
      dsimp only
      rw [exec_bind, hchecks]
      rfl
    · rw [Report.combine_cons, Report.ok_append, Report.ok_under, hok, hoks]
      rfl

/-- A record-like fact builds as many values in turn as were asked for, and they pass when they are checked in turn
with a copy of the fact that was taken before. The template is a mapping of no more levels than are followed, with
immutable values where distinct facts see them, the source of choices varies, and the fact gives no attributes. -/
theorem buildSeq_checkSeq {g : Fact} {count : Int} {vs : List Value} (h : Recorder ns f like w.store X)
    (hvaries : w.source.isFixed = false)
    (hrun : exec (do
      let g ← f.copy
      return (g, ← buildSeq f (.ref like) count attempts)) w = (.ok (g, vs), u)) :
    vs.length = count.toNat ∧ ∃ r z, exec (checkSeq g vs) u = (.ok r, z) ∧ r.ok = true := by
  obtain ⟨g', w', hcopy, hrun⟩ := exec_bind_ok hrun
  obtain ⟨vs', u', hrun, hend⟩ := exec_bind_ok hrun
  rw [exec_copy] at hcopy
  cases hcopy
  cases hend
  obtain ⟨Y, -, habreast, hfresh⟩ := h.stocked.abreast_copy h.guarded h.nodes_mem
  have hold : ∀ l, l < w.store.size → (w.store.copy f.cells).2.get? l = w.store.get? l := fun l hl =>
    Store.get?_copy_of_lt hl
  have hsize : w.store.size ≤ (w.store.copy f.cells).2.size := by
    rw [Store.size_copy]
    exact Nat.le_add_right _ _
  obtain ⟨owners, hmodest⟩ := h.modest
  have hmodest' : f.Modest (w.store.copy f.cells).2 owners :=
    hmodest.keep ((hmodest.holds h.guarded.whole.owned).copy Arena.copyable_ofOwners) rfl
  have hcopied := h.later ⟨hsize, fun l hl _ => hold l hl, rfl⟩ ⟨owners, hmodest'⟩ habreast.guarded habreast.stocked
    fun n hn => List.mem_append_left _ hn
  have hcount : buildSeq f (.ref like) count attempts = buildSeq f (.ref like) (count.toNat : Int) attempts := by
    simp only [buildSeq, Int.toNat_natCast]
  rw [hcount] at hrun
  obtain ⟨hlength, hspares, ⟨Z, hlast⟩, hreplay⟩ := hcopied.rounds (w := ⟨_, _, _⟩) hvaries hrun
  have hnodes : ∀ n ∈ (f.move (w.store.copy f.cells).1.place).nodes,
      n ∈ withCopies ns [f] (w.store.copy f.cells).1 := fun n hn =>
    List.mem_append_right _ (nodesAll_singleton (f := f.move (w.store.copy f.cells).1.place) ▸ hn)
  have hlt : ∀ l ∈ heldBy (w.store.copy f.cells).2 (f.move (w.store.copy f.cells).1.place).nodes,
      l < (w.store.copy f.cells).2.size := fun l hl =>
    habreast.guarded.bounded l (habreast.stocked.held_guarded (heldBy_mono hnodes hl))
  -- building leaves the copy alone
  obtain ⟨hstill, hheld⟩ := habreast.keep hlast.guarded hlast.stocked fun l hl =>
    hspares.kept l (hlt l hl) fun hcell => Nat.not_lt.mpr (hfresh l hl) (h.cell_lt hcell)
  have htrails : Trails f (w.store.copy f.cells).2 u.store (withCopies ns [f] (w.store.copy f.cells).1)
      (w.store.copy f.cells).1.place u.store Z := by
    refine ⟨hstill, fun l hl => ?_, fun _ _ _ => rfl, fun _ _ => rfl, rfl⟩
    rw [hheld] at hl
    refine ⟨hlt l hl, fun n hn heq => Nat.not_lt.mpr (hfresh l hl) (heq ▸ ?_)⟩
    have hchosen : n ∈ everyNodeAll [f] := List.mem_append_right _ (List.mem_append_left _ hn)
    exact h.guarded.bounded _ (h.stocked.cells n (h.nodes n hchosen))
  obtain ⟨rs, z, hchecks, hok⟩ := hreplay (i := 0) htrails
  refine ⟨hlength, .combine rs, z, ?_, hok⟩
  rw [checkSeq, exec_bind, hchecks]
  rfl

/-- The world of the tickets, with other choices. -/
def batchWorld : World := { ticketWorld with source := .tape [0, 2147483649, 0, 2147483650] 0 }

/-- Nothing in this world takes attributes. -/
theorem batch_modest : batchFact.Modest batchWorld.store ∅ := by
  have hnodes : ∀ n ∈ batchFact.everyNode, n ∈ ticketNodes := fun n hn => ticket_suited.tail.nodes n (by
    simpa [everyNodeAll, nodesAll, chosenAll, everyNode] using hn)
  refine ⟨?_, fun _ h => h.elim, fun n hn a ha t => ?_, fun n hn g hg => ?_, .inl rfl⟩
  · rintro (l | o) hp q hq
    · rintro owner rfl
      obtain ⟨o, ho, hq⟩ := hq
      have hmem := Array.mem_of_getElem? ho
      simp only [batchWorld, ticketWorld, Array.mem_def, List.mem_cons, List.not_mem_nil, or_false] at hmem
      rcases hmem with rfl | rfl | rfl | rfl | rfl | rfl | rfl | rfl | rfl | rfl <;>
        simp [Object.places, Object.values, Value.placesAll, Value.places, Value.text, Value.int, Atom.places,
          Atom.owner?] at hq
    · cases hp o rfl
  · rcases mem_ticketNodes (hnodes n hn) with rfl | rfl | rfl | rfl | rfl | rfl <;> cases ha
    · exact List.forall_mem_nil _
    · trivial
    · trivial
  · rcases mem_ticketNodes (hnodes n hn) with rfl | rfl | rfl | rfl | rfl | rfl <;> cases hg

theorem batch_recorder : Recorder ticketNodes batchFact 3 batchWorld.store {l | l < 10} := by
  have hentries : ∀ g ∈ [Fact.lens 5 (.attr "n") (.counter 1) true,
      .lens 6 (.attr "k") (.distinct 7 none 100) true], g.Entrywise := by
    simp only [List.mem_cons, List.not_mem_nil, or_false, forall_eq_or_imp, forall_eq]
    exact ⟨.lens .counter, .lens .distinct⟩
  refine ⟨.all ⟨by simp [key?, Accessor.key?], by simp [key?, Accessor.key?]⟩ hentries, ticket_suited.tail.toTame,
    ticket_suited.tail.nodes, List.forall_mem_nil _, ticket_guarded, ticket_stocked, ⟨∅, batch_modest⟩,
    List.forall_mem_nil _, ⟨_, rfl⟩, ⟨_, rfl, ?_⟩, ?_⟩
  · intro e he
    simp only [List.mem_cons, List.not_mem_nil, or_false] at he
    rcases he with rfl | rfl <;> exact ⟨rfl, trivial⟩
  · intro n hn hk x hx
    have hcell : n = .distinct 7 none 100 := by
      rcases mem_ticketNodes (ticket_suited.tail.nodes n (List.mem_append_left _
        (nodesAll_singleton (f := batchFact) ▸ hn))) with rfl | rfl | rfl | rfl | rfl | rfl <;> cases hk
      rfl
    subst hcell
    -- of the two members, the counter has another cell
    have hcounter : (Fact.lens 5 (.attr "n") (.counter 1) true).watched ticketWorld.store 7 (.ref 3) = [] := by
      rw [Over.lens.watched_eq]
      exact List.flatMap_eq_nil_iff.mpr fun x _ => leaf_counter.noticed _ 7 x
    have hkeys : (Fact.lens 6 (.attr "k") (.distinct 7 none 100) true).watched ticketWorld.store 7 (.ref 3) =
        [.int 3] := by
      rw [Over.lens.watched_eq, pieces, Accessor.used?, get_ticketWorld]
      rfl
    have hwatched : x ∈ batchFact.watched ticketWorld.store 7 (.ref 3) := hx
    rw [batchFact, watched, watchedAll, watchedAll, watchedAll, hcounter, hkeys] at hwatched
    obtain rfl := List.mem_singleton.mp hwatched
    intro m hm
    cases hm

/-- Two batches are built, with successive numbers and different keys, and both pass. -/
theorem buildSeq_checkSeq_batches : ∃ g vs u r z, exec (do
      let g ← batchFact.copy
      return (g, ← buildSeq batchFact (.ref 3) 2 3)) batchWorld = (.ok (g, vs), u) ∧
    vs.length = 2 ∧ exec (checkSeq g vs) u = (.ok r, z) ∧ r.ok = true ∧
    (batchFact.state u.store).map (List.map Data.render) = [[], [], ["7", "9"], [], ["1", "2"]] := by
  have hanswers : ((exec (do
      let g ← batchFact.copy
      return (g, ← buildSeq batchFact (.ref 3) 2 3)) batchWorld).1.isOk = true ∧
    (batchFact.state (exec (do
      let g ← batchFact.copy
      return (g, ← buildSeq batchFact (.ref 3) 2 3)) batchWorld).2.store).map (List.map Data.render) =
        [[], [], ["7", "9"], [], ["1", "2"]]) := by
    constructor <;> decide +kernel
  rcases hrun : exec (do
      let g ← batchFact.copy
      return (g, ← buildSeq batchFact (.ref 3) 2 3)) batchWorld with ⟨e | ⟨g, vs⟩, u⟩
  · rw [hrun] at hanswers
    cases hanswers.1
  · rw [hrun] at hanswers
    obtain ⟨hlength, r, z, hcheck, hok⟩ := buildSeq_checkSeq batch_recorder rfl hrun
    exact ⟨g, vs, u, r, z, rfl, hlength, hcheck, hok, hanswers.2⟩

end Fact

end Conform
