import Conform.Proofs.Forming
import Conform.Proofs.Mutating
import Conform.Satisfy

/-!
# Stateless facts

A stateless fact is used as it is, without a copy. Using it can write to what the value that it is used
on leads to and to what the fact hands out itself, and to nothing else. So a check of a value that shares
no object with either reports the same before and after (`check_after_use`), if what the check consults
refers to nothing that can be changed.
-/

namespace Conform

open Act

/-! ## Regions -/

/-- Whether a set of places holds allocated objects only, and with each place all that is named there. -/
structure Store.Region (s : Store) (R : Set Place) : Prop where
  closed : s.Closed R
  bounded : ∀ l, Place.object l ∈ R → l < s.size

/-- The places of a region, and those where nothing is yet. -/
def Store.around (s : Store) (U : Set Place) : Set Place :=
  {p | p ∈ U ∨ ∃ l, p = .object l ∧ s.size ≤ l}

/-- The arena whose values lie in a region, and are changed there. -/
def Arena.around (s : Store) (U : Set Place) (strict : Prop) : Arena :=
  ⟨s.around U, s.around U, s, strict⟩

theorem Store.subset_around {s : Store} {U : Set Place} : U ⊆ s.around U := fun _ hp => .inl hp

theorem Arena.around_mutable {s : Store} {U : Set Place} {strict : Prop} :
    (Arena.around s U strict).Mutable := fun _ h => h

theorem Store.Region.holds {s : Store} {U : Set Place} {strict : Prop} (hU : s.Region U)
    (ho : s.Owned) : (Arena.around s U strict).Holds s := by
  have hclosed : s.Closed (s.around U) := by
    rintro p (hp | ⟨l, rfl, hl⟩) q hq
    · exact .inl (hU.closed p hp q hq)
    · obtain ⟨o, hget, -⟩ := hq
      rw [Store.get?_eq_none hl] at hget
      cases hget
  refine ⟨hclosed, ?_, fun l hl => ⟨.inr ⟨l, rfl, hl⟩, .inr ⟨l, rfl, hl⟩⟩, ho, .refl _ _⟩
  intro l vs hl hget m hm
  exact Value.within_ref.mp ((hclosed.object hl hget).value hm)

/-- What is outside a region stays as it is while the region and new places are written to. -/
theorem Store.Frame.outside {s t : Store} {U : Set Place} (h : s.Frame (s.around U) t) {l : Loc}
    (hl : l < s.size) (hU : Place.object l ∉ U) : t.get? l = s.get? l := by
  refine h.get l ?_
  rintro (hmem | ⟨m, heq, hle⟩)
  · exact hU hmem
  · cases heq
    exact Nat.not_lt.mpr hle hl

/-- A list of values without identity is a region by itself. -/
theorem Store.region_list {s : Store} {l : Loc} {xs : List Value} (h : s.get? l = some (.list xs))
    (hxs : ∀ x ∈ xs, x.places = []) : s.Region {.object l} where
  closed := by
    rintro p rfl q ⟨o, ho, hq⟩
    rw [h] at ho
    cases ho
    have hlist : (Object.list xs).Within (∅ : Set Place) := Object.within_list.mpr fun x hx p hp => by
      simp [hxs x hx] at hp
    exact (hlist q hq).elim
  bounded := by
    rintro m heq
    cases heq
    exact Store.lt_size_of_get? h

theorem Store.Region.union {s : Store} {U V : Set Place} (hU : s.Region U) (hV : s.Region V) :
    s.Region (U ∪ V) where
  closed := by
    rintro p (hp | hp) q hq
    · exact .inl (hU.closed p hp q hq)
    · exact .inr (hV.closed p hp q hq)
  bounded := by
    rintro l (hl | hl)
    · exact hU.bounded l hl
    · exact hV.bounded l hl

/-! ## Using a stateless fact -/

namespace Arena

open Conform.Fact

variable {A : Arena}

theorem runs_verify {f : Fact} {v : Value} (hA : A.Copies f.stateful) (hf : f.Fits A f.stateful)
    (hv : v.Within A.values) : A.Runs (verify f v) fun _ => True :=
  (runs_probe hA hf).bind fun _ hg => runs_check hg.1 hv

/-- The report of an attempt that was given up is not one of success. -/
theorem runs_reportGivenUp {f : Fact} {v : Value} {e : Fault} {last : Option Report}
    (hA : A.Copies f.stateful) (hf : f.Fits A f.stateful) (hv : v.Within A.values) :
    A.Runs (reportGivenUp f v e last) fun r => r.ok = false := by
  have hrest : ∀ found : Report, A.Runs
      (pure (if found.ok then .fail ("mutation exhausted: " ++ e.message) else found) : Act Report)
      fun r => r.ok = false := by
    intro found
    refine runs_pure ?_
    split
    · rfl
    · next hok => exact Bool.not_eq_true _ ▸ hok
  unfold reportGivenUp
  cases last with
  | none => exact (runs_verify hA hf hv).bind fun found _ => hrest found
  | some r => exact hrest r

theorem Runs.attempt {α : Type} {P : α → Prop} {a : Act α} (ha : A.Runs a P) :
    A.Runs (Act.attempt a) fun r => (∀ x, r = .ok x → P x) ∧ ∀ e, r = .error e → A.Admits e := by
  intro w hw
  obtain ⟨hs, hok, herr, hvaries⟩ := ha w hw
  rw [exec_attempt]
  refine ⟨hs, ?_, nofun, hvaries⟩
  rintro r ⟨⟩
  exact ⟨hok, herr⟩

/-- The loop around a stateless fact keeps the invariant of an arena that is not strict, whether it
answers or raises. -/
theorem runs_satisfyFrom (hA : A.Mutable) (hstrict : ¬ A.strict) {f : Fact} {budget : Int}
    (hf : f.Fits A false) (hs : f.stateful = false) : ∀ {left : Nat} {last : Report} {v : Value},
      v.Within A.values → A.Runs (satisfyFrom f budget left last v) fun w => w.Within A.values := by
  intro left
  induction left with
  | zero =>
    intro last v _
    exact runs_log.bind fun _ _ => runs_rethrow fun h => absurd h hstrict
  | succ left ih =>
    intro last v hv
    have hprobe : f.probe = pure f := by simp [probe, hs]
    have hcopies : A.Copies f.stateful := fun h => absurd (hs.symm.trans h) (by decide)
    rw [satisfyFrom, hprobe, pure_bind]
    refine (runs_mutate hA hf hv).attempt.bind fun r hr => ?_
    cases r with
    | ok w =>
      have hw := hr.1 w rfl
      refine (runs_verify hcopies hf.probed hw).bind fun report _ => ?_
      simp only [hs, Bool.false_eq_true, if_false]
      split
      · split
        · exact runs_log.bind fun _ _ => runs_pure hw
        · exact runs_pure hw
      · exact runs_log.bind fun _ _ => ih hw
    | error e =>
      cases e with
      | exhausted fact reason lastCheck =>
        refine (runs_reportGivenUp hcopies hf.probed hv).bind fun report _ => ?_
        exact runs_log.bind fun _ _ => ih hv
      | _ => exact runs_rethrow fun h => absurd h hstrict

theorem runs_satisfy (hA : A.Mutable) (hstrict : ¬ A.strict) {f : Fact} {attempts : Int} {v : Value}
    (hf : f.Fits A false) (hs : f.stateful = false) (hv : v.Within A.values) :
    A.Runs (satisfy f v attempts) fun w => w.Within A.values := by
  unfold satisfy
  split
  · exact runs_rethrow fun h => absurd h hstrict
  · exact runs_satisfyFrom hA hstrict hf hs hv

end Arena

/-! ## Checking again -/

/-- Whether an accessor reads attributes. One that is brought from outside may. -/
def Accessor.ReadsAttributes : Accessor → Prop
  | .attr _ | .optionalAttr _ | .custom _ _ _ => True
  | .item _ _ | .variant _ => False

theorem Accessor.Uniform.of_reads {attrs : Prop} {a : Accessor} (ha : a.Uniform True)
    (h : a.ReadsAttributes → attrs) : a.Uniform attrs := by
  cases a with
  | attr n => exact h trivial
  | optionalAttr n => exact h trivial
  | item shown key => exact ha
  | variant cls => trivial
  | custom n get set =>
    refine ⟨h trivial, fun r R s t v himage hv => ?_, ha.2.2⟩
    refine ha.2.1 r R s t v ⟨himage.closed, himage.marks, himage.get, himage.inj, himage.owned, ?_⟩ hv
    exact fun _ => himage.given (h trivial)

namespace Fact

/-- Whether a fact reads attributes of values. -/
def ReadsAttributes (f : Fact) : Prop := ∃ n ∈ f.everyNode, ∃ a ∈ n.accessor?, a.ReadsAttributes

/-- Whether a fact lies in a region: its own cells do not, all that it holds does, what its checks
consult refers to nothing, and what is brought from outside keeps to the region. -/
structure Lies (s : Store) (U : Set Place) (f : Fact) : Prop where
  formed : f.Formed
  cells : ∀ n ∈ f.everyNode, n.cell < s.size ∧ Place.object n.cell ∉ U
  slots : ∀ n ∈ f.everyNode, ∀ y ∈ s.slots n.cell, y.Within U
  fixed : ∀ n ∈ f.everyNode, n.kind? = some .reference → ∀ y ∈ s.slots n.cell, y.refs = []
  accessors : ∀ n ∈ f.everyNode, ∀ a ∈ n.accessor?, a.Fits (Arena.around s U False) ∧ a.Uniform True
  generators : ∀ n ∈ f.everyNode, Draws (Arena.around s U False) n.generator?

variable {s t : Store} {R U : Set Place} {f : Fact}

theorem Lies.nodeFits (h : f.Lies s U) {n : Fact} (hn : n ∈ f.everyNode) :
    NodeFits (Arena.around s U False) false n where
  slots := by
    intro _
    obtain ⟨hlt, hnot⟩ := h.cells n hn
    refine Arena.readable_of_start ?_ fun y hy => (h.slots n hn y hy).mono Store.subset_around
    rintro (hmem | ⟨l, heq, hle⟩)
    · exact hnot hmem
    · cases heq
      exact absurd hlt (Nat.not_lt.mpr hle)
  accessor := fun a ha => (h.accessors n hn a ha).1
  generator := h.generators n hn

theorem Lies.fits (h : f.Lies s U) (hs : f.stateful = false) :
    f.Fits (Arena.around s U False) false := by
  refine Fits.of_nodes h.formed (fun hb => absurd (hs.symm.trans hb) (by decide)) ?_ ?_
  · exact fun n hn => h.nodeFits (List.mem_append_left _ hn)
  · exact fun n hn => h.nodeFits (List.mem_append_right _ hn)

/-- The cells that checking a fact consults, each paired with itself. -/
def Consults (f : Fact) (k : CellKind) (c d : Loc) : Prop :=
  k = .reference ∧ c = d ∧ ∃ n ∈ f.everyNode, n.kind? = some .reference ∧ n.cell = c

/-- A stateless fact consults reference values only. -/
theorem Lies.consults (h : f.Lies s U) (hs : f.stateful = false) {n : Fact} (hn : n ∈ f.everyNode)
    {k : CellKind} (hk : k ∈ n.kind?) : f.Consults k n.cell n.cell := by
  have hkind : k = .reference := by
    rcases List.mem_append.mp hn with hn | hn
    · exact kind_of_stateless h.formed hs n hn k hk
    · exact kind_of_chosen h.formed n hn k hk
  subst hkind
  exact ⟨rfl, rfl, n, hn, hk, rfl⟩

theorem Lies.twinned (h : f.Lies s U) (hs : f.stateful = false) :
    Twinned f.ReadsAttributes f.Consults id f := by
  refine Twinned.of_nodes h.formed ?_ ?_ ?_
  · exact fun n hn k hk => h.consults hs (List.mem_append_left _ hn) hk
  · exact fun n hn k hk => h.consults hs (List.mem_append_right _ hn) hk
  · exact fun n hn a ha => (h.accessors n hn a ha).2.of_reads fun hreads => ⟨n, hn, a, ha, hreads⟩

/-- Two stores that differ in what is around one region only are twins for another one, if the regions
share no object and, where attributes are read, nothing that attributes can be given to. -/
theorem Lies.twins (h : f.Lies s U) (hR : s.Region R) (ho : s.Owned)
    (hRU : ∀ l, Place.object l ∈ R → Place.object l ∉ U)
    (hattrs : f.ReadsAttributes → ∀ o, Place.attributes o ∈ R → Place.attributes o ∉ U)
    (hframe : s.Frame (s.around U) t) : Twins ⟨id, id⟩ R f.ReadsAttributes f.Consults s t := by
  refine ⟨⟨hR.closed, fun _ => rfl, ?_, fun _ _ _ _ heq => heq, ho, ?_⟩, ?_, ?_, ?_, ?_, ?_⟩
  · intro l hl
    obtain ⟨o, hget⟩ := Store.exists_get? (hR.bounded l hl)
    refine ⟨o, hget, ?_⟩
    rw [Object.move_id]
    exact (hframe.outside (hR.bounded l hl) (hRU l hl)).trans hget
  · intro hreads a ha name
    have hgiven : t.given? a name = s.given? a name := by
      refine hframe.given a ?_ name
      rintro o hown (hmem | ⟨m, heq, -⟩)
      · exact hattrs hreads o (ha o hown) hmem
      · cases heq
    rw [hgiven, Option.map_congr (g := id) fun v _ => Value.move_id v, Option.map_id, id_eq]
  · rintro c d ⟨-, rfl, n, hn, hk, rfl⟩
    obtain ⟨hlt, hnot⟩ := h.cells n hn
    refine ⟨fun v hv => Value.refers_of_refs (h.fixed n hn hk v hv), ?_⟩
    rw [Store.slots, Store.slots, hframe.outside hlt hnot, List.map_congr_left fun v _ => Value.move_id v,
      List.map_id']
  · rintro c d ⟨hk, -⟩
    cases hk
  · rintro c d ⟨hk, -⟩
    cases hk
  · rintro c d ⟨hk, -⟩
    cases hk
  · rintro c d ⟨hk, -⟩
    cases hk

end Fact

/-- A stateless fact is not changed by being used: whether mutating or satisfying a value answers or raises, checking
another value reports the same as before, or raises the same.

The value that is used and all that the cells of the fact hold lie in one region, and the value that is checked in
another one that has no object in common with it, nor an object that takes attributes if the fact reads these
(`Fact.Lies`). -/
theorem check_after_use {f : Fact} {v x : Value} {w : World} {R U : Set Place} {attempts : Int}
    (hf : f.Lies w.store U) (hs : f.stateful = false) (ho : w.store.Owned)
    (hR : w.store.Region R) (hU : w.store.Region U) (hx : x.Within R) (hv : v.Within U)
    (hRU : ∀ l, Place.object l ∈ R → Place.object l ∉ U)
    (hattrs : f.ReadsAttributes → ∀ o, Place.attributes o ∈ R → Place.attributes o ∉ U) :
    (exec (f.check x) (exec (f.mutate v) w).2).1 = (exec (f.check x) w).1 ∧
    (exec (f.check x) (exec (satisfy f v attempts) w).2).1 = (exec (f.check x) w).1 := by
  have hv' : v.Within (Arena.around w.store U False).values := hv.mono Store.subset_around
  have hagain : ∀ {a : Act Value} {post : Value → Prop}, (Arena.around w.store U False).Runs a post →
      (exec (f.check x) (exec a w).2).1 = (exec (f.check x) w).1 := by
    intro a post hrun
    have hframe := (hrun w (hU.holds ho)).1.frame
    have hends := (alike_check (hf.twinned hs) hx).ends (hf.twins hR ho hRU hattrs hframe)
    rw [Fact.move_id, Value.move_id] at hends
    exact hends.symm
  exact ⟨hagain (Arena.runs_mutate Arena.around_mutable (hf.fits hs) hv'),
    hagain (Arena.runs_satisfy Arena.around_mutable id (hf.fits hs) hs hv')⟩

/-- Two lists, a fact that sets every element to a number, and nothing else. -/
def quietWorld : World where
  store := ⟨#[.list [.int 2], .list [.int 0, .int 1], .slots [], .slots [.int 5]], spelledMarks, []⟩
  source := .tape [0] 0
  log := #[]

/-- The fact at the cells of `quietWorld`. -/
def quietFact : Fact := .each 2 (.equality 3 true none 100) false

/-- The first list is reported on as before, after the second one has been set. -/
theorem check_after_use_lists :
    (exec (quietFact.check (.ref 0)) (exec (quietFact.mutate (.ref 1)) quietWorld).2).1 =
      (exec (quietFact.check (.ref 0)) quietWorld).1 ∧
    (exec (quietFact.check (.ref 0)) (exec (satisfy quietFact (.ref 1) 3) quietWorld).2).1 =
      (exec (quietFact.check (.ref 0)) quietWorld).1 := by
  have hfirst : quietWorld.store.Region {.object 0} := Store.region_list rfl (by decide)
  have hsecond : quietWorld.store.Region {.object 1} := Store.region_list rfl (by decide)
  have hlies : quietFact.Lies quietWorld.store {.object 1} := by
    have hnodes : ∀ n ∈ quietFact.everyNode,
        n = quietFact ∨ n = .equality 3 true none 100 := by
      simp [Fact.everyNode, quietFact, Fact.nodes, Fact.chosen]
    refine ⟨⟨rfl, trivial⟩, ?_, ?_, ?_, ?_, ?_⟩
    · intro n hn
      rcases hnodes n hn with rfl | rfl <;> refine ⟨by decide, ?_⟩ <;> rintro ⟨⟩
    · intro n hn y hy
      rcases hnodes n hn with rfl | rfl
      · cases hy
      · cases List.mem_singleton.mp hy
        exact Value.within_int
    · intro n hn hk y hy
      rcases hnodes n hn with rfl | rfl
      · cases hk
      · cases List.mem_singleton.mp hy
        rfl
    · intro n hn a ha
      rcases hnodes n hn with rfl | rfl <;> cases ha
    · intro n hn g hg
      rcases hnodes n hn with rfl | rfl <;> cases hg
  refine check_after_use (R := {.object 0}) (U := {.object 1}) hlies rfl (List.forall_mem_nil _) hfirst hsecond
    (Value.within_ref.mpr rfl) (Value.within_ref.mpr rfl) ?_ ?_
  · rintro l ⟨⟩ ⟨⟩
  · rintro - o ⟨⟩

/-- A fact that hands out its own list and then sets the elements of that list, at the cells of
`reusedWorld`. -/
def reusedFact : Fact := .all 2 [.equality 3 true none 100, .each 4 (.equality 5 true none 100) false] 10 false

/-- Two lists beside the one that `reusedFact` refers to. -/
def reusedWorld : World where
  store := ⟨#[.list [.int 2], .list [.int 0], .slots [], .slots [.ref 6], .slots [], .slots [.int 2],
    .list [.int 1]], spelledMarks, []⟩
  source := .tape [0] 0
  log := #[]

/-- A fact that is stateless itself and chooses one that remembers, at the cells of `choosingWorld`. -/
def choosingFact : Fact := .mapped 0 "all" [] [] (.distinct 1 none 100)

/-- Nothing but the cells of `choosingFact`. -/
def choosingWorld : World where
  store := ⟨#[.slots [], .slots [.ref 2], .list []], spelledMarks, []⟩
  source := .tape [0] 0
  log := #[]

/-- A reference value that can be changed is changed by mutating: a list that shares nothing with the
value or with the fact fails the check before and passes it after. And what a chosen fact remembers counts
against a number that passed before. -/
theorem check_after_use_shared :
    ((reusedFact.Formed ∧ reusedFact.stateful = false) ∧
    (reusedWorld.store.Region {.object 0} ∧ reusedWorld.store.Region ({.object 1} ∪ {.object 6}) ∧
      ∀ n ∈ reusedFact.everyNode, ∀ y ∈ reusedWorld.store.slots n.cell,
        y.Within ({.object 1} ∪ {.object 6})) ∧
    ((exec (reusedFact.check (.ref 0)) reusedWorld).1.map Report.ok).toOption = some false ∧
    ((exec (reusedFact.check (.ref 0)) (exec (reusedFact.mutate (.ref 1)) reusedWorld).2).1.map
      Report.ok).toOption = some true) ∧
    choosingFact.stateful = false ∧
    ((exec (choosingFact.check (.int 5)) choosingWorld).1.map Report.ok).toOption = some true ∧
    ((exec (choosingFact.check (.int 5)) (exec (choosingFact.mutate (.int 5)) choosingWorld).2).1.map
      Report.ok).toOption = some false := by
  have hvalue : reusedWorld.store.Region {.object 1} := Store.region_list rfl (by decide)
  have hreference : reusedWorld.store.Region {.object 6} := Store.region_list rfl (by decide)
  refine ⟨⟨⟨⟨rfl, trivial, ⟨rfl, trivial⟩, trivial⟩, rfl⟩,
    ⟨Store.region_list rfl (by decide), hvalue.union hreference, ?_⟩, ?_, ?_⟩, rfl, ?_, ?_⟩
  · intro n hn y hy
    simp only [Fact.everyNode, reusedFact, Fact.nodes, Fact.nodesAll, Fact.chosen, Fact.chosenAll,
      List.append_nil, List.cons_append, List.nil_append, List.mem_cons, List.not_mem_nil, or_false] at hn
    rcases hn with rfl | rfl | rfl | rfl
    · cases hy
    · cases List.mem_singleton.mp hy
      exact Value.within_ref.mpr (.inr rfl)
    · cases hy
    · cases List.mem_singleton.mp hy
      exact Value.within_int
  · decide +kernel
  · decide +kernel
  · decide +kernel
  · decide +kernel

end Conform
