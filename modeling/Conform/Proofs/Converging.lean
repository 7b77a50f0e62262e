import Conform.Proofs.Conjoining
import Conform.Proofs.Elementwise

/-!
# Mutating in rounds

Both a conjunction and the loop around mutation try facts out on copies, check other copies, and take over the
copies of one trial. Between trials the facts are as they were (`Fact.Between`). A trial that has answered
(`Fact.Trial`) notes the parts of its answer in the copies, and what the copies have noted is taken over
(`Trial.commit`). By induction on the levels every tracked fact mutates as it should
(`advances_mutateWithin`).
-/

namespace Conform

open Act

namespace Fact

variable {ns ms fs : List Fact} {p : Bool} {f g fact : Fact} {s t u : Store} {X Y Z : Set Loc} {v x y : Value}
  {w : World} {c : Loc} {b : Bool} {levels : Nat} {a : Act Value} {r : Relocation}

/-- What a loop around facts leaves from a value on, with a value that it has come to. -/
structure Leaves (ns : List Fact) (p : Bool) (fs : List Fact) (v : Value) (s : Store) (X : Set Loc) (x : Value)
    (t : Store) (Y : Set Loc) : Prop where
  grown : Grown s X Y
  size : s.size ≤ t.size
  poised : Poised ns p fs x t Y
  frame : ∀ l ∈ X, l ∉ trail s p fs v → l ∉ heldBy s (nodesAll fs) → t.get? l = s.get? l
  held : ∀ n ∈ ns, ∀ l, t.slots n.cell = [.ref l] → s.slots n.cell = [.ref l] ∨ s.size ≤ l
  path : ∀ l ∈ trail t p fs x, l ∈ trail s p fs v

/-- What it leaves between trials: all cells are as they were. -/
structure Between (ns : List Fact) (p : Bool) (fs : List Fact) (v : Value) (s : Store) (X : Set Loc) (x : Value)
    (t : Store) (Y : Set Loc) : Prop where
  start : Poised ns p fs v s X
  grown : Grown s X Y
  size : s.size ≤ t.size
  poised : Poised ns p fs x t Y
  frame : ∀ l ∈ X, l ∉ trail s p fs v → t.get? l = s.get? l
  path : ∀ l ∈ trail t p fs x, l ∈ trail s p fs v

namespace Between

theorem refl (h : Poised ns p fs v s X) : Between ns p fs v s X v s X :=
  ⟨h, .refl, Nat.le_refl _, h, fun _ _ _ => rfl, fun _ hl => hl⟩

theorem held_same (h : Between ns p fs v s X x t Y) {l : Loc} (hl : l ∈ heldBy s ns) : t.get? l = s.get? l :=
  h.frame l (h.start.stocked.held_guarded hl) fun hpath => h.start.free l hpath hl

theorem slots (h : Between ns p fs v s X x t Y) {n : Fact} (hn : n ∈ ns) : t.slots n.cell = s.slots n.cell :=
  Store.slots_of_same (h.held_same ⟨n, hn, .inl rfl⟩)

theorem noted (h : Between ns p fs v s X x t Y) {n : Fact} (hn : n ∈ ns) : t.noted n.cell = s.noted n.cell :=
  Stocked.noted_frame (fun _ hl => h.held_same hl) hn

theorem heldBy (h : Between ns p fs v s X x t Y) (hms : ∀ n ∈ ms, n ∈ ns) :
    Fact.heldBy t ms = Fact.heldBy s ms :=
  heldBy_of_same fun n hn => h.held_same ⟨n, hms n hn, .inl rfl⟩

theorem leaves (h : Between ns p fs v s X x t Y) : Leaves ns p fs v s X x t Y where
  grown := h.grown
  size := h.size
  poised := h.poised
  frame := fun l hl hnot _ => h.frame l hl hnot
  held := fun _ hn _ hl => .inl (h.slots hn ▸ hl)
  path := h.path

/-- What is left after some trials is left from the beginning on. -/
theorem then_leaves (h : Between ns p fs v s X x t Y) (hsuited : Suited ns p fs)
    (h' : Leaves ns p fs x t Y y u Z) : Leaves ns p fs v s X y u Z where
  grown := h.grown.trans h'.grown h.size
  size := Nat.le_trans h.size h'.size
  poised := h'.poised
  frame := fun l hl hnot hheld => (h'.frame l (h.grown.old hl) (fun hmem => hnot (h.path l hmem)) (by
    rwa [h.heldBy hsuited.cells])).trans (h.frame l hl hnot)
  held := fun n hn l hl => by
    rcases h'.held n hn l hl with hl | hle
    · exact .inl (h.slots hn ▸ hl)
    · exact .inr (Nat.le_trans h.size hle)
  path := fun l hl => h.path l (h'.path l hl)

/-- Writing to new objects only leads from one such place to another. -/
theorem later (h : Between ns p fs v s X x t Y) (hsuited : Suited ns p fs) (hlater : t.Later u) :
    ∃ Z, Between ns p fs v s X x u Z := by
  obtain ⟨Z, hgrown, -, hkeep⟩ := Poised.later hlater h.poised.guarded
  obtain ⟨hpoised, hun, -⟩ := hkeep hsuited h.poised
  refine ⟨Z, h.start, h.grown.trans hgrown h.size, Nat.le_trans h.size hlater.size, hpoised,
    fun l hl hnot => ?_, fun l hl => h.path l (hun.trail ▸ hl)⟩
  exact (hlater.old l (Nat.lt_of_lt_of_le (h.start.guarded.bounded l hl) h.size)).trans (h.frame l hl hnot)

/-- A run of copies leads from one such place to another. -/
theorem run (h : Between ns p fs v s X x t Y)
    (hfresh : ∀ l ∈ Fact.heldBy t (nodesAll (moveAll r.place fs)), s.size ≤ l)
    (hadv : Advanced (withCopies ns fs r) p (moveAll r.place fs) x t Y u Z) :
    Between ns p fs v s X x u Z ∧ ∀ {y : Value}, Poised (withCopies ns fs r) p (moveAll r.place fs) y u Z →
      (∀ l ∈ trail u p (moveAll r.place fs) y, l ∈ trail t p (moveAll r.place fs) x) →
        Between ns p fs v s X y u Z := by
  have hms : ∀ n ∈ ns, n ∈ withCopies ns fs r := fun n hn => List.mem_append_left _ hn
  have hframe : ∀ l ∈ X, l ∉ trail s p fs v → u.get? l = s.get? l := by
    intro l hl hnot
    refine (hadv.frame l (h.grown.old hl) (fun hmem => ?_) fun hmem => ?_).trans (h.frame l hl hnot)
    · rw [trail_move] at hmem
      exact hnot (h.path l hmem)
    · exact Nat.not_lt.mpr (hfresh l hmem) (h.start.guarded.bounded l hl)
  have hbetween : ∀ {z : Value}, Poised (withCopies ns fs r) p (moveAll r.place fs) z u Z →
      (∀ l ∈ trail u p (moveAll r.place fs) z, l ∈ trail t p (moveAll r.place fs) x) →
        Between ns p fs v s X z u Z := fun hz hpath =>
    ⟨h.start, h.grown.trans hadv.grown h.size, Nat.le_trans h.size hadv.size, hz.of_move hms, hframe,
      fun l hl => h.path l (by simpa only [trail_move] using hpath l (by rwa [trail_move]))⟩
  exact ⟨hbetween hadv.poised hadv.trail, hbetween⟩

end Between

/-! ## Trials -/

/-- What holds after copies have answered a value, until they are taken over. -/
structure Trial (ns : List Fact) (p : Bool) (fs : List Fact) (v : Value) (s : Store) (X : Set Loc) (r : Relocation)
    (y : Value) (t : Store) (Y : Set Loc) : Prop where
  between : Between ns p fs v s X y t Y
  poised : Poised (withCopies ns fs r) p (moveAll r.place fs) y t Y
  fresh : ∀ l ∈ heldBy t (nodesAll (moveAll r.place fs)), s.size ≤ l
  inj : ∀ n ∈ nodesAll fs, ∀ m ∈ nodesAll fs, r.place n.cell = r.place m.cell → n.cell = m.cell
  noted : ∀ n ∈ nodesAll fs, ∀ k, n.kind? = some k →
    Noting (ExactAll p fs) k (s.noted n.cell) (noticed t p n.cell fs y) (t.noted (r.place n.cell))

/-- Running copies leads from between two trials to a trial, or to between two trials. -/
theorem Between.attempt (h : Between ns p fs v s X x w.store Y) (hsuited : Suited ns p fs)
    (hadv : ∀ Z, Grown w.store Y Z → Poised (withCopies ns fs (w.store.copy (cellsAll fs)).1) p
      (moveAll (w.store.copy (cellsAll fs)).1.place fs) x (w.store.copy (cellsAll fs)).2 Z →
        AdvancesIn (withCopies ns fs (w.store.copy (cellsAll fs)).1) p
          (moveAll (w.store.copy (cellsAll fs)).1.place fs) x a
          { w with store := (w.store.copy (cellsAll fs)).2 } Z) :
    let r := (w.store.copy (cellsAll fs)).1
    let t := (w.store.copy (cellsAll fs)).2
    let out := exec a { w with store := t }
    ∃ Y₁ Z, Grown w.store Y Y₁ ∧ Advanced (withCopies ns fs r) p (moveAll r.place fs) x t Y₁ out.2.store Z ∧
      Between ns p fs v s X x out.2.store Z ∧ ∀ y, out.1 = .ok y →
        Answered (withCopies ns fs r) p (moveAll r.place fs) x t out.2.store Z y ∧
          Trial ns p fs v s X r y out.2.store Z := by
  intro r t out
  obtain ⟨Y₁, hgrown, hcopy, hpoised, hun, hsame⟩ := h.poised.copy hsuited
  have hcopied : Between ns p fs v s X x (w.store.copy (cellsAll fs)).2 Y₁ := by
    refine ⟨h.start, h.grown.trans hgrown h.size, Nat.le_trans h.size hcopy.size,
      hpoised.of_move fun n hn => List.mem_append_left _ hn, fun l hl hnot => ?_,
      fun l hl => h.path l (hun.trail ▸ hl)⟩
    exact (hcopy.old l (Nat.lt_of_lt_of_le (h.start.guarded.bounded l hl) h.size)).trans (h.frame l hl hnot)
  have hfresh : ∀ l ∈ Fact.heldBy (w.store.copy (cellsAll fs)).2
      (nodesAll (moveAll (w.store.copy (cellsAll fs)).1.place fs)), s.size ≤ l :=
    fun l hl => Nat.le_trans h.size (hcopy.fresh l hl)
  obtain ⟨Z, hadvanced, hans⟩ := hadv Y₁ hgrown hpoised
  obtain ⟨hbetween, hto⟩ := hcopied.run hfresh hadvanced
  refine ⟨Y₁, Z, hgrown, hadvanced, hbetween, fun y hy => ?_⟩
  have hanswer := hans y hy
  refine ⟨hanswer, hto hanswer.poised hanswer.trail, hanswer.poised, fun l hl => ?_, hcopy.inj,
    fun n hn k hk => ?_⟩
  · rcases hadvanced.heldBy (fun n hn => List.mem_append_right _ hn) hl with hl | hle
    · exact hfresh l hl
    · exact Nat.le_trans hcopied.size hle
  · have hnote := hanswer.noted _ (move_mem_withCopies hn) k ((kind?_move n).trans hk)
    rw [cell_move, noticed_move fun m hm heq => hcopy.inj m hm n hn heq, hcopy.noted n hn,
      h.noted (hsuited.cells n hn)] at hnote
    exact hnote.mono ExactAll.move

namespace Trial

/-- A trial stays one while new objects only are written to. -/
theorem later (h : Trial ns p fs v s X r y t Y) (hsuited : Suited ns p fs) (hlater : t.Later u) :
    ∃ Z, Trial ns p fs v s X r y u Z := by
  obtain ⟨Z, hgrown, -, hkeep⟩ := Poised.later hlater h.poised.guarded
  obtain ⟨hpoised, hun, -⟩ := hkeep hsuited h.between.poised
  obtain ⟨hpoised', -, hnoted⟩ := hkeep (hsuited.move r) h.poised
  have hold : ∀ l, l < t.size → u.get? l = t.get? l := hlater.old
  have hbetween : Between ns p fs v s X y u Z := by
    refine ⟨h.between.start, h.between.grown.trans hgrown h.between.size,
      Nat.le_trans h.between.size hlater.size, hpoised, fun l hl hnot => ?_,
      fun l hl => h.between.path l (hun.trail ▸ hl)⟩
    exact (hold l (Nat.lt_of_lt_of_le (h.between.start.guarded.bounded l hl) h.between.size)).trans
      (h.between.frame l hl hnot)
  have hcopies : ∀ n ∈ nodesAll (moveAll r.place fs), n ∈ withCopies ns fs r := fun n hn =>
    List.mem_append_right _ hn
  refine ⟨Z, hbetween, hpoised', fun l hl => h.fresh l ?_, h.inj, fun n hn k hk => ?_⟩
  · rwa [← heldBy_of_same fun n hn => hold _ (h.poised.held_lt ⟨n, hcopies n hn, .inl rfl⟩)]
  · have hnote := hnoted _ (move_mem_withCopies hn)
    rw [cell_move] at hnote
    rw [hun.noticed, hnote]
    exact h.noted n hn k hk

/-- Taking the copies over settles the facts, and they have noted the parts of what the copies answered. -/
theorem commit (h : Trial ns p fs v s X r y w.store Y) (hsuited : Suited ns p fs) :
    ∃ d, exec (commitCells (cellsAll fs) (cellsAll (moveAll r.place fs))) w = (.ok (), d) ∧
      Leaves ns p fs v s X y d.store Y ∧ (∀ l, l ∉ cellsAll fs → d.store.get? l = w.store.get? l) ∧
      ∀ n ∈ ns, ∀ k, n.kind? = some k →
        Noting (ExactAll p fs) k (s.noted n.cell) (noticed d.store p n.cell fs y) (d.store.noted n.cell) := by
  obtain ⟨d, hrun, hpoised, hun, hsize, hother, hlists, hnoted, hkept⟩ := h.poised.commit hsuited
    (fun n hn => h.between.start.guarded.bounded _ (h.between.start.stocked.cells n hn))
    (fun n hn => h.fresh _ ⟨_, move_mem_nodesAll hn, .inl (cell_move n).symm⟩) h.inj
  refine ⟨d, hrun, ⟨h.between.grown, hsize ▸ h.between.size, hpoised, fun l hl hnot hheld => ?_,
    fun n hn l hl => ?_, fun l hl => h.between.path l (hun.trail ▸ hl)⟩, hother, fun n hn k hk => ?_⟩
  · refine (hother l fun hc => ?_).trans (h.between.frame l hl hnot)
    obtain ⟨n, hn, rfl⟩ := mem_cellsAll.mp hc
    exact hheld ⟨n, hn, .inl rfl⟩
  · rcases hlists n hn l hl with hl | hmem
    · exact .inl (h.between.slots hn ▸ hl)
    · exact .inr (h.fresh l hmem)
  · rw [hun.noticed]
    by_cases hc : n.cell ∈ cellsAll fs
    · obtain ⟨m, hm, heq⟩ := mem_cellsAll.mp hc
      have hkind : m.kind? = some k :=
        (hpoised.stocked.kinds m (hsuited.cells m hm) n hn heq).trans hk
      rw [← heq, hnoted m hm]
      exact h.noted m hm k hkind
    · rw [hkept n hn hc, h.between.noted hn, noticed_eq_nil fun m hm heq => absurd
        (mem_cellsAll.mpr ⟨m, hm, heq⟩) hc]
      exact .none

end Trial

/-! ## A conjunction -/

variable {run : Fact → Value → Act Value} {rounds k : Int} {left : Nat} {last : Report} {l : Loc}

/-- No cell holds a mapping. -/
theorem Stocked.mapping_not_held {es : List (Value × Value)} (h : Stocked s X ns)
    (hes : s.get? l = some (.mapping es)) : l ∉ heldBy s ns := by
  rintro ⟨n, hn, rfl | hl⟩
  · obtain ⟨vs, hget, -⟩ := (h.stores n hn).slots
    rw [hes] at hget
    cases hget
  · obtain ⟨-, xs, hget, -⟩ := (h.stores n hn).of_ref hl
    rw [hes] at hget
    cases hget

theorem trail_all : trail s p [.all c fs k b] v = trail s p fs v := by
  simp only [trail, pathAll_singleton, path]

theorem noticed_all {d : Loc} : noticed s p d [.all c fs k b] v = noticed s p d fs v := by
  simp only [noticed, watchedAll_singleton, rateAll_singleton, watched, rate]

/-- A conjunction that is followed piece by piece is about an object. -/
theorem poised_all : Poised ns p [.all c fs k b] v s X ↔ Poised ns p fs v s X ∧ (p = true → ∃ l, v = .ref l) := by
  have hrests : Rests s X p [.all c fs k b] v ↔ Rests s X p fs v ∧ (p = true → ∃ l, v = .ref l) := by
    rw [rests_singleton, Laid]
    exact ⟨fun h => ⟨⟨fun hp => (h.1 hp).2, h.2⟩, fun hp => (h.1 hp).1⟩,
      fun h => ⟨fun hp => ⟨h.2 hp, h.1.laid hp⟩, h.1.clear⟩⟩
  have htrail : trail s p [.all c fs k b] v = trail s p fs v := trail_all
  exact ⟨fun h => ⟨⟨h.guarded, h.stocked, (hrests.mp h.rests).1, htrail ▸ h.free, h.bounded⟩, (hrests.mp h.rests).2⟩,
    fun h => ⟨h.1.guarded, h.1.stocked, hrests.mpr ⟨h.1.rests, h.2⟩, htrail ▸ h.1.free, h.1.bounded⟩⟩

theorem exactAll_all (hf : (Fact.all c fs k b).Formed) (h : ExactAll p [.all c fs k b]) : ExactAll p fs := by
  rw [exactAll_singleton] at h
  refine ⟨fun hp => ?_, fun hp f hf' => ?_⟩
  · cases h.1 hp with
    | all h => exact h
    | above hover => cases hover
  · have hstill : fs.any stateful = false := hf.1.symm.trans (h.2 hp)
    simpa using List.any_eq_false.mp hstill f hf'

/-- A stateful conjunction makes a round, and then takes its copies over, raises, or goes on. -/
theorem exec_fixpoint_round {out : Except Fault Value × World} (hs : fact.stateful = true)
    (hout : exec (fixpoint run fact fs rounds (left + 1) last v) w = out) :
    match exec (runAll run (moveAll (w.store.copy (cellsAll fs)).1.place fs) v)
      { w with store := (w.store.copy (cellsAll fs)).2 } with
    | (.error e, q) => out = (.error e, q)
    | (.ok x, q) => match exec (do checkAll (← copyAll fs) 0 x) q with
      | (.error e, u) => out = (.error e, u)
      | (.ok rs, u) =>
        out = exec (do
          commitCells (cellsAll fs) (cellsAll (moveAll (w.store.copy (cellsAll fs)).1.place fs))
          return x) u ∨
        (∃ e, out = (.error e, u)) ∨
        ∃ d, d.store = u.store ∧ out = exec (fixpoint run fact fs rounds left (.combine rs) x) d := by
  generalize hr : (w.store.copy (cellsAll fs)).1 = r
  have hwhole : out = exec (do
      let x ← runAll run (moveAll r.place fs) v
      let rs ← (do checkAll (← copyAll fs) 0 x)
      if (Report.combine rs).ok then
        commitCells (cellsAll fs) (cellsAll (moveAll r.place fs))
        return x
      Act.log .debug "factual.combinators"
        ((← fact.described) ++ ": round " ++ toString (rounds - left) ++ "/" ++ toString rounds ++
          " left " ++ toString (Report.combine rs).size ++ " violation(s)")
      fixpoint run fact fs rounds left (.combine rs) x)
      { w with store := (w.store.copy (cellsAll fs)).2 } := by
    subst hr hout
    simp only [fixpoint, hs, if_true, exec_bind, exec_copyAll]
  rw [hwhole, exec_bind]
  rcases exec (runAll run (moveAll r.place fs) v) _ with ⟨e | x, q⟩
  · rfl
  dsimp only
  generalize (do checkAll (← copyAll fs) 0 x : Act (List Report)) = check
  rw [exec_bind]
  rcases exec check q with ⟨e | rs, u⟩
  · rfl
  dsimp only
  split
  · exact .inl rfl
  · rw [exec_bind]
    rcases hdescribed : exec fact.described u with ⟨e | t, d⟩
    · rw [show d = u from (congrArg Prod.snd hdescribed).symm.trans (quiet_described u)]
      exact .inr (.inl ⟨e, rfl⟩)
    · cases exec_described hdescribed
      refine .inr (.inr ⟨_, ?_, rfl⟩)
      rfl

/-- What a loop leaves with a value is left with the one that it has started from, if an object has stayed the same. -/
theorem Leaves.start (h : Leaves ns p fs v s X x t Y) (hv : Poised ns p fs v s X) (hsame : p = true → x = v) :
    Leaves ns p fs v s X v t Y := by
  cases p with
  | true =>
    cases hsame rfl
    exact h
  | false =>
    refine ⟨h.grown, h.size, ⟨h.poised.guarded, h.poised.stocked, rests_whole.mpr ((rests_whole.mp hv.rests).grow
      h.grown h.size), fun _ hl => absurd hl not_mem_trail_false, Nat.le_trans hv.bounded h.size⟩, h.frame, h.held,
      fun _ hl => absurd hl not_mem_trail_false⟩

/-- What rounds on a value leave, and what holds if they answer. -/
structure Settled (ns : List Fact) (p : Bool) (fs : List Fact) (v : Value) (s : Store) (X : Set Loc)
    (out : Except Fault Value × World) (Y : Set Loc) : Prop where
  leaves : Leaves ns p fs v s X v out.2.store Y
  answer : ∀ y, out.1 = .ok y → Leaves ns p fs v s X y out.2.store Y ∧ (p = true → y = v) ∧
    ∀ n ∈ ns, ∀ k, n.kind? = some k →
      Noting (ExactAll p fs) k (s.noted n.cell) (noticed out.2.store p n.cell fs y) (out.2.store.noted n.cell)

theorem Between.settled {out : Except Fault Value × World} (h : Between ns p fs v s X x out.2.store Y)
    (hsame : p = true → x = v) (hok : ∀ y, out.1 ≠ .ok y) : Settled ns p fs v s X out Y :=
  ⟨h.leaves.start h.start hsame, fun y hy => absurd hy (hok y)⟩

/-- Taking the copies of a trial over settles the facts. -/
theorem Trial.settled (h : Trial ns p fs v s X r x w.store Y) (hsuited : Suited ns p fs) (hsame : p = true → x = v) :
    Settled ns p fs v s X (exec (do
      commitCells (cellsAll fs) (cellsAll (moveAll r.place fs))
      return x) w) Y := by
  obtain ⟨d, hcommit, hleaves, -, hnoted⟩ := h.commit hsuited
  rw [exec_bind, hcommit]
  refine ⟨hleaves.start h.between.start hsame, ?_⟩
  rintro y ⟨⟩
  exact ⟨hleaves, hsame, hnoted⟩

/-- What is settled after some trials is settled from the beginning on. -/
theorem Between.then_settled {out : Except Fault Value × World} (h : Between ns p fs v s X x t Y)
    (hsuited : Suited ns p fs) (hsame : p = true → x = v) (h' : Settled ns p fs x t Y out Z) :
    Settled ns p fs v s X out Z := by
  refine ⟨(h.then_leaves hsuited h'.leaves).start h.start hsame, fun y hy => ?_⟩
  obtain ⟨hleaves, hanswer, hnoted⟩ := h'.answer y hy
  exact ⟨h.then_leaves hsuited hleaves, fun hp => (hanswer hp).trans (hsame hp),
    fun n hn k hk => h.noted hn ▸ hnoted n hn k hk⟩

section

variable (hs : fact.stateful = true) (hany : fs.any stateful = true) (hsuited : Suited ns p fs)
  (hrun : ∀ (r : Relocation) (v : Value), (p = true → ∃ l, v = .ref l) →
    Advances (withCopies ns fs r) p (moveAll r.place fs) v (runAll run (moveAll r.place fs) v))
  (hkeys : p = true → ∀ f ∈ fs, f.key?.isSome)

include hs hany hsuited hrun hkeys

/-- A round settles the facts, or goes on from between two trials. -/
theorem settled_round {out : Except Fault Value × World} (h : Poised ns p fs v w.store X)
    (hv : p = true → ∃ l, v = .ref l)
    (hout : exec (fixpoint run fact fs rounds (left + 1) last v) w = out) :
    (∃ Y, Settled ns p fs v w.store X out Y) ∨
      ∃ (d : World) (Y : Set Loc) (x : Value) (r : Report), Between ns p fs v w.store X x d.store Y ∧
        (p = true → x = v) ∧ out = exec (fixpoint run fact fs rounds left r x) d := by
  have hround := exec_fixpoint_round hs hout
  obtain ⟨-, Y, -, -, hbetween, hans⟩ := (Between.refl h).attempt (a := runAll run
    (moveAll (w.store.copy (cellsAll fs)).1.place fs) v) hsuited fun Z _ hpoised => hrun _ v hv _ _ hpoised
  rcases hmembers : exec (runAll run (moveAll (w.store.copy (cellsAll fs)).1.place fs) v)
    { w with store := (w.store.copy (cellsAll fs)).2 } with ⟨e | x, q⟩
  · rw [hmembers] at hround hbetween
    subst hround
    exact .inl ⟨Y, hbetween.settled (fun _ => rfl) fun y hy => by cases hy⟩
  rw [hmembers] at hround hans
  obtain ⟨hanswer, htrial⟩ := hans x rfl
  have hsame : p = true → x = v := fun hp => by
    obtain ⟨l, hl⟩ := hv hp
    refine hanswer.same hp (fun g hg => ?_) l hl
    obtain ⟨f, hf, rfl⟩ := mem_moveAll.mp hg
    rw [key?_move]
    exact hkeys hp f hf
  -- checking other copies writes to new objects only
  have hlater := htrial.between.poised.later_checkAll hsuited hany
  obtain ⟨Z, hbetween⟩ := htrial.between.later hsuited hlater
  obtain ⟨Z', htrial⟩ := htrial.later hsuited hlater
  dsimp only at hround
  rcases hcheck : exec (do checkAll (← copyAll fs) 0 x) q with ⟨e | rs, u⟩
  · rw [hcheck] at hround hbetween
    subst hround
    exact .inl ⟨Z, hbetween.settled hsame fun y hy => by cases hy⟩
  rw [hcheck] at hround hbetween htrial
  rcases hround with rfl | ⟨e, rfl⟩ | ⟨d, hd, rfl⟩
  · exact .inl ⟨Z', htrial.settled hsuited hsame⟩
  · exact .inl ⟨Z, hbetween.settled hsame fun y hy => by cases hy⟩
  · rw [← hd] at hbetween
    exact .inr ⟨d, Z, x, _, hbetween, hsame, rfl⟩

/-- What rounds leave on a value that is poised. -/
theorem settled_fixpoint : ∀ {left : Nat} {last : Report} {v : Value} {w : World} {X : Set Loc}
    {out : Except Fault Value × World}, Poised ns p fs v w.store X → (p = true → ∃ l, v = .ref l) →
    exec (fixpoint run fact fs rounds left last v) w = out → ∃ Y, Settled ns p fs v w.store X out Y := by
  intro left
  induction left with
  | zero =>
    intro last v w X out h _ hout
    have hworld : out.2 = w := by
      rw [← hout, fixpoint]
      exact quiet_giveUp w
    have hstart : Between ns p fs v w.store X v out.2.store X := by
      rw [hworld]
      exact .refl h
    refine ⟨X, hstart.settled (fun _ => rfl) ?_⟩
    rw [← hout, fixpoint]
    exact fun _ => giveUp_ne_ok
  | succ left ih =>
    intro last v w X out h hv hout
    rcases settled_round hs hany hsuited hrun hkeys h hv hout with hsettled | ⟨d, Y, x, r, hbetween, hsame, rfl⟩
    · exact hsettled
    · obtain ⟨Z, hsettled⟩ := ih hbetween.poised (fun hp => hsame hp ▸ hv hp) rfl
      exact ⟨Z, hbetween.then_settled hsuited hsame hsettled⟩

end

theorem key?_all : ¬ ∀ f ∈ [Fact.all c fs k b], f.key?.isSome := by
  simp [key?]

/-- A conjunction advances what it is about, if its members do one after the other. -/
theorem advances_all (hsuited : Suited ns p [.all c fs k true]) (hmembers : Suited ns p fs)
    (hrun : ∀ (r : Relocation) (v : Value), (p = true → ∃ l, v = .ref l) →
      Advances (withCopies ns fs r) p (moveAll r.place fs) v (runAll run (moveAll r.place fs) v))
    (hkeys : p = true → ∀ f ∈ fs, f.key?.isSome) :
    Advances ns p [.all c fs k true] v (fixpoint run (.all c fs k true) fs rounds left last v) := by
  intro w X h
  obtain ⟨h, hv⟩ := poised_all.mp h
  have hrounds : exec (fixpoint run (.all c fs k true) fs rounds left last v) w = _ := rfl
  have hstateful : (Fact.all c fs k true).stateful = true := rfl
  obtain ⟨Y, hleaves, hanswer⟩ := settled_fixpoint hstateful hsuited.formed.1.1.symm hmembers hrun hkeys h hv hrounds
  refine ⟨Y, ⟨hleaves.grown, hleaves.size, poised_all.mpr ⟨hleaves.poised, hv⟩, fun m hm hnot hheld => ?_,
    hleaves.held, fun m hm => ?_, fun _ hsome => absurd hsome key?_all⟩, fun y hy => ?_⟩
  · rw [trail_all] at hnot
    refine hleaves.frame m hm hnot fun hmem => hheld (heldBy_mono (fun n hn => ?_) hmem)
    rw [nodesAll, nodes]
    exact List.mem_append_left _ (List.mem_cons_of_mem _ hn)
  · rw [trail_all] at hm ⊢
    exact hleaves.path m hm
  · obtain ⟨hleaves, hsame, hnoted⟩ := hanswer y hy
    refine ⟨poised_all.mpr ⟨hleaves.poised, fun hp => hsame hp ▸ hv hp⟩, fun m hm => ?_,
      fun _ hsome => absurd hsome key?_all, fun hp => hsame hp ▸ ⟨id, id⟩, fun n hn k hk => ?_⟩
    · rw [trail_all] at hm ⊢
      exact hleaves.path m hm
    · rw [noticed_all]
      exact (hnoted n hn k hk).mono (exactAll_all hsuited.formed.1)

/-! ## Every fact that is followed -/

theorem Suited.mem (h : Suited ns p fs) (hf : f ∈ fs) : Suited ns p [f] := by
  induction fs with
  | nil => cases hf
  | cons g fs ih =>
    rcases List.mem_cons.mp hf with rfl | hf
    · exact h.head
    · exact ih h.tail hf

theorem Suited.inner_labeled {name : String} (h : Suited ns p [.labeled c name f b]) : Suited ns p [f] := by
  refine h.sub ⟨h.formed.1.2, trivial⟩ (followed_singleton.mpr ⟨fun hp => ?_, fun hp => ?_⟩) ?_
  · cases h.followed.tracked hp _ (List.mem_singleton_self _) with
    | labeled h => exact h
  · cases h.followed.tallied hp _ (List.mem_singleton_self _) with
    | still hs => exact .still (h.formed.1.1.symm.trans hs)
    | labeled h => exact h
  · simp +contextual [everyNodeAll, chosenAll, chosen, nodesAll, Fact.nodes]

/-- Members that are followed as a whole advance, if they advance each. -/
theorem advances_all_whole (hsuited : Suited ns false [.all c fs k true]) (hmembers : Suited ns false fs)
    (hrun : ∀ (r : Relocation), ∀ f ∈ moveAll r.place fs, ∀ v, Advances (withCopies ns fs r) false [f] v (run f v)) :
    Advances ns false [.all c fs k true] v (fixpoint run (.all c fs k true) fs rounds left last v) :=
  advances_all hsuited hmembers (fun r _ _ => advances_runAll_whole (hmembers.move r) (hrun r)) fun hp => by cases hp

/-- So do members under different texts of an object. -/
theorem advances_all_apiece (hsuited : Suited ns true [.all c fs k true]) (hmembers : Suited ns true fs)
    (hap : Apiece fs)
    (hrun : ∀ (r : Relocation), ∀ f ∈ moveAll r.place fs, ∀ v, Advances (withCopies ns fs r) true [f] v (run f v)) :
    Advances ns true [.all c fs k true] v (fixpoint run (.all c fs k true) fs rounds left last v) := by
  refine advances_all hsuited hmembers (fun r v hv w X h => ?_) fun _ => hap.some
  obtain ⟨l, rfl⟩ := hv rfl
  exact advances_runAll (hmembers.move r) (apiece_move.mpr hap) (fun f hf => hrun r f hf _) h

/-- Mutating a value with a fact that is followed advances what the fact is about. -/
theorem advances_mutateWithin : ∀ (levels : Nat) {ns : List Fact} {p : Bool} {f : Fact} {v : Value},
    Suited ns p [f] → Advances ns p [f] v (mutateWithin levels f v) := by
  intro levels
  induction levels with
  | zero =>
    intro ns p f v hsuited w X h
    exact h.advancesIn_still hsuited h.guarded.beside fun y hy => by cases hy
  | succ levels ih =>
    intro ns p f v hsuited
    have hmember : ∀ {c fs k b}, Suited ns p [.all c fs k b] → Followed p fs → ∀ (r : Relocation),
        ∀ f ∈ moveAll r.place fs, ∀ v, Advances (withCopies ns fs r) p [f] v (mutateWithin levels f v) :=
      fun hsuited hfollowed r f hf v =>
        ih (((hsuited.sub hsuited.formed.1.2 hfollowed fun _ => everyNodeAll_members).move r).mem hf)
    cases p with
    | false =>
      cases hs : f.stateful with
      | false => exact advances_of_stateless hsuited hs
      | true =>
        cases hsuited.followed.tallied rfl _ (List.mem_singleton_self _) with
        | still hstill => cases hs.symm.trans hstill
        | counter => exact advances_takeNext hsuited
        | labeled _ => exact advances_labeled hsuited.formed.1 (ih hsuited.inner_labeled)
        | lens _ => exact advances_lens_whole hsuited fun x => ih hsuited.whole_lens
        | @all c fs k b hall =>
          cases show b = true from hs
          have hfollowed : Followed false fs := followed_whole.mpr hall
          exact advances_all_whole hsuited (hsuited.sub hsuited.formed.1.2 hfollowed fun _ => everyNodeAll_members)
            (hmember hsuited hfollowed)
    | true =>
      cases hsuited.tracked with
      | counter => exact advances_takeNext hsuited
      | distinct _ => exact advances_mutateDistinct hsuited
      | labeled _ => exact advances_labeled hsuited.formed.1 (ih hsuited.inner_labeled)
      | lens _ _ _ =>
        exact advances_reads .lens (through_mutateLens _ _) hsuited fun x => ih (hsuited.inner .lens)
      | prism _ _ _ =>
        exact advances_reads .prism (through_mutatePrism _) hsuited fun x => ih (hsuited.inner .prism)
      | each _ _ => exact advances_each hsuited fun x => ih (hsuited.inner .each)
      | @all c fs k hap hall =>
        have hfollowed : Followed true fs := followed_pieces.mpr hall
        exact advances_all_apiece hsuited (hsuited.sub hsuited.formed.1.2 hfollowed fun _ => everyNodeAll_members) hap
          (hmember hsuited hfollowed)

end Fact

end Conform
