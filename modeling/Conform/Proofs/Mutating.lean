import Conform.Proofs.Checking

/-!
# Mutating in an arena

Mutating with a fact that fits an arena keeps the invariant of the arena, however it ends, and answers a
value of the arena. The proof goes through the functions that mutation is made of, and then by the number
of levels: a complement fits if the fact does, and so does a copy.
-/

namespace Conform

namespace Arena

open Conform.Fact

variable {A : Arena}

/-! ## Searching -/

theorem runs_drawUntil {accept : Value → Act Bool} {draw : Value → Act Value}
    (haccept : ∀ v, v.Within A.values → A.Runs (accept v) fun _ => True)
    (hdraw : ∀ v, v.Within A.values → A.Runs (draw v) fun w => w.Within A.values) :
    ∀ {k : Nat} {v : Value}, v.Within A.values →
      A.Runs (Search.drawUntil accept draw k v) fun o => ∀ w, o = some w → w.Within A.values := by
  intro k
  induction k with
  | zero =>
    intro v _
    exact runs_pure nofun
  | succ k ih =>
    intro v hv
    refine (hdraw v hv).bind fun w hw => (haccept w hw).bind fun ok _ => ?_
    split
    · refine runs_pure ?_
      rintro x ⟨⟩
      exact hw
    · exact ih hw

theorem runs_search {accept : Value → Act Bool} {draw : Value → Act Value}
    (haccept : ∀ v, v.Within A.values → A.Runs (accept v) fun _ => True)
    (hdraw : ∀ v, v.Within A.values → A.Runs (draw v) fun w => w.Within A.values)
    {k : Nat} {v : Value} (hv : v.Within A.values) :
    A.Runs (Search.run accept draw k v) fun o => ∀ w, o = some w → w.Within A.values := by
  refine (haccept v hv).bind fun ok _ => ?_
  split
  · refine runs_pure ?_
    rintro x ⟨⟩
    exact hv
  · exact runs_drawUntil haccept hdraw hv

theorem runs_drawLike {f : Fact} {template : Value} (h : template.Within A.values) :
    A.Runs (f.drawLike template) fun v => v.Within A.values := by
  refine (runs_arbitrary h).tryCatch fun e he => ?_
  split
  · exact runs_giveUp
  · exact runs_rethrow he

theorem runs_drawCandidate {f : Fact} {g : Option Generator} {template : Value} (hg : Draws A g)
    (h : template.Within A.values) :
    A.Runs (f.drawCandidate g template) fun v => v.Within A.values := by
  cases g with
  | none => exact runs_drawLike h
  | some g => exact runs_draw (hg g rfl)

theorem runs_scan {f : Fact} (hA : A.Copies f.stateful) (h : f.Fits A false) :
    ∀ {vs : List Value} {n : Nat}, (∀ v ∈ vs, v.Within A.values) →
      A.Runs (f.scan n vs) fun v => v.Within A.values := by
  intro vs
  induction vs with
  | nil =>
    intro n _
    exact runs_giveUp
  | cons v vs ih =>
    intro n hvs
    refine (runs_probe hA h.probed).bind fun p hp => (runs_check hp.1 (hvs v (by simp))).bind fun r _ => ?_
    split
    · exact runs_described.bind fun _ _ => runs_log.bind fun _ _ => runs_pure (hvs v (by simp))
    · exact ih fun x hx => hvs x (by simp [hx])

/-! ## Mutating -/

section

variable (hA : A.Mutable)

theorem runs_differs {v w : Value} :
    A.Runs (do return !(← Act.equal v w)) fun _ => True :=
  runs_equal.bind fun _ _ => runs_pure trivial

theorem runs_mutateDifferent {f : Fact} {c : Loc} {g : Option Generator} {n : Int} {v : Value}
    (hc : A.Readable c) (hg : Draws A g) (hv : v.Within A.values) :
    A.Runs (mutateDifferent f c g n v) fun w => w.Within A.values := by
  refine (runs_slot hc).bind fun value hvalue => ?_
  refine (runs_search (fun _ _ => runs_differs) (fun _ _ => runs_drawCandidate hg hvalue) hv).bind ?_
  intro o ho
  split
  · next w => exact runs_pure (ho w rfl)
  · exact runs_render.bind fun _ _ => runs_giveUp

theorem runs_mutateMembership {f : Fact} {c : Loc} {v : Value} (hc : A.Readable c)
    (hv : v.Within A.values) : A.Runs (mutateMembership f c v) fun w => w.Within A.values := by
  have hslots : A.Runs (Act.ask (·.slots c)) fun vs => ∀ x ∈ vs, x.Within A.values :=
    runs_ask fun s hs => hc s hs
  refine hslots.bind fun options ho => runs_isIn.bind fun found _ => ?_
  split
  · exact runs_pure hv
  · split
    · exact runs_giveUp.bind fun _ (h : False) => h.elim
    · exact runs_choose ho

theorem runs_difference {a b : Value} : A.Runs (difference a b) fun v => ∀ R, v.Within R := by
  refine runs_view.bind fun da _ => runs_view.bind fun db _ => ?_
  split
  · exact runs_inRange.bind fun _ _ => runs_number
  · exact runs_misuse

theorem runs_readFloating {t : String} : A.Runs (readFloating t) fun v => ∀ R, v.Within R := by
  unfold readFloating
  split
  · exact runs_number
  · exact runs_misuse

theorem runs_toFloating {v : Value} (hv : v.Within A.values) :
    A.Runs (toFloating v) fun w => w.Within A.values := by
  refine runs_view.bind fun d _ => ?_
  split
  · exact runs_readFloating.mono fun w hw => hw _
  · split
    · exact runs_readFloating.mono fun w hw => hw _
    · exact runs_misuse
  · exact runs_pure hv
  · split
    · exact runs_inRange.bind fun _ _ => runs_pure Value.within_float
    · exact runs_misuse

theorem runs_fillEnds {low high : Value} {floating : Bool} (hl : low.Within A.values)
    (hh : high.Within A.values) :
    A.Runs (fillEnds low high floating) fun p => p.1.Within A.values ∧ p.2.Within A.values := by
  have hbound : ∀ (x : Binary64) (n : Int),
      (if floating then Value.atom (.float x) else .int n).Within A.values := by
    intro x n
    split
    · exact Value.within_float
    · exact Value.within_int
  unfold fillEnds
  dsimp only
  split
  · exact runs_pure ⟨hbound _ _, hbound _ _⟩
  · split
    · exact runs_difference.bind fun x hx => runs_pure ⟨hx _, hh⟩
    · split
      · exact runs_sum.bind fun x hx => runs_pure ⟨hl, hx _⟩
      · exact runs_pure ⟨hl, hh⟩

theorem runs_drawBetween {ends : Value × Value} {floating : Bool} (hl : ends.1.Within A.values)
    (hh : ends.2.Within A.values) :
    A.Runs (drawBetween ends floating) fun v => v.Within A.values := by
  unfold drawBetween
  split
  · refine (runs_toFloating hl).bind fun low hlow => (runs_toFloating hh).bind fun high _ => ?_
    exact runs_floatInRange hlow
  · exact runs_intInRange hl

theorem runs_anyFloat {vs : List Value} : A.Runs (anyFloat vs) fun _ => True :=
  runs_viewAll.bind fun _ _ => runs_pure trivial

theorem runs_mutateInside {f : Fact} {c : Loc} {v : Value} (hc : A.Readable c)
    (hv : v.Within A.values) : A.Runs (mutateInside f c v) fun w => w.Within A.values := by
  refine (runs_slot hc).bind fun low hlow => (runs_slot hc).bind fun high hhigh => ?_
  have hrest : A.Runs (do
      if (← checkRange c true v).ok then return v
      let floating ← anyFloat [low, high, v]
      drawBetween (← fillEnds low high floating) floating) fun w => w.Within A.values := by
    refine runs_checkRange.bind fun r _ => ?_
    split
    · exact runs_pure hv
    · refine runs_anyFloat.bind fun floating _ => (runs_fillEnds hlow hhigh).bind fun ends he => ?_
      exact runs_drawBetween he.1 he.2
  split
  · refine runs_view.bind fun dh _ => runs_view.bind fun dl _ => ?_
    split
    · exact runs_misuse_bind
    · refine Runs.bind (P := fun _ => True) (runs_ask fun _ _ => trivial) fun t _ => ?_
      refine runs_written.bind fun t _ => ?_
      exact runs_giveUp.bind fun _ (h : False) => h.elim
    · exact hrest
  · exact hrest

theorem runs_stepOut {bound : Value} {floating up : Bool} :
    A.Runs (stepOut bound floating up) fun v => ∀ R, v.Within R := by
  unfold stepOut
  split
  · refine runs_view.bind fun d _ => ?_
    split
    · exact runs_inRange.bind fun x _ => runs_number
    · exact runs_misuse
  · split
    · exact runs_sum
    · exact runs_difference

/-- A number on one of the sides of a range that have room. -/
theorem runs_drawBeside (f : Fact) {floating : Bool} (sides : List (Value × Value))
    (hs : ∀ p ∈ sides, p.1.Within A.values ∧ p.2.Within A.values) :
    A.Runs (do
      if sides.isEmpty then f.giveUp "nothing lies outside an unbounded range" none
      let (low, high) ← Draw.choose sides
      drawBetween (← fillEnds low high floating) floating) fun w => w.Within A.values := by
  dsimp only
  split
  · exact runs_giveUp.bind fun _ (h : False) => h.elim
  · refine (runs_choose hs).bind fun p hp => ?_
    exact (runs_fillEnds hp.1 hp.2).bind fun ends he => runs_drawBetween he.1 he.2

theorem runs_mutateOutside {f : Fact} {c : Loc} {v : Value} (hc : A.Readable c)
    (hv : v.Within A.values) : A.Runs (mutateOutside f c v) fun w => w.Within A.values := by
  refine runs_checkRange.bind fun r _ => ?_
  split
  · exact runs_pure hv
  · refine (runs_slot hc).bind fun low hlow => (runs_slot hc).bind fun high hhigh => ?_
    refine runs_anyFloat.bind fun floating _ => ?_
    -- four ways of leaving room below and above; with none, the choice among no sides is given up
    dsimp only
    split <;> split
    · exact runs_drawBeside f [] (List.forall_mem_nil _)
    · refine runs_stepOut.bind fun y hy => runs_drawBeside f [(y, Value.null)] ?_
      simpa using hy A.values
    · refine runs_stepOut.bind fun x hx => runs_drawBeside f [(Value.null, x)] ?_
      simpa using hx A.values
    · refine runs_stepOut.bind fun x hx => runs_stepOut.bind fun y hy => ?_
      refine runs_drawBeside f [(Value.null, x), (y, Value.null)] ?_
      simpa using ⟨hx A.values, hy A.values⟩

include hA in
theorem runs_withFirst {v a b : Value} (hv : v.Within A.values) (ha : a.Within A.values)
    (hb : b.Within A.values) : A.Runs (withFirst v a b) fun w => w.Within A.values := by
  have hpair : ∀ cls, (Value.tuple cls [a, b]).Within A.values := by
    intro cls
    simpa using ⟨ha, hb⟩
  unfold withFirst
  split
  · next l =>
    have hl := Value.within_ref.mp hv
    have hget : A.Runs (Act.ask (·.get? l)) fun o => ∀ o', o = some o' → o'.Within A.values :=
      runs_ask fun s hs o' ho' => hs.object hl ho'
    refine hget.bind fun o ho => ?_
    split
    · next x rest =>
      have hrest := Object.within_list.mp (ho _ rfl)
      refine Runs.bind (P := fun _ => True) (runs_put (hA hl) ?_ nofun) fun _ _ => runs_pure hv
      refine Object.within_list.mpr fun y hy => ?_
      rcases List.mem_cons.mp hy with rfl | hy
      · exact ha
      · exact hrest y (by simp [hy])
    · exact runs_pure (hpair _)
  · exact runs_pure (hpair _)
  · exact runs_pure (hpair _)

include hA in
theorem runs_mutatePair {f : Fact} {equal : Bool} {g : Option Generator} {n : Int} {v : Value}
    (hg : Draws A g) (hv : v.Within A.values) :
    A.Runs (mutatePair f equal g n v) fun w => w.Within A.values := by
  refine (runs_items hv).bind fun p hp => ?_
  obtain ⟨a, b⟩ := p
  dsimp only
  split
  · exact runs_withFirst hA hv hp.2 hp.2
  · refine (runs_search (fun _ _ => runs_differs) (fun _ _ => runs_drawCandidate hg hp.2) hp.1).bind ?_
    intro o ho
    split
    · next x => exact runs_withFirst hA hv (ho x rfl) hp.2
    · exact runs_render.bind fun _ _ => runs_giveUp

theorem runs_mutateDistinct {f : Fact} {c : Loc} {g : Option Generator} {n : Int} {v : Value}
    (hc : A.Free c) (hg : Draws A g) (hv : v.Within A.values) :
    A.Runs (mutateDistinct f c g n v) fun w => w.Within A.values := by
  have hunseen : ∀ w : Value, w.Within A.values →
      A.Runs (do return !(← Act.isIn w (← seen c))) fun _ => True := fun w _ =>
    (runs_seen hc).bind fun vs _ => runs_isIn.bind fun _ _ => runs_pure trivial
  refine (runs_search hunseen (fun _ hw => runs_drawCandidate hg hw) hv).bind fun o ho => ?_
  split
  · next w => exact (runs_remember hc (ho w rfl)).bind fun _ _ => runs_pure (ho w rfl)
  · exact runs_giveUp

theorem runs_mutateBrute {f : Fact} {test : Data → Bool} {g : Option Generator} {n : Int} {v : Value}
    (hg : Draws A g) (hv : v.Within A.values) :
    A.Runs (mutateBrute f test g n v) fun w => w.Within A.values := by
  have hpasses : ∀ w : Value, w.Within A.values →
      A.Runs (do return test (← Act.view w)) fun _ => True := fun w _ =>
    runs_view.bind fun _ _ => runs_pure trivial
  refine (runs_search hpasses (fun _ _ => runs_drawCandidate hg hv) hv).bind fun o ho => ?_
  split
  · next w => exact runs_pure (ho w rfl)
  · exact runs_giveUp

include hA in
theorem runs_rebuild {f : Fact} {v : Value} {xs : List Value} (hv : v.Within A.values)
    (hxs : ∀ x ∈ xs, x.Within A.values) : A.Runs (f.rebuild v xs) fun w => w.Within A.values := by
  refine runs_get.bind fun w hw => ?_
  split
  · next x s hr =>
    obtain ⟨hx, hs⟩ := Store.rebuild_within hA hw hv hxs hr
    -- the store is set in a world read later, so the invariant of that world is the one of `s`
    refine Runs.bind (P := fun _ => True) (runs_modify ?_ fun _ hvaries => hvaries) fun _ _ => runs_pure hx
    exact fun _ _ => hs
  · exact runs_written.bind fun _ _ => runs_giveUp

theorem runs_drawElement {f : Fact} {c : Loc} {g : Option Generator} {v : Value} (hc : A.Readable c)
    (hg : Draws A g) (hv : v.Within A.values) :
    A.Runs (f.drawElement c g v) fun w => w.Within A.values := by
  unfold drawElement
  split
  · next g => exact runs_draw (hg g rfl)
  · refine (runs_slot hc).bind fun like hlike => ?_
    split
    · next own =>
      have hletters : ∀ letters : String, A.Runs (do
          if letters = "" then
            f.giveUp "cannot extend an empty str without `like` or `generate`" none
          Draw.choose (Store.characters letters)) fun w => w.Within A.values := by
        intro letters
        split
        · exact runs_giveUp.bind fun _ (h : False) => h.elim
        · refine runs_choose fun x hx => ?_
          obtain ⟨ch, -, rfl⟩ := List.mem_map.mp hx
          exact Value.within_text
      exact hletters _
    · refine (runs_elements hv).bind fun own hown => ?_
      have htemplate : ∀ template : Value, template.Within A.values → A.Runs (do
          if template.isNull then
            f.giveUp "cannot extend an empty sequence without `like` or `generate`" none
          f.drawLike template) fun w => w.Within A.values := by
        intro template ht
        split
        · exact runs_giveUp.bind fun _ (h : False) => h.elim
        · exact runs_drawLike ht
      refine htemplate _ ?_
      split
      · cases own with
        | nil => exact Value.within_null
        | cons x xs => exact hown x (by simp)
      · exact hlike

include hA in
theorem runs_mutateLength {f : Fact} {c : Loc} {size : Int} {g : Option Generator} {v : Value}
    (hc : A.Readable c) (hg : Draws A g) (hv : v.Within A.values) :
    A.Runs (f.mutateLength c size g v) fun w => w.Within A.values := by
  have hfirst : A.Runs (Act.ask (·.firstElements? v size.toNat)) fun o =>
      ∀ xs, o = some xs → ∀ x ∈ xs, x.Within A.values :=
    runs_ask fun s hs xs h => Store.firstElements?_within hs.closed hv h
  refine hfirst.bind fun o ho => ?_
  split
  · exact runs_misuse
  · next xs =>
    refine (runs_mapM fun _ _ => runs_drawElement hc hg hv).bind fun more hmore => ?_
    refine runs_rebuild hA hv fun x hx => ?_
    rcases List.mem_append.mp hx with hx | hx
    · exact ho xs rfl x hx
    · exact hmore x hx

/-! ## Complements -/

include hA in
theorem runs_twinCell {c : Loc} (hc : A.Readable c) : A.Runs (twinCell c) fun d => A.Free d := by
  have hslots : A.Runs (Act.ask (·.slots c)) fun vs => ∀ v ∈ vs, v.Within A.values :=
    runs_ask fun s hs => hc s hs
  refine hslots.bind fun vs hvs => runs_alloc (Object.within_slots.mpr hvs) ?_
  rintro us ⟨⟩ m hm
  exact hA (Value.within_ref.mp (hvs _ hm))

theorem runs_emptyCell : A.Runs emptyCell fun d => A.Free d := by
  refine runs_alloc (Object.within_slots.mpr nofun) ?_
  rintro us ⟨⟩ m hm
  cases hm

theorem runs_relabel {name : String} {f : Fact} (h : f.Fits A false) :
    A.Runs (relabel name f) fun g => g.Fits A false := by
  refine runs_emptyCell.bind fun d _ => ?_
  split
  · exact runs_pure h
  · exact runs_pure h

include hA in
/-- The complement of a fact that fits fits too. -/
theorem runs_complement : ∀ {f : Fact}, f.Fits A false →
    A.Runs f.complement fun o => ∀ g, o = some g → g.Fits A false
  | .always _, _ => runs_emptyCell.bind fun d _ => runs_pure (by rintro g ⟨⟩; trivial)
  | .never _ _, _ => runs_emptyCell.bind fun d _ => runs_pure (by rintro g ⟨⟩; trivial)
  | .equality c _ _ _, h => by
    refine (runs_twinCell hA (h.1 rfl)).bind fun d hd => runs_pure ?_
    rintro g ⟨⟩
    exact ⟨fun _ => hd.readable, h.2⟩
  | .range c _, h => by
    refine (runs_twinCell hA (h rfl)).bind fun d hd => runs_pure ?_
    rintro g ⟨⟩
    exact fun _ => hd.readable
  | .pair _ _ _ _, h => by
    refine runs_emptyCell.bind fun d _ => runs_pure ?_
    rintro g ⟨⟩
    exact h
  | .negation _ f _ _, h => runs_pure (by rintro g ⟨⟩; exact h.1)
  | .lens _ _ f _, h => by
    refine (runs_complement h.2).bind fun o ho => ?_
    split
    · next g =>
      refine runs_emptyCell.bind fun d _ => runs_pure ?_
      rintro g' ⟨⟩
      exact ⟨h.1, ho g rfl⟩
    · exact runs_pure nofun
  | .labeled _ _ f _, h => by
    refine (runs_complement (f := f) h).bind fun o ho => ?_
    split
    · next g =>
      refine (runs_relabel (ho g rfl)).bind fun g' hg' => runs_pure ?_
      rintro g'' ⟨⟩
      exact hg'
    · exact runs_pure nofun
  | .foreign _ _, h => h.elim
  | .membership _, _ | .counter _, _ | .distinct _ _ _, _ | .all _ _ _ _, _ | .either _ _ _ _, _
  | .prism _ _ _ _, _ | .each _ _ _, _ | .length _ _ _, _ | .mapped _ _ _ _ _, _
  | .predicate _ _ _, _ | .brute _ _ _ _ _, _ | .choice _ _ _, _ => runs_pure nofun

/-! ## Combinations -/

variable {run : Fact → Value → Act Value}
  (hrun : ∀ f v, f.Fits A false → v.Within A.values → A.Runs (run f v) fun w => w.Within A.values)

include hrun in
theorem runs_runAll {fs : List Fact} {v : Value} (h : FitsAll A false fs) (hv : v.Within A.values) :
    A.Runs (runAll run fs v) fun w => w.Within A.values :=
  runs_foldlM (fun f hf x hx => hrun f x (h.mem f hf) hx) hv

/-- What a round works on: copies of the members of a stateful conjunction, or else themselves. -/
theorem runs_trial {fact : Fact} {fs : List Fact} (hA : A.Copies fact.stateful)
    (h : FitsAll A false fs) (hfree : fact.stateful = true → ∀ c ∈ cellsAll fs, A.Free c) :
    A.Runs (if fact.stateful then copyAll fs else pure fs) fun gs =>
      FitsAll A false gs ∧ (fact.stateful = true → ∀ c ∈ cellsAll gs, A.Free c) := by
  split
  · next hs => exact (runs_copyAll (hA hs) h.copied).mono fun gs hgs => ⟨hgs.1, fun _ => hgs.2⟩
  · exact runs_pure ⟨h, hfree⟩

include hA hrun in
theorem runs_fixpoint {fact : Fact} {fs : List Fact} {rounds : Int} (hcopies : A.Copies fact.stateful)
    (h : FitsAll A false fs) (hfree : fact.stateful = true → ∀ c ∈ cellsAll fs, A.Free c) :
    ∀ {left : Nat} {last : Report} {v : Value}, v.Within A.values →
      A.Runs (fixpoint run fact fs rounds left last v) fun w => w.Within A.values := by
  intro left
  induction left with
  | zero =>
    intro last v _
    exact runs_giveUp
  | succ left ih =>
    intro last v hv
    have hagain : ∀ (last : Report) (v : Value), v.Within A.values → A.Runs (do
        Act.log .debug "factual.combinators"
          ((← fact.described) ++ ": round " ++ toString (rounds - left) ++ "/" ++ toString rounds ++
            " left " ++ toString last.size ++ " violation(s)")
        fixpoint run fact fs rounds left last v) fun w => w.Within A.values := fun last v hv =>
      runs_described.bind fun _ _ => runs_log.bind fun _ _ => ih hv
    have hround : ∀ trial probes : List Fact,
        FitsAll A false trial ∧ (fact.stateful = true → ∀ c ∈ cellsAll trial, A.Free c) →
        ∀ v : Value, v.Within A.values → FitsAll A false probes → A.Runs (do
          let last := Report.combine (← checkAll probes 0 v)
          if last.ok then
            if fact.stateful then commitCells (cellsAll fs) (cellsAll trial)
            return v
          Act.log .debug "factual.combinators"
            ((← fact.described) ++ ": round " ++ toString (rounds - left) ++ "/" ++ toString rounds ++
              " left " ++ toString last.size ++ " violation(s)")
          fixpoint run fact fs rounds left last v) fun w => w.Within A.values := by
      intro trial probes ht v hv hp
      refine (runs_checkAll hp hv).bind fun rs _ => ?_
      dsimp only
      split
      · split
        · next hs => exact (runs_commitCells hA (hfree hs) (ht.2 hs)).bind fun _ _ => runs_pure hv
        · exact runs_pure hv
      · exact hagain _ v hv
    have hprobes := runs_trial hcopies h hfree
    rw [fixpoint]
    by_cases hs : fact.stateful = true
    · simp only [hs, if_true] at hprobes hround ⊢
      refine hprobes.bind fun trial ht => (runs_runAll hrun ht.1 hv).bind fun w hw => ?_
      exact hprobes.bind fun probes hp => hround trial probes ht w hw hp.1
    · simp only [hs] at hprobes hround ⊢
      refine (runs_runAll hrun h hv).bind fun w hw => ?_
      exact hround fs fs ⟨h, nofun⟩ w hw h

include hrun in
theorem runs_mutateEither {fact a b : Fact} {v : Value} (hcopies : A.Copies fact.stateful)
    (ha : a.Fits A false) (hb : b.Fits A false) (hv : v.Within A.values) :
    A.Runs (mutateEither run fact a b v) fun w => w.Within A.values := by
  have hsatisfies : ∀ f : Fact, f.Fits A false → A.Runs (do
      let p ← if fact.stateful then f.copy else pure f
      return (← p.check v).ok) fun _ => True := by
    intro f hf
    split
    · next hs =>
      refine (runs_copy (hcopies hs) hf.copied).bind fun p hp => ?_
      exact (runs_check hp.1 hv).bind fun _ _ => runs_pure trivial
    · exact (runs_check hf hv).bind fun _ _ => runs_pure trivial
  refine (hsatisfies a ha).bind fun x _ => ?_
  split
  · exact runs_pure hv
  · refine (hsatisfies b hb).bind fun y _ => ?_
    split
    · exact runs_pure hv
    · refine runs_boolean.bind fun z _ => hrun _ v ?_ hv
      split
      · exact ha
      · exact hb

include hA hrun in
/-- A value for a negation, once the fact has been told whether it passes already. -/
theorem runs_violating {fact f p : Fact} {n : Int} {v : Value} (hf : f.Fits A false) (hp : p.Fits A false)
    (hv : v.Within A.values) : A.Runs (do
      if !(← p.check v).ok then return v
      match ← f.complement with
      | some g => run g v
      | none =>
        let violates (w : Value) : Act Bool := do return !(← f.check w).ok
        match ← Search.drawUntil violates (fun _ => fact.drawLike v) (budget n) v with
        | some w => return w
        | none => fact.giveUp ("no value violating " ++ (← f.described) ++ drawsText n) none)
      fun w => w.Within A.values := by
  have hviolates : ∀ w : Value, w.Within A.values →
      A.Runs (do return !(← f.check w).ok) fun _ => True := fun w hw =>
    (runs_check hf hw).bind fun _ _ => runs_pure trivial
  refine (runs_check hp hv).bind fun r _ => ?_
  split
  · exact runs_pure hv
  · refine (runs_complement hA hf).bind fun o ho => ?_
    split
    · next g => exact hrun g v (ho g rfl) hv
    · refine (runs_drawUntil hviolates (fun _ _ => runs_drawLike hv) hv).bind fun o ho => ?_
      split
      · next w => exact runs_pure (ho w rfl)
      · exact runs_described.bind fun _ _ => runs_giveUp

include hA hrun in
theorem runs_mutateNegation {fact f : Fact} {n : Int} {v : Value} (hcopies : A.Copies fact.stateful)
    (hf : f.Fits A false) (hv : v.Within A.values) :
    A.Runs (mutateNegation run fact f n v) fun w => w.Within A.values := by
  unfold mutateNegation
  split
  · next hs =>
    exact (runs_copy (hcopies hs) hf.copied).bind fun p hp => runs_violating hA hrun hf hp.1 hv
  · exact runs_violating hA hrun hf hf hv

include hA in
theorem runs_write {a : Accessor} {v part : Value} (ha : a.Fits A) (hv : v.Within A.values)
    (hpart : part.Within A.values) : A.Runs (a.write v part) fun w => w.Within A.values := by
  intro u hu
  rw [Act.exec_write]
  cases hset : a.set u.store v part with
  | ok p =>
    obtain ⟨hw, hs⟩ := Accessor.set_within ha hA hu hv hpart hset
    refine ⟨hs, ?_, nofun, id⟩
    rintro x ⟨⟩
    exact hw
  | error e =>
    refine ⟨hu, nofun, ?_, id⟩
    rintro x ⟨⟩
    exact Accessor.set_plain ha hA hu hv hpart hset

include hA in
theorem runs_mutateLens {step : Value → Act Value} {fact : Fact} {a : Accessor} {v : Value}
    (hstep : ∀ x, x.Within A.values → A.Runs (step x) fun y => y.Within A.values) (ha : a.Fits A)
    (hv : v.Within A.values) : A.Runs (mutateLens step fact a v) fun w => w.Within A.values := by
  refine (runs_part? ha hv).bind fun o ho => ?_
  split
  · exact runs_render.bind fun _ _ => runs_giveUp
  · next x => exact (hstep x (ho x rfl)).under.bind fun y hy => runs_write hA ha hv hy

include hA in
theorem runs_mutatePrism {step : Value → Act Value} {a : Accessor} {v : Value}
    (hstep : ∀ x, x.Within A.values → A.Runs (step x) fun y => y.Within A.values) (ha : a.Fits A)
    (hv : v.Within A.values) : A.Runs (mutatePrism step a v) fun w => w.Within A.values := by
  refine (runs_part? ha hv).bind fun o ho => ?_
  split
  · exact runs_pure hv
  · next x =>
    split
    · exact runs_pure hv
    · exact (hstep x (ho x rfl)).under.bind fun y hy => runs_write hA ha hv hy

theorem runs_mutateElements {step : Value → Act Value}
    (hstep : ∀ x, x.Within A.values → A.Runs (step x) fun y => y.Within A.values) :
    ∀ {xs : List Value} {i : Nat}, (∀ x ∈ xs, x.Within A.values) →
      A.Runs (mutateElements step i xs) fun ys => ∀ y ∈ ys, y.Within A.values := by
  intro xs
  induction xs with
  | nil =>
    intro i _
    exact runs_pure nofun
  | cons x xs ih =>
    intro i h
    refine (hstep x (h x (by simp))).under.bind fun y hy => ?_
    refine (ih fun z hz => h z (by simp [hz])).bind fun ys hys => runs_pure ?_
    simpa using ⟨hy, hys⟩

include hrun in
theorem runs_mutateChoice {c : Loc} {f : Option Fact} {b : Bool} {v : Value}
    (h : (Fact.choice c f b).Fits A false) (hv : v.Within A.values) :
    A.Runs (mutateChoice run (.choice c f b) c f v) fun w => w.Within A.values := by
  have hcopies : A.Copies b := by
    cases f with
    | none => exact h.2
    | some f => exact h.2.1
  have hreadable : A.Readable c := by
    cases f with
    | none => exact h.1 rfl
    | some f => exact h.1 rfl
  have hslots : A.Runs (Act.ask (·.slots c)) fun vs => ∀ x ∈ vs, x.Within A.values :=
    runs_ask fun s hs => hreadable s hs
  refine (runs_probe hcopies h.probed).bind fun p hp => (runs_check hp.1 hv).bind fun r _ => ?_
  split
  · split
    · next g => exact hrun g v h.2.2.1 hv
    · exact runs_pure hv
  · refine hslots.bind fun vs hvs => ?_
    split
    · next g => exact (runs_scan h.2.2.2 h.2.2.1 hvs).bind fun x hx => hrun g x h.2.2.1 hx
    · split
      · next x xs => exact runs_pure (hvs x (by simp))
      · exact runs_giveUp

theorem fits_pick {d : Data} {otherwise : Fact} : ∀ {tests : List (Data → Bool)} {fs : List Fact},
    FitsAll A false fs → otherwise.Fits A false → (pick d otherwise tests fs).Fits A false := by
  intro tests
  induction tests with
  | nil =>
    intro fs _ ho
    exact ho
  | cons test tests ih =>
    intro fs h ho
    cases fs with
    | nil => exact ho
    | cons f fs =>
      rw [pick]
      split
      · exact h.1
      · exact ih h.2 ho

end

/-- Mutating with a fact that fits an arena keeps its invariant, and answers a value of the arena. -/
theorem runs_mutateWithin (hA : A.Mutable) (levels : Nat) : ∀ (f : Fact) (v : Value),
    f.Fits A false → v.Within A.values →
      A.Runs (mutateWithin levels f v) fun w => w.Within A.values := by
  induction levels with
  | zero =>
    intro f v _ _
    exact runs_misuse
  | succ levels ih =>
    intro f v h hv
    cases f with
    | always c => exact runs_pure hv
    | never c reason => exact runs_giveUp
    | equality c equal g n =>
      cases equal with
      | true => exact runs_slot (h.1 rfl)
      | false => exact runs_mutateDifferent (h.1 rfl) h.2 hv
    | membership c => exact runs_mutateMembership (h rfl) hv
    | range c inside =>
      cases inside with
      | true => exact runs_mutateInside (h rfl) hv
      | false => exact runs_mutateOutside (h rfl) hv
    | pair c equal g n => exact runs_mutatePair hA h hv
    | counter c => exact runs_takeNext (h rfl)
    | distinct c g n => exact runs_mutateDistinct (h.1 rfl) h.2 hv
    | all c fs n b =>
      refine runs_fixpoint hA ih ?_ h.1 ?_ hv
      · exact h.2.1
      · exact fun hb => h.2.2 hb rfl
    | either c a b s => exact runs_mutateEither ih h.2.2 h.1 h.2.1 hv
    | negation c f n b => exact runs_mutateNegation hA ih h.2 h.1 hv
    | lens c a f b => exact runs_mutateLens hA (fun x hx => ih f x h.2 hx) h.1 hv
    | prism c a f b => exact runs_mutatePrism hA (fun x hx => ih f x h.2 hx) h.1 hv
    | each c f b =>
      refine (runs_elements hv).bind fun xs hxs => ?_
      refine (runs_mutateElements (fun x hx => ih f x h hx) hxs).bind fun ys hys => ?_
      exact runs_rebuild hA hv hys
    | length c n g => exact runs_mutateLength hA (h.1 rfl) h.2 hv
    | mapped c name tests fs f =>
      exact runs_view.bind fun d _ => (ih _ v (fits_pick h.1 h.2) hv).under
    | predicate c name test => exact runs_giveUp
    | brute c name test g n => exact runs_mutateBrute h hv
    | choice c f b => exact runs_mutateChoice ih h hv
    | labeled c name f b => exact ih f v h hv
    | foreign c kind => exact h.elim

theorem runs_mutate (hA : A.Mutable) {f : Fact} {v : Value} (h : f.Fits A false)
    (hv : v.Within A.values) : A.Runs (f.mutate v) fun w => w.Within A.values :=
  runs_mutateWithin hA f.depth f v h hv

end Arena

end Conform
