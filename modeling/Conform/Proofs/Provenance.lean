import Conform.Proofs.Blame

/-!
# Where a failed call lays the blame

A call of `satisfy` that fails comes with a report. A fault of mutation brings only what the fact can bring
(`settles_mutateWithin`), by the number of levels and the functions that mutation is made of. So the report of a
failed call blames the fact or is brought by it (`satisfy_blames_or_brings`), and it has the whole path of every
violation if no conjunction lies below a fact that adds no tag to a fault (`satisfy_blames`).
-/

namespace Conform

open Act

namespace Fact

section

variable {f g : Fact} {fs : List Fact} {c : Loc} {n : Int} {b : Bool} {x : Violation} {a : Accessor} {v : Value}
  {S : Violation → Prop} {name : String}

/-! ## Mutation -/

variable {run : Fact → Value → Act Value}
  (hrun : ∀ f v, f.Honest → Settles (run f v) (fun _ => True) f.Brings)

include hrun in
theorem settles_runAll (h : HonestAll fs) (hS : ∀ f ∈ fs, ∀ x, f.Brings x → S x) :
    ∀ {v : Value}, Settles (runAll run fs v) (fun _ => True) S := by
  induction fs with
  | nil => exact settles_pure trivial
  | cons f fs ih =>
    intro v
    have hfirst := (hrun f v h.1).mono (fun _ _ => trivial) (hS f List.mem_cons_self)
    refine hfirst.bind fun w _ => ?_
    exact ih h.2 fun g hg => hS g (List.mem_cons_of_mem f hg)

theorem silent_commitCells {targets sources : List Loc} : Silent (commitCells targets sources) := by
  have hpairs : ∀ ps : List (Loc × Loc),
      Silent (ps.forM fun p => do Act.put p.1 (.slots (← Act.ask (·.slots p.2)))) := by
    intro ps
    induction ps with
    | nil => exact silent_pure
    | cons p ps ih => exact Silent.bind (silent_ask.bind fun _ => silent_put) fun _ => ih
  exact hpairs _

include hrun in
/-- A conjunction that has used up its rounds brings what the last round left, and its members bring what
they do. -/
theorem settles_fixpoint (h : (Fact.all c fs n b).Honest) {rounds : Int} :
    ∀ {left : Nat} {last : Report} {v : Value}, (∀ x ∈ last.violations, (Fact.all c fs n b).Blames x) →
      Settles (fixpoint run (.all c fs n b) fs rounds left last v) (fun _ => True)
        (Fact.all c fs n b).Brings := by
  intro left
  induction left with
  | zero => exact fun hlast => settles_giveUp fun x hx => .conjunction (hlast x hx)
  | succ left ih =>
    intro _ v _
    have hagain : ∀ (last : Report) (v : Value), (∀ x ∈ last.violations, (Fact.all c fs n b).Blames x) →
        Settles (do
          Act.log .debug "factual.combinators"
            ((← (Fact.all c fs n b).described) ++ ": round " ++ toString (rounds - left) ++ "/" ++
              toString rounds ++ " left " ++ toString last.size ++ " violation(s)")
          fixpoint run (.all c fs n b) fs rounds left last v) (fun _ => True)
          (Fact.all c fs n b).Brings := fun last v hlast =>
      silent_described.bind fun _ => silent_log.bind fun _ => ih hlast
    have hround : ∀ (trial probes : List Fact) (v : Value), (∃ m, probes = moveAll m fs) → Settles (do
        let last := Report.combine (← checkAll probes 0 v)
        if last.ok then
          if b then commitCells (cellsAll fs) (cellsAll trial)
          return v
        Act.log .debug "factual.combinators"
          ((← (Fact.all c fs n b).described) ++ ": round " ++ toString (rounds - left) ++ "/" ++
            toString rounds ++ " left " ++ toString last.size ++ " violation(s)")
        fixpoint run (.all c fs n b) fs rounds left last v) (fun _ => True)
        (Fact.all c fs n b).Brings := by
      rintro trial probes v ⟨m, rfl⟩
      have hcheck := settles_checkAll (HonestAll.move (m := m) (show HonestAll fs from h)) 0 v
      refine (hcheck.mono (fun rs hrs => hrs) fun _ h => h.elim).bind fun rs hrs => ?_
      have hlast : ∀ x ∈ (Report.combine rs).violations, (Fact.all c fs n b).Blames x := by
        intro x hx
        have hmoved : ((Fact.all c fs n b).move m).Blames x := (hrs x hx).all
        exact hmoved.of_move
      dsimp only
      split
      · split
        · exact silent_commitCells.bind fun _ => settles_pure trivial
        · exact settles_pure trivial
      · exact hagain _ v hlast
    have hmembers : ∀ {m : Loc → Loc}, ∀ f ∈ moveAll m fs, ∀ x, f.Brings x →
        (Fact.all c fs n b).Brings x := by
      intro m f hf x hx
      obtain ⟨g, hg, hbrings⟩ := Brings.of_moveAll _ hf hx
      exact .member hg hbrings
    rw [fixpoint]
    cases b with
    | true =>
      refine (settles_trial true).bind fun trial ht => ?_
      obtain ⟨m, rfl⟩ := ht
      refine (settles_runAll hrun (HonestAll.move h) hmembers).bind fun w _ => ?_
      exact (settles_trial true).bind fun probes hp => hround _ probes w hp
    | false =>
      refine (settles_runAll hrun (show HonestAll fs from h) fun f hf x hx => .member hf hx).bind ?_
      exact fun w _ => hround fs fs w ⟨id, (moveAll_id fs).symm⟩

include hrun in
theorem settles_mutateEither (h : (Fact.either c f g b).Honest) :
    Settles (mutateEither run (.either c f g b) f g v) (fun _ => True) (Fact.either c f g b).Brings := by
  have hsatisfies : ∀ f : Fact, f.Honest → Silent (do
      let p ← if b then f.copy else pure f
      return (← p.check v).ok) := by
    intro f hf
    split
    · refine Settles.bind settles_copy fun p hp => ?_
      exact (settles_checkCopy hf hp).silent.bind fun _ => silent_pure
    · exact (settles_check v hf).silent.bind fun _ => silent_pure
  refine (hsatisfies f h.1).bind fun x => ?_
  split
  · exact settles_pure trivial
  · refine (hsatisfies g h.2).bind fun y => ?_
    split
    · exact settles_pure trivial
    · refine Draw.silent_boolean.bind fun z => ?_
      split
      · exact (hrun f v h.1).mono (fun _ _ => trivial) fun x hx => .first hx
      · exact (hrun g v h.2).mono (fun _ _ => trivial) fun x hx => .second hx

include hrun in
theorem settles_violating (h : (Fact.negation c f n b).Honest) {p : Fact} (hp : ∃ m, p = f.move m) : Settles (do
      if !(← p.check v).ok then return v
      match ← f.complement with
      | some g => run g v
      | none =>
        let violates (w : Value) : Act Bool := do return !(← f.check w).ok
        match ← Search.drawUntil violates (fun _ => (Fact.negation c f n b).drawLike v) (budget n) v with
        | some w => return w
        | none =>
          (Fact.negation c f n b).giveUp ("no value violating " ++ (← f.described) ++ drawsText n) none)
      (fun _ => True) (Fact.negation c f n b).Brings := by
  have hf : f.Honest := h
  refine (settles_checkCopy hf hp).silent.bind fun r => ?_
  split
  · exact settles_pure trivial
  · refine ((settles_complement hf).mono (fun _ h => h) fun _ h => h.elim).bind fun o ho => ?_
    cases o with
    | some g =>
      obtain ⟨hg, hbrings⟩ := ho g rfl
      exact (hrun g v hg).mono (fun _ _ => trivial) fun x hx => .negation (hbrings x hx)
    | none =>
      refine Silent.bind (silent_drawUntil (fun w => ?_) fun _ => silent_drawLike) fun o => ?_
      · exact (settles_check w hf).silent.bind fun _ => silent_pure
      · cases o with
        | some w => exact settles_pure trivial
        | none => exact silent_described.bind fun _ => silent_giveUp.settles

include hrun in
theorem settles_mutateNegation (h : (Fact.negation c f n b).Honest) :
    Settles (mutateNegation run (.negation c f n b) f n v) (fun _ => True)
      (Fact.negation c f n b).Brings := by
  unfold mutateNegation
  split
  · exact settles_copy.bind fun p hp => settles_violating hrun h hp
  · exact settles_violating hrun h ⟨id, (move_id f).symm⟩

theorem settles_mutateLens {step : Value → Act Value} (ha : a.Silent)
    (hstep : ∀ x, Settles (step x) (fun _ => True) f.Brings) :
    Settles (mutateLens step g a v) (fun _ => True) (Fact.lens c a f b).Brings := by
  refine (silent_part? ha).bind fun o => ?_
  cases o with
  | none => exact silent_render.bind fun _ => silent_giveUp.settles
  | some x =>
    refine (((hstep x).under (lensTag a)).mono (fun _ h => h) ?_).bind fun y _ => (silent_write ha).settles
    rintro x ⟨y, hy, rfl⟩
    exact .lens hy

theorem settles_mutatePrism {step : Value → Act Value} (ha : a.Silent)
    (hstep : ∀ x, Settles (step x) (fun _ => True) f.Brings) :
    Settles (mutatePrism step a v) (fun _ => True) (Fact.prism c a f b).Brings := by
  refine (silent_part? ha).bind fun o => ?_
  cases o with
  | none => exact settles_pure trivial
  | some x =>
    dsimp only
    split
    · exact settles_pure trivial
    · refine (((hstep x).under (prismTag a)).mono (fun _ h => h) ?_).bind fun y _ =>
        (silent_write ha).settles
      rintro x ⟨y, hy, rfl⟩
      exact .prism hy

theorem settles_mutateElements {step : Value → Act Value}
    (hstep : ∀ x, Settles (step x) (fun _ => True) f.Brings) :
    ∀ {xs : List Value} {i : Nat}, Settles (mutateElements step i xs) (fun _ => True)
      (Fact.each c f b).Brings := by
  intro xs
  induction xs with
  | nil => exact settles_pure trivial
  | cons x xs ih =>
    intro i
    refine (((hstep x).under (elementTag i)).mono (fun _ h => h) ?_).bind fun y _ => ?_
    · rintro x ⟨y, hy, rfl⟩
      exact .element i hy
    · exact ih.bind fun _ _ => settles_pure trivial

theorem silent_scan (hf : f.Honest) : ∀ {vs : List Value} {k : Nat}, Silent (f.scan k vs) := by
  intro vs
  induction vs with
  | nil => exact silent_giveUp
  | cons v vs ih =>
    intro k
    refine Settles.bind settles_probe fun p hp => (settles_checkCopy hf hp).silent.bind fun r => ?_
    split
    · exact silent_described.bind fun _ => silent_log.bind fun _ => silent_pure
    · exact ih

include hrun in
theorem settles_mutateChoice {o : Option Fact} (h : (Fact.choice c o b).Honest) :
    Settles (mutateChoice run (.choice c o b) c o v) (fun _ => True) (Fact.choice c o b).Brings := by
  refine settles_probe.bind fun p hp => (settles_checkCopy h hp).silent.bind fun r => ?_
  split
  · cases o with
    | none => exact settles_pure trivial
    | some g => exact (hrun g v h).mono (fun _ _ => trivial) fun x hx => .chosen hx
  · refine silent_ask.bind fun candidates => ?_
    cases o with
    | none =>
      cases candidates with
      | nil => exact silent_giveUp.settles
      | cons x xs => exact settles_pure trivial
    | some g =>
      refine (silent_scan (f := g) h).bind fun x => ?_
      exact (hrun g x h).mono (fun _ _ => trivial) fun x hx => .chosen hx

theorem pick_mem_or_eq (d : Data) (otherwise : Fact) (tests : List (Data → Bool)) (fs : List Fact) :
    pick d otherwise tests fs ∈ fs ∨ pick d otherwise tests fs = otherwise := by
  induction tests generalizing fs with
  | nil => exact .inr rfl
  | cons test tests ih =>
    cases fs with
    | nil => exact .inr rfl
    | cons f fs =>
      rw [pick]
      split
      · exact .inl List.mem_cons_self
      · rcases ih fs with h | h
        · exact .inl (List.mem_cons_of_mem f h)
        · exact .inr h

/-- A fault of mutation brings only what the fact can bring. -/
theorem settles_mutateWithin (levels : Nat) : ∀ (f : Fact) (v : Value), f.Honest →
    Settles (mutateWithin levels f v) (fun _ => True) f.Brings := by
  induction levels with
  | zero => exact fun _ _ _ => settles_misuse
  | succ levels ih =>
    intro f v h
    cases f with
    | always c => exact settles_pure trivial
    | never c reason => exact silent_giveUp.settles
    | equality c equal g n =>
      cases equal with
      | true => exact silent_ask.settles
      | false => exact (silent_mutateDifferent h).settles
    | membership c => exact silent_mutateMembership.settles
    | range c inside =>
      cases inside with
      | true => exact silent_mutateInside.settles
      | false => exact silent_mutateOutside.settles
    | pair c equal g n => exact (silent_mutatePair h).settles
    | counter c => exact silent_takeNext.settles
    | distinct c g n => exact (silent_mutateDistinct h).settles
    | all c fs n b => exact settles_fixpoint ih h (List.forall_mem_nil _)
    | either c f g b => exact settles_mutateEither ih h
    | negation c f n b => exact settles_mutateNegation ih h
    | lens c a f b => exact settles_mutateLens h.1 fun x => ih f x h.2
    | prism c a f b => exact settles_mutatePrism h.1 fun x => ih f x h.2
    | each c f b =>
      refine silent_elements.bind fun xs => ?_
      exact (settles_mutateElements fun x => ih f x h).bind fun _ _ => silent_rebuild.settles
    | length c n g => exact (silent_mutateLength h).settles
    | mapped c name tests fs f =>
      refine silent_view.bind fun d => ?_
      rcases pick_mem_or_eq d f tests fs with hpick | hpick
      · refine ((ih _ v (h.1.mem _ hpick)).under (mappedTag name)).mono (fun _ h => h) ?_
        rintro x ⟨y, hy, rfl⟩
        exact .picked hpick hy
      · refine ((ih _ v (hpick.symm ▸ h.2)).under (mappedTag name)).mono (fun _ h => h) ?_
        rintro x ⟨y, hy, rfl⟩
        exact .otherwise (hpick ▸ hy)
    | predicate c name test => exact silent_giveUp.settles
    | brute c name test g n => exact (silent_mutateBrute h).settles
    | choice c f b => exact settles_mutateChoice ih h
    | labeled c name f b => exact (ih f v h).mono (fun _ h => h) fun x hx => .labeled hx
    | foreign c kind =>
      refine (h.2 c v).mono (fun _ h => h) fun x hx => .foreign hx

/-! ## Whole paths -/

/-- Only a conjunction, or a constraint brought from outside, brings anything. -/
theorem Brings.gathers (h : f.Brings x) : ∃ k ∈ f.everyNode, k.Gathers := by
  induction h with
  | conjunction _ => exact ⟨_, self_mem_everyNode _, trivial⟩
  | foreign _ => exact ⟨_, self_mem_everyNode _, trivial⟩
  | member hf _ ih =>
    obtain ⟨k, hk, hgathers⟩ := ih
    exact ⟨k, everyNode_of_parts (everyNodeAll_of_mem hf hk), hgathers⟩
  | second _ ih =>
    obtain ⟨k, hk, hgathers⟩ := ih
    exact ⟨k, everyNode_of_part (List.mem_cons_of_mem _ List.mem_cons_self) hk, hgathers⟩
  | first _ ih | negation _ ih | lens _ ih | prism _ ih | element _ _ ih | chosen _ ih | labeled _ ih =>
    obtain ⟨k, hk, hgathers⟩ := ih
    exact ⟨k, everyNode_of_part List.mem_cons_self hk, hgathers⟩
  | picked hf _ ih =>
    obtain ⟨k, hk, hgathers⟩ := ih
    exact ⟨k, everyNode_of_picked (everyNodeAll_of_mem hf hk), hgathers⟩
  | otherwise _ ih =>
    obtain ⟨k, hk, hgathers⟩ := ih
    exact ⟨k, everyNode_of_last hk, hgathers⟩

/-- If every fact on the way up adds its tag, what is brought is what a check could blame. -/
theorem Brings.blames (h : f.Brings x) (hf : f.Forwards) : f.Blames x := by
  have hnone : ∀ {g : Fact} {y : Violation}, (∀ k ∈ g.everyNode, ¬ k.Gathers) → g.Brings y → False := by
    intro g y hg hy
    obtain ⟨k, hk, hgathers⟩ := hy.gathers
    exact hg k hk hgathers
  induction h with
  | conjunction hx => exact hx
  | foreign hx => exact .foreign hx
  | member hmem hx _ => exact (hnone (hf _ hmem) hx).elim
  | first hx _ => exact (hnone hf.1 hx).elim
  | second hx _ => exact (hnone hf.2 hx).elim
  | negation hx _ => exact (hnone hf hx).elim
  | labeled hx _ => exact (hnone hf hx).elim
  | lens _ ih => exact .lens (ih hf)
  | prism _ ih => exact .prism (ih hf)
  | element i _ ih => exact .element i (ih hf)
  | chosen _ ih => exact .chosen (ih hf)
  | picked hmem _ ih => exact .picked hmem (ih (hf.1.mem _ hmem))
  | otherwise _ ih => exact .otherwise (ih hf.2)

/-- What is blamed on a fact with a label has the label in front. -/
theorem Blames.head?_label (h : f.Blames x) (hl : f.label? = some name) : x.path.head? = some name := by
  cases h with
  | labeled _ =>
    cases hl
    rfl
  | whole hw _ =>
    cases f with
    | labeled => exact hw.elim
    | _ => cases hl
  | _ => cases hl

end

end Fact

open Conform.Fact

/-! ## Attempts -/

/-- Whether the report of an attempt is one of failure, and says that nothing else can be said or has violations
of a set only. -/
def Report.Explains (S : Violation → Prop) (r : Report) : Prop :=
  r.ok = false ∧ ((∃ reason, r = .fail ("mutation exhausted: " ++ reason)) ∨ ∀ x ∈ r.violations, S x)

section

variable {f : Fact} {v : Value} {w u : World} {S : Violation → Prop}

theorem settles_verify (hf : f.Honest) :
    Settles (verify f v) (fun r => ∀ x ∈ r.violations, f.Blames x) fun _ => False :=
  settles_probe.bind fun _ hp => settles_checkCopy hf hp

theorem settles_reportGivenUp (hf : f.Honest) (e : Fault) (last : Option Report)
    (hlast : ∀ r, last = some r → ∀ x ∈ r.violations, f.Brings x) :
    Settles (reportGivenUp f v e last) (Report.Explains fun x => f.Blames x ∨ f.Brings x)
      fun _ => False := by
  have hfound : ∀ found : Report, (∀ x ∈ found.violations, f.Blames x ∨ f.Brings x) →
      (if found.ok then Report.fail ("mutation exhausted: " ++ e.message) else found).Explains
        fun x => f.Blames x ∨ f.Brings x := by
    intro found h
    split
    · exact ⟨rfl, .inl ⟨_, rfl⟩⟩
    · next hok => exact ⟨Bool.eq_false_iff.mpr hok, .inr h⟩
  unfold reportGivenUp
  cases last with
  | none =>
    refine (settles_verify hf).bind fun found hr => settles_pure (hfound found fun x hx => ?_)
    exact .inl (hr x hx)
  | some r => exact settles_pure (hfound r fun x hx => .inr (hlast r rfl x hx))

/-- An attempt that does not satisfy the fact explains itself, and no attempt ends with the fault of a used-up
budget. -/
theorem settles_attemptOnce (hf : f.Honest) :
    Settles (attemptOnce f v)
      (fun o => ∀ r y, o = .again r y → r.Explains fun x => f.Blames x ∨ f.Brings x) f.Brings := by
  refine settles_probe.bind fun trial ht => ?_
  obtain ⟨m, rfl⟩ := ht
  have hmutate := settles_mutateWithin (f.move m).depth (f.move m) v hf.move
  have hattempt : Settles (Act.attempt ((f.move m).mutate v))
      (fun o => ∀ e, o = .error e → e.Carries f.Brings) f.Brings := by
    intro a
    rw [exec_attempt]
    refine ⟨?_, nofun⟩
    rintro o ⟨⟩ e he
    exact ((hmutate a).2 e he).mono fun x hx => hx.of_move
  refine hattempt.bind fun o ho => ?_
  cases o with
  | ok y =>
    refine ((settles_verify hf).mono (fun _ h => h) fun _ h => h.elim).bind fun last hlast => ?_
    refine settles_pure fun r z hr => ?_
    split at hr
    · cases hr
    · next hok =>
      cases hr
      exact ⟨Bool.eq_false_iff.mpr hok, .inr fun x hx => .inl (hlast x hx)⟩
  | error e =>
    cases e with
    | exhausted fact reason last =>
      have hgiven := settles_reportGivenUp (v := v) hf (.exhausted fact reason last) last (by
        rintro r rfl
        exact ho _ rfl)
      refine (hgiven.mono (fun _ h => h) fun _ h => h.elim).bind fun r hr => settles_pure ?_
      rintro _ _ ⟨⟩
      exact hr
    | _ => exact settles_throw (ho _ rfl)

theorem silent_concludeAttempt {trial : Fact} {number : Int} {attempt : String} :
    Silent (concludeAttempt f trial v number attempt) := by
  have hlog : Silent (do
      if 1 < number then
        Act.log .debug satisfyLogger ("satisfy succeeded on attempt " ++ attempt)
      return v) := by
    split
    · exact silent_log.bind fun _ => silent_pure
    · exact silent_pure
  unfold concludeAttempt
  by_cases hs : f.stateful = true
  · simp only [if_pos hs]
    exact silent_commitCells.bind fun _ => hlog
  · simp only [if_neg hs]
    exact hlog

/-- The last of some attempts explains itself. -/
theorem Tries.explains (hf : f.Honest) {k : Nat} {last : Report} {y : Value} (h : Tries f v w k last y u)
    (hk : 0 < k) : last.Explains fun x => f.Blames x ∨ f.Brings x := by
  cases h with
  | none => exact absurd hk (Nat.lt_irrefl 0)
  | more _ hrun => exact (settles_attemptOnce hf _).1 _ (congrArg Prod.fst hrun) _ _ rfl

/-- Every violation that a failed call reports is one that a check of the fact could name, or that a fault of
mutation brought up from a conjunction. -/
theorem satisfy_blames_or_brings (hf : f.Honest) {attempts n : Int} {last : Report}
    (h : exec (satisfy f v attempts) w = (.error (.unsatisfied n last), u)) :
    last.Explains fun x => f.Blames x ∨ f.Brings x := by
  unfold satisfy at h
  by_cases hlow : attempts < 1
  · rw [if_pos hlow] at h
    cases h
  rw [if_neg hlow] at h
  obtain ⟨k, r, x, a, htries, hends⟩ := exec_satisfyFrom_run f attempts v w
  rw [show exec (satisfyFrom f attempts attempts.toNat .pass v) w = _ from h] at hends
  generalize hout : ((Except.error (Fault.unsatisfied n last), u) : Except Fault Value × World) = out at hends
  cases hends with
  | satisfied _ _ =>
    -- concluding a successful attempt raises nothing that would be a used-up budget
    exact (silent_concludeAttempt _ |>.2 _ (congrArg Prod.fst hout.symm)).elim
  | raised _ hrun =>
    cases hout
    exact ((settles_attemptOnce hf _).2 _ (congrArg Prod.fst hrun)).elim
  | exhausted hk =>
    cases hout
    exact htries.explains hf (by omega)

/-- A failed call reports violations with their whole paths, if every fact on the way from a conjunction up to
the root adds its tag to a fault: the report says that nothing else can be said, or each of its violations is one
that a check of the fact could name, and has the label of the fact in front. -/
theorem satisfy_blames (hf : f.Honest) (hforwards : f.Forwards) {attempts n : Int} {last : Report}
    (h : exec (satisfy f v attempts) w = (.error (.unsatisfied n last), u)) :
    last.Explains fun x => f.Blames x ∧ ∀ name, f.label? = some name → x.path.head? = some name := by
  obtain ⟨hfailed, hfallback | hviolations⟩ := satisfy_blames_or_brings hf h
  · exact ⟨hfailed, .inl hfallback⟩
  · refine ⟨hfailed, .inr fun x hx => ?_⟩
    have hblames : f.Blames x := by
      rcases hviolations x hx with hx | hx
      · exact hx
      · exact hx.blames hforwards
    exact ⟨hblames, fun name hl => hblames.head?_label hl⟩

end

/-- An entry that is to be seven and eight at once. -/
def contradictoryFact : Fact :=
  .lens 1 (.item "x" (.text "x")) (.all 2 [.equality 3 true none 100, .equality 4 true none 100] 10 false) false

/-- A mapping with the entry, and the cells of `contradictoryFact`. -/
def contradictoryWorld : World where
  store := ⟨#[.mapping [(.text "x", .int 0)], .slots [], .slots [], .slots [.int 7], .slots [.int 8]],
    spelledMarks, []⟩
  source := .tape [0] 0
  log := #[]

/-- What is left to say of the entry: it is eight, which was made last, and not seven. -/
def contradictoryReport : Report := ⟨[⟨"expected 8 == 7", ["lens(x)", "and[0]"]⟩]⟩

/-- The report of the conjunction comes up through the lens, which puts its tag in front. -/
theorem satisfy_blames_contradictory :
    (∃ u, exec (satisfy contradictoryFact (.ref 0) 1) contradictoryWorld =
      (.error (.unsatisfied 1 contradictoryReport), u)) ∧
    contradictoryReport.Explains fun x =>
      contradictoryFact.Blames x ∧ ∀ name, contradictoryFact.label? = some name → x.path.head? = some name := by
  have hforwards : contradictoryFact.Forwards := by
    intro f hf n hn hgathers
    rcases List.mem_cons.mp hf with rfl | hf
    · cases List.mem_singleton.mp hn
      exact hgathers
    · cases List.mem_singleton.mp hf
      cases List.mem_singleton.mp hn
      exact hgathers
  have hrun : (exec (satisfy contradictoryFact (.ref 0) 1) contradictoryWorld).1 =
      .error (.unsatisfied 1 contradictoryReport) := by
    have hfault : (match (exec (satisfy contradictoryFact (.ref 0) 1) contradictoryWorld).1 with
        | .error e => decide (e = .unsatisfied 1 contradictoryReport)
        | .ok _ => false) = true := by
      decide +kernel
    split at hfault
    · next e he => exact he.trans (congrArg _ (of_decide_eq_true hfault))
    · cases hfault
  have hexec : exec (satisfy contradictoryFact (.ref 0) 1) contradictoryWorld =
      (.error (.unsatisfied 1 contradictoryReport),
        (exec (satisfy contradictoryFact (.ref 0) 1) contradictoryWorld).2) := by
    rw [← hrun]
  have hhonest : contradictoryFact.Honest := ⟨trivial, nofun, nofun, trivial⟩
  exact ⟨⟨_, hexec⟩, satisfy_blames hhonest hforwards hexec⟩

end Conform
