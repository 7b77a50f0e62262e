import Conform.Proofs.Converging
import Conform.Proofs.Satisfying

/-!
# Facts that trees share

Counters and distinct facts may be part of several trees. Whatever calls of `satisfy` on these trees are made, in
whatever order, what a counter or a distinct fact has noted in the end is what it saw in the values that the calls
have answered, in this order (`satisfyEach_noting`). Calls that end with a fault leave nothing.
-/

namespace Conform

open Act Conform.Store

namespace Fact

variable {ns fs gs : List Fact} {p q : Bool} {f g : Fact} {s t u : Store} {X Y Z : Set Loc} {v x y z : Value}
  {w : World} {c : Loc}

/-! ## One call -/

/-- What an attempt leaves, whatever it comes to. -/
structure Attempted (ns : List Fact) (p : Bool) (f : Fact) (v : Value) (s : Store) (X : Set Loc) (x : Value)
    (out : Except Fault Attempt × World) : Prop where
  between : ∃ Y, Between ns p [f] v s X x out.2.store Y
  again : ∀ r y, out.1 = .ok (.again r y) → ∃ Y, Between ns p [f] v s X y out.2.store Y
  satisfied : ∀ g y, out.1 = .ok (.satisfied g y) →
    ∃ Y r, g = f.move r.place ∧ Trial ns p [f] v s X r y out.2.store Y

/-- Reporting that a run has been given up leads on to the next attempt. -/
theorem Between.gaveUp {e : Fault} {last : Option Report} (h : Between ns p [f] v s X x w.store Y)
    (hsuited : Suited ns p [f]) :
    Attempted ns p f v s X x (exec (do return Attempt.again (← reportGivenUp f x e last) x) w) := by
  obtain ⟨Z, hbetween⟩ := h.later hsuited (h.poised.later_reportGivenUp hsuited e last)
  rw [exec_bind]
  rcases hreport : exec (reportGivenUp f x e last) w with ⟨e | r, u⟩
  · rw [hreport] at hbetween
    exact ⟨⟨Z, hbetween⟩, fun _ _ hy => (by cases hy), fun _ _ hy => by cases hy⟩
  · rw [hreport] at hbetween
    refine ⟨⟨Z, hbetween⟩, ?_, fun _ _ hy => by cases hy⟩
    rintro r y ⟨⟩
    exact ⟨Z, hbetween⟩

/-- So does a check that the answer of a copy does not pass. If it passes, the copy may be taken over. -/
theorem Trial.verified {r : Relocation} (h : Trial ns p [f] v s X r y w.store Y)
    (hbetween : Between ns p [f] v s X x w.store Z) (hsuited : Suited ns p [f]) :
    Attempted ns p f v s X x (exec (do
      let last ← verify f y
      return if last.ok then Attempt.satisfied (f.move r.place) y else .again last y) w) := by
  have hlater := h.between.poised.later_verify hsuited
  obtain ⟨Z, hbetween⟩ := hbetween.later hsuited hlater
  obtain ⟨Z', htrial⟩ := h.later hsuited hlater
  rw [exec_bind]
  rcases hverify : exec (verify f y) w with ⟨e | last, u⟩
  · rw [hverify] at hbetween
    exact ⟨⟨Z, hbetween⟩, fun _ _ hy => (by cases hy), fun _ _ hy => by cases hy⟩
  rw [hverify] at hbetween htrial
  dsimp only
  rw [exec_pure]
  refine ⟨⟨Z, hbetween⟩, fun rep z hz => ?_, fun g z hz => ?_⟩
  · dsimp only at hz
    split at hz
    · cases hz
    · cases hz
      exact ⟨Z', htrial.between⟩
  · dsimp only at hz
    split at hz
    · cases hz
      exact ⟨Z', r, rfl, htrial⟩
    · cases hz

/-- An attempt leads from between two trials to a trial, or to between two trials. -/
theorem Between.once (h : Between ns p [f] v s X x w.store Y) (hsuited : Suited ns p [f])
    (hs : f.stateful = true) : Attempted ns p f v s X x (exec (attemptOnce f x) w) := by
  have hcells : w.store.copy (cellsAll [f]) = w.store.copy f.cells := by rw [cellsAll_singleton]
  obtain ⟨-, Y₁, -, -, hbetween, hans⟩ := h.attempt (a := (f.move (w.store.copy f.cells).1.place).mutate x)
    hsuited fun Z _ hpoised => by
      rw [hcells] at hpoised ⊢
      exact advances_mutateWithin _ (hsuited.move _) _ _ hpoised
  rw [hcells] at hbetween hans
  rw [attemptOnce, exec_bind, exec_probe_stateful hs]
  dsimp only
  rw [exec_bind, exec_attempt]
  rcases hrun : exec ((f.move (w.store.copy f.cells).1.place).mutate x)
    { w with store := (w.store.copy f.cells).2 } with ⟨e | y, b⟩
  · rw [hrun] at hbetween
    cases e with
    | exhausted fact reason last => exact hbetween.gaveUp hsuited
    | _ => exact ⟨⟨Y₁, hbetween⟩, by simp, by simp⟩
  · rw [hrun] at hbetween hans
    exact (hans y rfl).2.verified hbetween hsuited

/-- Attempts that have not satisfied the fact lead to between two trials. -/
theorem tries_between (hsuited : Suited ns p [f]) (hs : f.stateful = true) (h : Poised ns p [f] v w.store X)
    {k : Nat} {last : Report} {u : World} (htries : Tries f v w k last x u) :
    ∃ Y, Between ns p [f] v w.store X x u.store Y := by
  induction htries with
  | none => exact ⟨X, .refl h⟩
  | more _ hrun ih =>
    obtain ⟨Y, hbetween⟩ := ih
    have hagain := (hbetween.once hsuited hs).again
    rw [hrun] at hagain
    exact hagain _ _ rfl

/-- What a call leaves, with a value that it has come to: the cells are as they were if it ends with a fault, and
have noted the parts of this value if it answers it. -/
structure Called (ns : List Fact) (p : Bool) (f : Fact) (v : Value) (s : Store) (X : Set Loc)
    (out : Except Fault Value × World) (x : Value) (Y : Set Loc) : Prop where
  leaves : Leaves ns p [f] v s X x out.2.store Y
  fault : ∀ e, out.1 = .error e → ∀ n ∈ ns, out.2.store.noted n.cell = s.noted n.cell
  answer : ∀ y, out.1 = .ok y → y = x ∧ ∀ n ∈ ns, ∀ k, n.kind? = some k →
    Noting (ExactAll p [f]) k (s.noted n.cell) (noticed out.2.store p n.cell [f] x) (out.2.store.noted n.cell)

theorem Between.called {e : Fault} {w : World} (h : Between ns p [f] v s X x t Y) (hw : w.store = t) :
    Called ns p f v s X (.error e, w) x Y := by
  subst hw
  exact ⟨h.leaves, fun _ _ _ hn => h.noted hn, fun _ hy => by cases hy⟩

/-- Calls of `satisfy` leave so what is poised for a fact. -/
theorem satisfy_called (attempts : Int) (hsuited : Suited ns p [f]) (hs : f.stateful = true)
    (h : Poised ns p [f] v w.store X) : ∃ Y x, Called ns p f v w.store X (exec (satisfy f v attempts) w) x Y := by
  rw [satisfy]
  by_cases hfew : attempts < 1
  · rw [if_pos hfew]
    exact ⟨X, v, (Between.refl h).called rfl⟩
  · rw [if_neg hfew]
    show ∃ Y x, Called ns p f v w.store X (exec (satisfyFrom f attempts attempts.toNat .pass v) w) x Y
    obtain ⟨k, last, x, u, htries, hends⟩ := exec_satisfyFrom_run f attempts v w
    obtain ⟨Y, hbetween⟩ := tries_between hsuited hs h htries
    obtain ⟨⟨Z, hraised⟩, -, hsatisfied⟩ := hbetween.once hsuited hs
    generalize exec (satisfyFrom f attempts attempts.toNat .pass v) w = out at hends
    cases hends with
    | satisfied _ hrun =>
      rw [hrun] at hsatisfied
      obtain ⟨Z, r, rfl, htrial⟩ := hsatisfied _ _ rfl
      obtain ⟨d, hcommit, hleaves, -, hnoted⟩ := htrial.commit hsuited
      rw [cellsAll_singleton, moveAll, moveAll, cellsAll_singleton] at hcommit
      obtain ⟨u', hconclude, hstore⟩ := exec_concludeAttempt (f := f) (by rw [if_pos hs]; exact hcommit)
      rw [hconclude]
      refine ⟨Z, _, by rwa [hstore], by simp, ?_⟩
      rintro z ⟨⟩
      refine ⟨rfl, fun n hn k hk => ?_⟩
      rw [hstore]
      exact hnoted n hn k hk
    | raised _ hrun =>
      rw [hrun] at hraised
      exact ⟨Z, x, hraised.called rfl⟩
    | exhausted _ => exact ⟨Y, x, hbetween.called rfl⟩

/-! ## Several calls -/

/-- What is poised elsewhere is left so, and facts see the same parts of it. -/
theorem Leaves.others (h : Leaves ns p fs v s X x t Y) (hsuited : Suited ns p fs) (hgs : Suited ns q gs)
    (hz : Poised ns q gs z s X) (hapart : ∀ l ∈ trail s q gs z, l ∉ trail s p fs v) :
    Poised ns q gs z t Y ∧ UnmovedAll q gs z s t := by
  refine hz.framed hgs h.poised.guarded h.poised.stocked h.grown h.size
    (fun l hl => heldBy_of_lists h.held (fun _ hn => hn) hl) fun l hl => ?_
  exact h.frame l (hz.rests.guarded hl) (hapart l hl) fun hheld => hz.free l hl (heldBy_mono hsuited.cells hheld)

/-- A call of `satisfy`: a fact, a value, and how many attempts are made at most. -/
structure Call where
  fact : Fact
  value : Value
  attempts : Int

/-- The answer of a call with its fact, if it has not ended with a fault. -/
def Call.answer (c : Call) : Except Fault Value → List (Fact × Value)
  | .ok y => [(c.fact, y)]
  | .error _ => []

/-- Makes calls one after the other, and lists their answers. -/
def satisfyEach : List Call → Act (List (Fact × Value))
  | [] => return []
  | c :: cs => do
    let r ← Act.attempt (satisfy c.fact c.value c.attempts)
    return c.answer r ++ (← satisfyEach cs)

theorem exec_satisfyEach_cons {d : Call} {cs : List Call} {r : Except Fault Value} {w' w'' : World}
    {answers : List (Fact × Value)} (hrun : exec (satisfy d.fact d.value d.attempts) w = (r, w'))
    (hrest : exec (satisfyEach cs) w' = (.ok answers, w'')) :
    exec (satisfyEach (d :: cs)) w = (.ok (d.answer r ++ answers), w'') := by
  rw [satisfyEach, exec_bind, exec_attempt, hrun]
  dsimp only
  rw [exec_bind, hrest]
  rfl

/-- What a counter or a distinct fact sees in some answers. -/
def seenIn (s : Store) (c : Loc) (answers : List (Fact × Value)) : List Value :=
  answers.flatMap fun a => a.1.watched s c a.2

/-- Whether a call may be made: its fact advances, nothing of it that does is followed as a whole, and its value is
poised for it. -/
structure Call.Ready (ns : List Fact) (s : Store) (X : Set Loc) (c : Call) : Prop where
  suited : Suited ns true [c.fact]
  stateful : c.fact.stateful = true
  exact : c.fact.Exact
  poised : Poised ns true [c.fact] c.value s X

/-- Whether no object leads to parts of the values of two calls. -/
def Call.Unshared (s : Store) (c d : Call) : Prop :=
  ∀ l ∈ trail s true [c.fact] c.value, l ∉ trail s true [d.fact] d.value

/-- However calls of `satisfy` on trees that share facts are interleaved, and whatever they end with, these have
noted in the end what they see in the answers, in the order of the calls. What else is poised is left alone. -/
theorem satisfyEach_noting : ∀ {cs : List Call} {w : World} {X : Set Loc}, (∀ c ∈ cs, c.Ready ns w.store X) →
    cs.Pairwise (Call.Unshared w.store) → ∃ answers u, exec (satisfyEach cs) w = (.ok answers, u) ∧
      (∀ n ∈ ns, ∀ k, n.kind? = some k →
        Noting True k (w.store.noted n.cell) (seenIn u.store n.cell answers) (u.store.noted n.cell)) ∧
      ∀ g z, Suited ns true [g] → Poised ns true [g] z w.store X →
        (∀ c ∈ cs, ∀ l ∈ trail w.store true [g] z, l ∉ trail w.store true [c.fact] c.value) →
        ∀ d, g.watched u.store d z = g.watched w.store d z := by
  intro cs
  induction cs with
  | nil => exact fun {w X} _ _ => ⟨[], w, rfl, fun _ _ _ _ => .none, fun _ _ _ _ _ _ => rfl⟩
  | cons c cs ih =>
    intro w X hready hunshared
    obtain ⟨hhead, hunshared⟩ := List.pairwise_cons.mp hunshared
    have hc := hready c (by simp)
    obtain ⟨Y, x, hcalled⟩ := satisfy_called c.attempts hc.suited hc.stateful hc.poised
    rcases hrun : exec (satisfy c.fact c.value c.attempts) w with ⟨r, w'⟩
    rw [hrun] at hcalled
    have hkeep : ∀ g z, Suited ns true [g] → Poised ns true [g] z w.store X →
        (∀ l ∈ trail w.store true [g] z, l ∉ trail w.store true [c.fact] c.value) →
        Poised ns true [g] z w'.store Y ∧ UnmovedAll true [g] z w.store w'.store := fun g z hg hz hapart =>
      hcalled.leaves.others hc.suited hg hz hapart
    have hrest : ∀ d ∈ cs, Poised ns true [d.fact] d.value w'.store Y ∧
        trail w'.store true [d.fact] d.value = trail w.store true [d.fact] d.value := by
      intro d hd
      have hready := hready d (by simp [hd])
      obtain ⟨hpoised, hun⟩ := hkeep _ _ hready.suited hready.poised fun l hl hmem => hhead d hd l hmem hl
      exact ⟨hpoised, hun.trail⟩
    obtain ⟨answers, u, hanswers, hnoted, hframe⟩ := ih (w := w') (X := Y)
      (fun d hd => { hready d (by simp [hd]) with poised := (hrest d hd).1 })
      (hunshared.imp_of_mem fun {d e} hd he hde l hl => by
        rw [(hrest d hd).2] at hl
        rw [(hrest e he).2]
        exact hde l hl)
    refine ⟨_, u, exec_satisfyEach_cons hrun hanswers, fun n hn k hk => ?_, fun g z hg hz hapart d => ?_⟩
    · cases r with
      | error e =>
        have hnote := hnoted n hn k hk
        rw [hcalled.fault e rfl n hn] at hnote
        exact hnote
      | ok y =>
        obtain ⟨rfl, hnote⟩ := hcalled.answer y rfl
        have hparts := hframe c.fact y hc.suited hcalled.leaves.poised (fun d hd l hl hmem => ?_) n.cell
        · have hfirst := (hnote n hn k hk).mono fun _ : True =>
            exactAll_pieces.mpr (List.forall_mem_singleton.mpr hc.exact)
          rw [noticed, if_pos rfl, watchedAll_singleton, ← hparts] at hfirst
          simpa [seenIn, Call.answer] using hfirst.append (hnoted n hn k hk)
        · rw [(hrest d hd).2] at hmem
          exact hhead d hd l (hcalled.leaves.path l hl) hmem
    · obtain ⟨hpoised, hun⟩ := hkeep g z hg hz (hapart c (by simp))
      have hsame := hun.noticed d
      simp only [noticed, if_true, watchedAll_singleton] at hsame
      rw [hframe g z hg hpoised (fun e he l hl => ?_) d, hsame]
      rw [hun.trail] at hl
      rw [(hrest e he).2]
      exact hapart e (by simp [he]) l hl

/-! ## What notes tell -/

/-- A counter has seen the integers from the one that it expected first, without gaps or repetitions, and expects
the next one. -/
theorem Noting.counter {a : Atom} {vs ys : List Value} : ∀ {j : Int}, Noting True .counter [.atom a, .int j] vs ys →
    vs = (List.range vs.length).map (fun i : Nat => Value.int (j + i)) ∧
      ys = [.atom a, .int (j + vs.length)] := by
  induction vs with
  | nil =>
    intro j h
    cases h
    exact ⟨rfl, by simp⟩
  | cons v vs ih =>
    intro j h
    cases h with
    | next hb hv h =>
      cases hb
      cases hv trivial
      obtain ⟨hvs, hys⟩ := ih h
      have hstep : ∀ i : Nat, j + 1 + (i : Int) = j + (i + 1 : Nat) := fun i => by push_cast; omega
      refine ⟨?_, ?_⟩
      · rw [List.length_cons, List.range_succ_eq_map, List.map_cons, List.map_map]
        have hfirst : Value.int j = .int (j + (0 : Nat)) := by simp
        refine congrArg₂ List.cons hfirst (hvs.trans (List.map_congr_left fun i _ => ?_))
        simp only [Function.comp, hstep]
      · rw [hys, List.length_cons, hstep]

theorem isIn?_eq_false {s : Store} {ws : List Value} :
    s.isIn? v ws = some false ↔ ∀ w ∈ ws, alike? s.equal? w v = some false := by
  induction ws with
  | nil => simp [Store.isIn?]
  | cons w ws ih =>
    rw [Store.isIn?, List.forall_mem_cons, ← ih]
    cases alike? s.equal? w v with
    | none => simp
    | some b => cases b <;> simp

/-- A distinct fact has seen values that are unlike each other and unlike all that it has seen before, and
remembers them. -/
theorem Noting.memory {exact : Prop} {vs ys : List Value} : ∀ {xs : List Value}, Noting exact .memory xs vs ys →
    ys = xs ++ vs ∧ (∀ x ∈ xs, ∀ v ∈ vs, alike? Store.empty.equal? x v = some false) ∧
      vs.Pairwise fun x y => alike? Store.empty.equal? x y = some false := by
  induction vs with
  | nil =>
    intro xs h
    cases h
    exact ⟨by simp, by simp, .nil⟩
  | cons v vs ih =>
    intro xs h
    cases h with
    | unseen hnew h =>
      obtain ⟨hys, hold, hpairs⟩ := ih h
      refine ⟨by simp [hys], fun x hx y hy => ?_, .cons (fun y hy => hold v (by simp) y hy) hpairs⟩
      rcases List.mem_cons.mp hy with rfl | hy
      · exact isIn?_eq_false.mp hnew x hx
      · exact hold x (by simp [hx]) y hy

/-- However calls of `satisfy` on trees that share counters and distinct facts are interleaved, and whatever they
end with: in the answers a counter sees successive integers, and has advanced by as many, and a distinct fact sees
values that are unlike each other and unlike what it has seen before, and remembers just these. -/
theorem satisfyEach_shared {cs : List Call} (hready : ∀ c ∈ cs, c.Ready ns w.store X)
    (hunshared : cs.Pairwise (Call.Unshared w.store)) :
    ∃ answers u, exec (satisfyEach cs) w = (.ok answers, u) ∧
      (∀ d, Fact.counter d ∈ ns → ∀ a j, w.store.noted d = [.atom a, .int j] →
        let vs := seenIn u.store d answers
        vs = (List.range vs.length).map (fun i : Nat => Value.int (j + i)) ∧
          u.store.noted d = [.atom a, .int (j + vs.length)]) ∧
      ∀ d g k, Fact.distinct d g k ∈ ns →
        let vs := seenIn u.store d answers
        u.store.noted d = w.store.noted d ++ vs ∧
          (∀ x ∈ w.store.noted d, ∀ v ∈ vs, alike? Store.empty.equal? x v = some false) ∧
          vs.Pairwise fun x y => alike? Store.empty.equal? x y = some false := by
  obtain ⟨answers, u, hrun, hnoted, -⟩ := satisfyEach_noting hready hunshared
  refine ⟨answers, u, hrun, fun d hd a j hstart => ?_, fun d g k hd => ?_⟩
  · have hnote := hnoted _ hd .counter rfl
    rw [show (Fact.counter d).cell = d from rfl, hstart] at hnote
    exact hnote.counter
  · exact (hnoted _ hd .memory rfl).memory

/-! ## Two trees that share a counter -/

/-- A tree of a counter under the key `id`. -/
def ticketFact : Fact := .lens 2 (.item "id" (.text "id")) (.counter 1) true

/-- A tree of the same counter under the attribute `n`, beside distinct values under `k`. -/
def batchFact : Fact :=
  .all 4 [.lens 5 (.attr "n") (.counter 1) true, .lens 6 (.attr "k") (.distinct 7 none 100) true] 10 true

/-- A ticket, the cells of both trees, a batch, and a mapping without the key. -/
def ticketWorld : World where
  store := ⟨#[.mapping [(.text "id", .int 0)], .slots [.int 7, .int 7], .slots [],
    .mapping [(.text "n", .int 9), (.text "k", .int 3)], .slots [], .slots [], .slots [], .slots [.ref 8],
    .list [], .mapping []], spelledMarks, []⟩
  source := .tape [0] 0
  log := #[]

/-- A call that fails between two that do not. -/
def ticketCalls : List Call := [⟨ticketFact, .ref 0, 3⟩, ⟨ticketFact, .ref 9, 3⟩, ⟨batchFact, .ref 3, 3⟩]

/-- The nodes of both trees. -/
def ticketNodes : List Fact := nodesAll [ticketFact, batchFact]

theorem mem_ticketNodes {n : Fact} (hn : n ∈ ticketNodes) : n = ticketFact ∨ n = .counter 1 ∨ n = batchFact ∨
    n = .lens 5 (.attr "n") (.counter 1) true ∨ n = .lens 6 (.attr "k") (.distinct 7 none 100) true ∨
      n = .distinct 7 none 100 := by
  have h : n ∈ [ticketFact, .counter 1, batchFact, .lens 5 (.attr "n") (.counter 1) true, .counter 1,
    .lens 6 (.attr "k") (.distinct 7 none 100) true, .distinct 7 none 100] := hn
  simp only [List.mem_cons, List.not_mem_nil, or_false] at h
  tauto

theorem ticket_suited : Suited ticketNodes true [ticketFact, batchFact] := by
  have hnodes : ∀ n ∈ everyNodeAll [ticketFact, batchFact], n ∈ ticketNodes := by
    intro n hn
    rcases List.mem_append.mp hn with hn | hn
    · exact hn
    · simp [chosenAll, chosen, ticketFact, batchFact] at hn
  refine ⟨⟨⟨⟨rfl, trivial⟩, ⟨rfl, ⟨rfl, trivial⟩, ⟨rfl, trivial⟩, trivial⟩, trivial⟩, ?_, ?_⟩, ?_, hnodes⟩
  · intro n hn a ha
    rcases mem_ticketNodes (hnodes n hn) with rfl | rfl | rfl | rfl | rfl | rfl <;> cases ha
    · exact ⟨rfl, rfl, fun A hA => Value.within_of_refs hA rfl⟩
    · exact ⟨trivial, trivial, fun _ _ => trivial⟩
    · exact ⟨trivial, trivial, fun _ _ => trivial⟩
  · intro n hn A _ g hg
    rcases mem_ticketNodes (hnodes n hn) with rfl | rfl | rfl | rfl | rfl | rfl <;> cases hg
  · have hap : Apiece [.lens 5 (.attr "n") (.counter 1) true, .lens 6 (.attr "k") (.distinct 7 none 100) true] :=
      ⟨by simp [key?, Accessor.key?], by simp [key?, Accessor.key?]⟩
    have hplain : ∀ r ∈ (none : Option Generator), r.Plain := fun _ hr => by cases hr
    have hcounter : ∀ {d a}, a.key?.isSome → (Fact.lens d a (.counter 1) true).Tracked := fun ha =>
      .lens ha (fun _ => .counter) fun hp => by cases hp
    have hdistinct : ∀ {d a}, a.key?.isSome → (Fact.lens d a (.distinct 7 none 100) true).Tracked := fun ha =>
      .lens ha (fun _ => .distinct hplain) fun hp => by cases hp
    refine followed_pieces.mpr (List.forall_mem_cons.mpr ⟨hcounter rfl, List.forall_mem_singleton.mpr (.all hap ?_)⟩)
    exact List.forall_mem_cons.mpr ⟨hcounter rfl, List.forall_mem_singleton.mpr (hdistinct rfl)⟩

theorem ticket_guarded : ticketWorld.store.Guarded {l | l < 10} := by
  refine ⟨.of_bound (by decide) rfl, fun _ hl => hl, ?_⟩
  rintro (l | o) hp q hq
  · obtain ⟨o, ho, -⟩ := hq
    exact absurd (Store.lt_size_of_get? ho) (object_mem_beyond.mp hp : l ∉ {l | l < 10})
  · obtain ⟨a, name, v, -, hmem, -⟩ := hq
    cases hmem

theorem ticket_stocked : Stocked ticketWorld.store {l | l < 10} ticketNodes := by
  have hlist : ∀ n ∈ ticketNodes, ∀ l, ticketWorld.store.slots n.cell = [.ref l] → n.cell = 7 ∧ l = 8 := by
    intro n hn l hl
    rcases mem_ticketNodes hn with rfl | rfl | rfl | rfl | rfl | rfl <;> cases hl
    exact ⟨rfl, rfl⟩
  refine ⟨fun n hn => ?_, fun n hn => ?_, fun n hn m hm heq => ?_, fun n hn m hm l hl hl' => ?_,
    fun n hn l hl m hm => ?_⟩
  · rcases mem_ticketNodes hn with rfl | rfl | rfl | rfl | rfl | rfl <;> decide
  · rcases mem_ticketNodes hn with rfl | rfl | rfl | rfl | rfl | rfl
    · exact ⟨[], rfl, by simp⟩
    · exact ⟨_, _, 7, 7, rfl, rfl, rfl⟩
    · exact ⟨[], rfl, by simp⟩
    · exact ⟨[], rfl, by simp⟩
    · exact ⟨[], rfl, by simp⟩
    · exact ⟨8, [], rfl, rfl, by decide, by simp⟩
  · rcases mem_ticketNodes hn with rfl | rfl | rfl | rfl | rfl | rfl <;>
      rcases mem_ticketNodes hm with rfl | rfl | rfl | rfl | rfl | rfl <;> first | rfl | cases heq
  · rw [(hlist n hn l hl).1, (hlist m hm l hl').1]
  · rw [(hlist n hn l hl).2]
    rcases mem_ticketNodes hm with rfl | rfl | rfl | rfl | rfl | rfl <;> decide

theorem get_ticketWorld : (Accessor.attr "k").get ticketWorld.store (.ref 3) = .ok (.int 3) := by
  have hlookup : ticketWorld.store.lookup [(.text "n", .int 9), (.text "k", .int 3)] (.atom (.text "k")) =
      some (.int 3) := by
    rw [lookup_cons, if_neg (by decide +kernel), lookup_cons, if_pos (by decide +kernel)]
  have hget : ticketWorld.store.get? 3 = some (.mapping [(.text "n", .int 9), (.text "k", .int 3)]) := rfl
  simp only [Accessor.get, Accessor.getAttribute, hget, hlookup, Accessor.found]

/-- Mappings of this world may be used with either tree. -/
theorem ticket_opens {l : Loc} {es : List (Value × Value)} (hes : ticketWorld.store.get? l = some (.mapping es)) :
    Opens ticketWorld.store {l | l < 10} (.ref l) := by
  refine opens_ref (lt_size_of_get? hes) fun o ho => ?_
  rw [hes] at ho
  cases ho
  trivial

theorem ticket_poised {l : Loc} {es : List (Value × Value)} (hes : ticketWorld.store.get? l = some (.mapping es))
    (hlaid : f.Laid ticketWorld.store {l | l < 10} (.ref l))
    (hpath : ∀ m ∈ f.path ticketWorld.store (.ref l), m = l) :
    Poised ticketNodes true [f] (.ref l) ticketWorld.store {l | l < 10} := by
  refine ⟨ticket_guarded, ticket_stocked, rests_piece.mpr hlaid, fun m hm => ?_,
    lt_size_of_get? hes⟩
  rw [hpath m (mem_trail_singleton.mp hm).2]
  exact ticket_stocked.mapping_not_held hes

theorem exact_ticketFact : ticketFact.Exact := .above .lens (fun _ => .counter) fun hp => by cases hp

theorem exact_batchFact : batchFact.Exact := by
  refine .all (List.forall_mem_cons.mpr ⟨?_, List.forall_mem_singleton.mpr ?_⟩)
  · exact .above .lens (fun _ => .counter) fun hp => by cases hp
  · exact .above .lens (fun _ => .distinct) fun hp => by cases hp

theorem ticket_ready : ∀ c ∈ ticketCalls, c.Ready ticketNodes ticketWorld.store {l | l < 10} ∧
    ∀ m ∈ trail ticketWorld.store true [c.fact] c.value, c.value = .ref m := by
  have hcounter : ∀ {d a b l es}, ticketWorld.store.get? l = some (.mapping es) →
      (Fact.lens d a (.counter 1) b).Laid ticketWorld.store {l | l < 10} (.ref l) := fun hes =>
    leaf_counter.laid_over (p := true) .lens ⟨ticket_opens hes, trivial⟩ fun _ _ =>
      rests_counter fun hp => by cases hp
  have hticket : ∀ {l es}, ticketWorld.store.get? l = some (.mapping es) →
      Call.Ready ticketNodes ticketWorld.store {l | l < 10} ⟨ticketFact, .ref l, 3⟩ ∧
        ∀ m ∈ trail ticketWorld.store true [ticketFact] (.ref l), Value.ref l = .ref m := fun {l es} hes => by
    have hpath : ∀ m ∈ ticketFact.path ticketWorld.store (.ref l), m = l := fun m hm => by
      cases (leaf_counter.mem_path_over (p := true) .lens).mp hm
      rfl
    refine ⟨⟨ticket_suited.head, rfl, exact_ticketFact, ticket_poised hes (hcounter hes) hpath⟩, fun m hm => ?_⟩
    rw [hpath m (mem_trail_singleton.mp hm).2]
  intro c hc
  simp only [ticketCalls, List.mem_cons, List.not_mem_nil, or_false] at hc
  rcases hc with rfl | rfl | rfl
  · exact hticket rfl
  · exact hticket rfl
  · have hpath : ∀ m ∈ batchFact.path ticketWorld.store (.ref 3), m = 3 := fun m hm => by
      rw [batchFact, path, pathAll, pathAll_singleton] at hm
      rcases hm with hm | hm
      · cases (leaf_counter.mem_path_over (p := true) .lens).mp hm
        rfl
      · cases (leaf_distinct.mem_path_over .lens).mp hm
        rfl
    refine ⟨⟨ticket_suited.tail, rfl, exact_batchFact, ticket_poised rfl ?_ hpath⟩, fun m hm => ?_⟩
    · rw [batchFact, Laid, LaidAll, laidAll_singleton]
      refine ⟨⟨3, rfl⟩, hcounter rfl, leaf_distinct.laid_over .lens ⟨ticket_opens rfl, trivial⟩ fun x hx => ?_,
        fun m hm _ => (leaf_counter.mem_path_over (p := true) .lens).mp hm⟩
      rw [pieces, Option.mem_toList, used?_eq_some, get_ticketWorld] at hx
      cases hx.1
      refine rests_piece.mpr ?_
      rw [Laid]
      exact fun _ ha => by cases ha
    · rw [hpath m (mem_trail_singleton.mp hm).2]

/-- The counter, at seven before, is at nine after two calls that have not failed and one that has. -/
theorem satisfyEach_shared_tickets : ∃ answers u, exec (satisfyEach ticketCalls) ticketWorld = (.ok answers, u) ∧
    answers.length = 2 ∧ seenIn u.store 1 answers = [.int 7, .int 8] ∧ u.store.noted 1 = [.int 7, .int 9] := by
  have hunshared : ticketCalls.Pairwise (Call.Unshared ticketWorld.store) := by
    have hvalues : ticketCalls.Pairwise fun c d => ∀ m, c.value = .ref m → d.value ≠ .ref m := by
      simp [ticketCalls]
    refine hvalues.imp_of_mem fun {c d} hc hd hne l hl hl' => ?_
    exact hne l ((ticket_ready c hc).2 l hl) ((ticket_ready d hd).2 l hl')
  obtain ⟨answers, u, hrun, hcounter, -⟩ := satisfyEach_shared (fun c hc => (ticket_ready c hc).1) hunshared
  have hlengths : ((exec (satisfyEach ticketCalls) ticketWorld).1.toOption.getD []).length = 2 ∧
      (seenIn (exec (satisfyEach ticketCalls) ticketWorld).2.store 1
        ((exec (satisfyEach ticketCalls) ticketWorld).1.toOption.getD [])).length = 2 := by
    constructor <;> decide +kernel
  rw [hrun] at hlengths
  obtain ⟨hanswers, hlength⟩ := hlengths
  change (seenIn u.store 1 answers).length = 2 at hlength
  obtain ⟨hseen, hnoted⟩ := hcounter 1 (by simp [ticketNodes, ticketFact, nodesAll, nodes]) _ _ rfl
  rw [hlength] at hseen hnoted
  exact ⟨answers, u, hrun, hanswers, hseen, hnoted⟩

end Fact

end Conform
