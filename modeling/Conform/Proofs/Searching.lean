import Mathlib.Data.Nat.Find
import Conform.Proofs.Advancing
import Conform.Proofs.Leaves

/-!
# Bounded searches

Five kinds of facts look for a value by trial: inequalities, pairs of different items, facts that remember, tests with
a budget, and negations without a complement. What such a search starts from, accepts and draws is a `Quest`, and
`Fact.Seeks` says which one a fact pursues.

The reference is the sequence of candidates (`Quest.candidate`): the start value, and what comes of it by so many draws,
whether it is acceptable or not. The main result, `Fact.mutate_searches`, says how mutation ends in terms of this
sequence alone.
-/

namespace Conform

open Act

/-- What a search starts from, accepts and draws, what is made of the candidate that it finds, and what is said if it
finds none. Without a generator, values are drawn like a template that may depend on the candidate before. -/
structure Quest where
  start : Value
  accept : Value → Act Bool
  generate : Option Generator
  template : Value → Value
  attempts : Int
  settle : Value → Act Value
  reason : Act String

namespace Quest

/-- One draw. -/
def draw (q : Quest) (v : Value) : Act Value :=
  match q.generate with
  | some g => g.draw
  | none => Draw.arbitrary (q.template v)

/-- The candidate after exactly `k` draws, each made from the one before it. -/
def candidate (q : Quest) : (k : Nat) → Value → Act Value
  | 0, v => return v
  | k + 1, v => do q.candidate k (← q.draw v)

/-- Whether the candidate after exactly `k` draws is not acceptable. -/
def Rejects (q : Quest) (v : Value) (w : World) (k : Nat) : Prop :=
  ∃ c u, exec (q.candidate k v) w = (.ok c, u) ∧ exec (q.accept c) u = (.ok false, u)

end Quest

namespace Act

/-! ## Texts -/

/-- Whether an action makes a text, unless an integer in it has too many digits, and changes nothing. -/
def Writes (a : Act String) : Prop :=
  ∀ w, (∃ t, exec a w = (.ok t, w)) ∨ exec a w = (.error (.misuse .invalid), w)

theorem writes_pure {t : String} : Writes (pure t) := fun _ => .inl ⟨t, rfl⟩

theorem writes_ask {f : Store → Option String} : Writes (do written (← ask f)) := by
  intro w
  rw [exec_bind, exec_ask]
  dsimp only
  rw [exec_written]
  cases f w.store with
  | none => exact .inr rfl
  | some t => exact .inl ⟨t, rfl⟩

theorem writes_render {v : Value} : Writes (render v) := by
  intro w
  rw [render, exec_bind, exec_view]
  dsimp only
  rw [exec_written]
  cases (w.store.view v).text? with
  | none => exact .inr rfl
  | some t => exact .inl ⟨t, rfl⟩

theorem Writes.map {a : Act String} (h : a.Writes) (f : String → String) : Writes (do return f (← a)) := by
  intro w
  rw [exec_bind]
  rcases h w with ⟨t, ht⟩ | herror
  · rw [ht]
    exact .inl ⟨f t, rfl⟩
  · rw [herror]
    exact .inr rfl

end Act

namespace Fact

section

variable {f g : Fact} {v c y : Value} {w u t : World} {e e' : Fault} {reason : Act String} {q : Quest}

/-! ## Giving up -/

/-- Whether a fact that gives up ends with a fault: that of its exhaustion, if the reason and the fact can be written,
and an operand with the wrong contents if not. -/
def GivesUp (f : Fact) (reason : Act String) (u : World) (e : Fault) : Prop :=
  (∃ d r, exec f.described u = (.ok d, u) ∧ exec reason u = (.ok r, u) ∧ e = .exhausted d r none) ∨
    (¬ ∃ d r, exec f.described u = (.ok d, u) ∧ exec reason u = (.ok r, u)) ∧ e = .misuse .invalid

theorem writes_described : Writes f.described := writes_ask

theorem GivesUp.unique (h : f.GivesUp reason u e) (h' : f.GivesUp reason u e') : e = e' := by
  rcases h with ⟨d, r, hd, hr, rfl⟩ | ⟨hnone, rfl⟩ <;> rcases h' with ⟨d', r', hd', hr', rfl⟩ | ⟨hnone', rfl⟩
  · cases hd.symm.trans hd'
    cases hr.symm.trans hr'
    rfl
  · exact absurd ⟨d, r, hd, hr⟩ hnone'
  · exact absurd ⟨d', r', hd', hr'⟩ hnone
  · rfl

theorem exec_giveUp {α : Type} (hreason : reason.Writes) :
    ∃ e, exec (do f.giveUp (← reason) none : Act α) u = (.error e, u) ∧ f.GivesUp reason u e := by
  rcases hreason u with ⟨r, hr⟩ | herror
  · rcases writes_described (f := f) u with ⟨d, hd⟩ | herror
    · refine ⟨.exhausted d r none, ?_, .inl ⟨d, r, hd, hr, rfl⟩⟩
      simp only [exec_bind, hr, giveUp, hd, exec_throw]
    · refine ⟨.misuse .invalid, ?_, .inr ⟨?_, rfl⟩⟩
      · simp only [exec_bind, hr, giveUp, herror]
      · rintro ⟨d, r', hd, -⟩
        cases herror.symm.trans hd
  · refine ⟨.misuse .invalid, ?_, .inr ⟨?_, rfl⟩⟩
    · simp only [exec_bind, herror]
    · rintro ⟨d, r, -, hr⟩
      cases herror.symm.trans hr

end

end Fact

namespace Quest

section

variable {q : Quest} {f : Fact} {v x c : Value} {w u t : World} {e e' : Fault} {k n : Nat}

/-! ## One draw of a fact -/

/-- How the fault that a draw of a fact ends with comes from that of the draw itself: a template that cannot be
generated makes the fact give up. -/
inductive Ends (q : Quest) (f : Fact) (u : World) : Fault → Fault → Prop
  | template {cls : String} {e : Fault} (hg : q.generate = none)
    (h : f.GivesUp (pure (Refusal.template cls).message) u e) : Ends q f u (.refused (.template cls)) e
  | other {e : Fault} (h : q.generate = none → ∀ cls, e ≠ .refused (.template cls)) : Ends q f u e e

/-- Whether the search of a fact ends with a fault in a world: after all draws, if no candidate is acceptable, or at the
first draw that fails, if no candidate before it is. -/
def Fails (q : Quest) (f : Fact) (w : World) (e : Fault) (t : World) : Prop :=
  ((∀ j ≤ Fact.budget q.attempts, q.Rejects q.start w j) ∧
    (∃ c, exec (q.candidate (Fact.budget q.attempts) q.start) w = (.ok c, t)) ∧ f.GivesUp q.reason t e) ∨
  ∃ k < Fact.budget q.attempts, (∀ j ≤ k, q.Rejects q.start w j) ∧
    ∃ d, exec (q.candidate (k + 1) q.start) w = (.error d, t) ∧ q.Ends f t d e

theorem Ends.unique {d : Fault} (h : q.Ends f u d e) (h' : q.Ends f u d e') : e = e' := by
  cases h with
  | template hg h =>
    cases h' with
    | template _ h' => exact h.unique h'
    | other h' => exact absurd rfl (h' hg _)
  | other h =>
    cases h' with
    | template hg _ => exact absurd rfl (h hg _)
    | other _ => rfl

/-- A draw as the fact makes it. -/
def attempt (q : Quest) (f : Fact) (v : Value) : Act Value := f.drawCandidate q.generate (q.template v)

theorem draw_of_some {g : Generator} (hg : q.generate = some g) (f : Fact) :
    q.draw v = g.draw ∧ q.attempt f v = g.draw := by
  rw [draw, attempt, hg]
  exact ⟨rfl, rfl⟩

theorem draw_of_none (hg : q.generate = none) (f : Fact) :
    q.draw v = Draw.arbitrary (q.template v) ∧ q.attempt f v = f.drawLike (q.template v) := by
  rw [draw, attempt, hg]
  exact ⟨rfl, rfl⟩

theorem exec_attempt_ok (h : exec (q.draw v) w = (.ok x, u)) : exec (q.attempt f v) w = (.ok x, u) := by
  cases hg : q.generate with
  | some g =>
    obtain ⟨hdraw, hattempt⟩ := draw_of_some (v := v) hg f
    rw [hattempt, ← hdraw, h]
  | none =>
    obtain ⟨hdraw, hattempt⟩ := draw_of_none (v := v) hg f
    rw [hdraw] at h
    rw [hattempt, Fact.drawLike, exec_tryCatch, h]

theorem exec_attempt_error (h : exec (q.draw v) w = (.error e, u)) :
    ∃ e', exec (q.attempt f v) w = (.error e', u) ∧ q.Ends f u e e' := by
  cases hg : q.generate with
  | some g =>
    obtain ⟨hdraw, hattempt⟩ := draw_of_some (v := v) hg f
    rw [hattempt, ← hdraw]
    refine ⟨e, h, .other fun hnone => ?_⟩
    cases hg.symm.trans hnone
  | none =>
    obtain ⟨hdraw, hattempt⟩ := draw_of_none (v := v) hg f
    rw [hdraw] at h
    rw [hattempt, Fact.drawLike, exec_tryCatch, h]
    dsimp only
    split
    · next cls =>
      obtain ⟨e', hgive, hgives⟩ :=
        Fact.exec_giveUp (f := f) (u := u) (α := Value) (writes_pure (t := (Refusal.template cls).message))
      exact ⟨e', hgive, .template hg hgives⟩
    · next hother => exact ⟨e, rfl, .other fun _ cls hcls => hother cls hcls⟩

/-! ## Candidates -/

theorem rejects_zero : q.Rejects v w 0 ↔ exec (q.accept v) w = (.ok false, w) :=
  ⟨by rintro ⟨c, u, ⟨⟩, h⟩; exact h, fun h => ⟨v, w, rfl, h⟩⟩

theorem exec_candidate_succ (h : exec (q.draw v) w = (.ok x, u)) :
    exec (q.candidate (k + 1) v) w = exec (q.candidate k x) u := by
  rw [candidate, exec_bind, h]

theorem rejects_succ (h : exec (q.draw v) w = (.ok x, u)) : q.Rejects v w (k + 1) ↔ q.Rejects x u k := by
  rw [Rejects, Rejects, exec_candidate_succ h]

/-- A candidate that is rejected after a draw has been drawn. -/
theorem Rejects.draws (h : q.Rejects v w (k + 1)) : ∃ x u, exec (q.draw v) w = (.ok x, u) := by
  obtain ⟨c, t, hc, -⟩ := h
  obtain ⟨x, u, hx, -⟩ := exec_bind_ok hc
  exact ⟨x, u, hx⟩

/-- Either some candidate is the first acceptable one, or none is, or a draw fails before one is found. -/
theorem candidate_cases (hreturns : ∀ k ≤ n, ∀ c u, exec (q.candidate k v) w = (.ok c, u) →
      ∃ b, exec (q.accept c) u = (.ok b, u)) :
    (∃ k ≤ n, ∃ c u, (∀ j < k, q.Rejects v w j) ∧ exec (q.candidate k v) w = (.ok c, u) ∧
      exec (q.accept c) u = (.ok true, u)) ∨
    ((∀ j ≤ n, q.Rejects v w j) ∧ ∃ c u, exec (q.candidate n v) w = (.ok c, u)) ∨
    ∃ k < n, (∀ j ≤ k, q.Rejects v w j) ∧ ∃ e u, exec (q.candidate (k + 1) v) w = (.error e, u) := by
  by_cases hall : ∀ j ≤ n, q.Rejects v w j
  · obtain ⟨c, u, hc, -⟩ := hall n (Nat.le_refl n)
    exact .inr (.inl ⟨hall, c, u, hc⟩)
  · -- the first candidate that is not rejected
    classical
    have hsome : ∃ k, k ≤ n ∧ ¬ q.Rejects v w k := by
      simpa only [not_forall, exists_prop] using hall
    obtain ⟨hle, hnot⟩ := Nat.find_spec hsome
    have hbefore : ∀ j < Nat.find hsome, q.Rejects v w j := by
      intro j hj
      by_contra hjn
      exact Nat.find_min hsome hj ⟨Nat.le_trans (Nat.le_of_lt hj) hle, hjn⟩
    rcases hc : exec (q.candidate (Nat.find hsome) v) w with ⟨e | c, u⟩
    · cases hk : Nat.find hsome with
      | zero =>
        rw [hk] at hc
        cases hc
      | succ k =>
        rw [hk] at hc hle hbefore
        exact .inr (.inr ⟨k, hle, fun j hj => hbefore j (Nat.lt_succ_of_le hj), e, u, hc⟩)
    · obtain ⟨b, hb⟩ := hreturns _ hle c u hc
      cases b with
      | false => exact absurd ⟨c, u, hc, hb⟩ hnot
      | true => exact .inl ⟨_, hle, c, u, hbefore, hc, hb⟩

/-! ## The search -/

/-- The search as the fact makes it. -/
def search (q : Quest) (f : Fact) (n : Nat) (v : Value) : Act (Option Value) := Search.run q.accept (q.attempt f) n v

theorem exec_search_zero (h : exec (q.accept v) w = (.ok false, w)) : exec (q.search f 0 v) w = (.ok none, w) := by
  rw [search, Search.run, exec_bind, h]
  rfl

theorem exec_search_succ (h : exec (q.accept v) w = (.ok false, w)) :
    exec (q.search f (n + 1) v) w = exec (do q.search f n (← q.attempt f v)) w := by
  rw [search, Search.run, exec_bind, h]
  rfl

/-- The search finds the first acceptable candidate. -/
theorem exec_search_settles : ∀ {k n : Nat} {v : Value} {w : World}, k ≤ n → (∀ j < k, q.Rejects v w j) →
    exec (q.candidate k v) w = (.ok c, u) → exec (q.accept c) u = (.ok true, u) →
      exec (q.search f n v) w = (.ok (some c), u) := by
  intro k
  induction k with
  | zero =>
    rintro n v w - - ⟨⟩ haccept
    exact Fact.exec_run haccept
  | succ k ih =>
    intro n v w hle hrejects hc haccept
    obtain ⟨m, rfl⟩ : ∃ m, n = m + 1 := ⟨n - 1, by omega⟩
    obtain ⟨x, t, hx, hrest⟩ := exec_bind_ok hc
    rw [exec_search_succ (rejects_zero.mp (hrejects 0 k.succ_pos)), exec_bind, exec_attempt_ok hx]
    exact ih (by omega) (fun j hj => (rejects_succ hx).mp (hrejects (j + 1) (by omega))) hrest haccept

/-- The search finds nothing if no candidate is acceptable. -/
theorem exec_search_spent : ∀ {n : Nat} {v : Value} {w : World}, (∀ j ≤ n, q.Rejects v w j) →
    exec (q.candidate n v) w = (.ok c, u) → exec (q.search f n v) w = (.ok none, u) := by
  intro n
  induction n with
  | zero =>
    rintro v w hrejects ⟨⟩
    exact exec_search_zero (rejects_zero.mp (hrejects 0 (Nat.le_refl 0)))
  | succ n ih =>
    intro v w hrejects hc
    obtain ⟨x, t, hx, hrest⟩ := exec_bind_ok hc
    rw [exec_search_succ (rejects_zero.mp (hrejects 0 (by omega))), exec_bind, exec_attempt_ok hx]
    exact ih (fun j hj => (rejects_succ hx).mp (hrejects (j + 1) (by omega))) hrest

/-- The search ends where a draw fails that it comes to. -/
theorem exec_search_fails : ∀ {k n : Nat} {v : Value} {w : World}, k < n → (∀ j ≤ k, q.Rejects v w j) →
    exec (q.candidate (k + 1) v) w = (.error e, u) →
      ∃ e', exec (q.search f n v) w = (.error e', u) ∧ q.Ends f u e e' := by
  intro k
  induction k with
  | zero =>
    intro n v w hlt hrejects hc
    obtain ⟨m, rfl⟩ : ∃ m, n = m + 1 := ⟨n - 1, by omega⟩
    rw [exec_search_succ (rejects_zero.mp (hrejects 0 (Nat.le_refl 0))), exec_bind]
    rcases hx : exec (q.draw v) w with ⟨e₀ | x, t⟩
    · rw [candidate, exec_bind, hx] at hc
      cases hc
      obtain ⟨e', he', hends⟩ := exec_attempt_error (f := f) hx
      exact ⟨e', by rw [he'], hends⟩
    · rw [exec_candidate_succ hx] at hc
      cases hc
  | succ k ih =>
    intro n v w hlt hrejects hc
    obtain ⟨m, rfl⟩ : ∃ m, n = m + 1 := ⟨n - 1, by omega⟩
    obtain ⟨x, t, hx⟩ := (hrejects (k + 1) (Nat.le_refl _)).draws
    rw [exec_search_succ (rejects_zero.mp (hrejects 0 (by omega))), exec_bind, exec_attempt_ok hx]
    rw [exec_candidate_succ hx] at hc
    exact ih (by omega) (fun j hj => (rejects_succ hx).mp (hrejects (j + 1) (by omega))) hc

end

end Quest

/-! ## The facts that search -/

namespace Act

variable {α β : Type} {w : World}

theorem exec_bind_congr {a : Act α} {f g : α → Act β} (h : ∀ x u, exec (f x) u = exec (g x) u) :
    exec (a >>= f) w = exec (a >>= g) w := by
  rw [exec_bind, exec_bind]
  rcases exec a w with ⟨e | x, u⟩
  · rfl
  · exact h x u

end Act

namespace Fact

section

variable {f : Fact} {q : Quest} {v c y : Value} {w u t : World} {e e' : Fault} {k n : Nat}

/-- Which quest a fact pursues for a value. -/
inductive Seeks (w : World) : Fact → Value → Quest → Prop
  /-- An inequality looks for a value different from its reference value. -/
  | different {c : Loc} {g : Option Generator} {n : Int} {v : Value} : Seeks w (.equality c false g n) v
    { start := v, accept := fun x => do return !(← Act.equal x (w.store.slot c 0)), generate := g,
      template := fun _ => w.store.slot c 0, attempts := n, settle := pure,
      reason := do return "no value different from " ++ (← Act.render (w.store.slot c 0)) ++ drawsText n }
  /-- A pair of different items looks for a first item different from the second. -/
  | pair {c : Loc} {g : Option Generator} {n : Int} {v a b : Value} (hv : w.store.elements? v = some [a, b]) :
    Seeks w (.pair c false g n) v
    { start := a, accept := fun x => do return !(← Act.equal x b), generate := g, template := fun _ => b,
      attempts := n, settle := fun x => withFirst v x b,
      reason := do return "no value different from " ++ (← Act.render b) ++ drawsText n }
  /-- A fact that remembers looks for a value that it has not seen, and draws each one like the one before. -/
  | unseen {c l : Loc} {g : Option Generator} {n : Int} {v : Value} {xs : List Value}
    (hc : w.store.get? c = some (.slots [.ref l])) (hl : w.store.get? l = some (.list xs)) :
    Seeks w (.distinct c g n) v
    { start := v, accept := fun x => do return !(← Act.isIn x (← seen c)), generate := g, template := id,
      attempts := n, settle := fun x => do remember c x; return x,
      reason := pure ("no unseen value" ++ drawsText n) }
  /-- A test with a budget looks for a value that passes it. -/
  | passing {c : Loc} {name : String} {test : Data → Bool} {g : Option Generator} {n : Int} {v : Value} :
    Seeks w (.brute c name test g n) v
    { start := v, accept := fun x => do return test (← Act.view x), generate := g, template := fun _ => v,
      attempts := n, settle := pure, reason := pure ("no satisfying value" ++ drawsText n) }
  /-- The negation of a stateless fact without a complement looks for a value that violates the fact. -/
  | violating {c : Loc} {f : Fact} {n : Int} {v : Value} (hf : f.Formed) (hs : f.stateful = false)
    (hcomplement : exec f.complement w = (.ok none, w)) : Seeks w (.negation c f n false) v
    { start := v, accept := fun x => do return !(← f.check x).ok, generate := none, template := fun _ => v,
      attempts := n, settle := pure,
      reason := do return "no value violating " ++ (← f.described) ++ drawsText n }

/-- The reason for giving up may be made up where it is used. -/
theorem exec_giveUp_map (a : Act String) (text : String → String) :
    exec (do f.giveUp (← (a >>= fun x => pure (text x))) none : Act Value) w =
      exec (do f.giveUp (text (← a)) none : Act Value) w := by
  rw [exec_bind, exec_bind, exec_bind]
  rcases exec a w with ⟨e | x, u⟩ <;> rfl

/-- Mutation is the search, and what is made of its result. -/
theorem Seeks.exec_mutate (h : Seeks w f v q) :
    exec (f.mutate v) w =
      exec (do (← q.search f (budget q.attempts) q.start).elim (do f.giveUp (← q.reason) none) q.settle) w := by
  cases h with
  | @different c g n =>
    show exec (mutateDifferent (.equality c false g n) c g n v) w = _
    rw [mutateDifferent, exec_bind, exec_ask]
    refine exec_bind_congr fun o u => ?_
    cases o with
    | none => exact (exec_giveUp_map (render _) fun t => "no value different from " ++ t ++ drawsText n).symm
    | some c => rfl
  | @pair c g n _ a b hv =>
    have hitems : exec (items v) w = (.ok (a, b), w) := by
      rw [items, exec_bind, exec_ask, hv]
      rfl
    show exec (mutatePair (.pair c false g n) false g n v) w = _
    rw [mutatePair, exec_bind, hitems]
    refine exec_bind_congr fun o u => ?_
    cases o with
    | none => exact (exec_giveUp_map (render b) fun t => "no value different from " ++ t ++ drawsText n).symm
    | some c => rfl
  | @unseen c l g n =>
    show exec (mutateDistinct (.distinct c g n) c g n v) w = _
    refine exec_bind_congr fun o u => ?_
    cases o <;> rfl
  | @passing c name test g n =>
    show exec (mutateBrute (.brute c name test g n) test g n v) w = _
    refine exec_bind_congr fun o u => ?_
    cases o <;> rfl
  | @violating c f n _ hf hs hcomplement =>
    show exec (mutateNegation (mutateWithin f.depth) (.negation c f n false) f n v) w = _
    have hstill : ¬ (Fact.negation c f n false).stateful = true := Bool.false_ne_true
    rw [mutateNegation, if_neg hstill, exec_bind, exec_pure]
    dsimp only
    rw [exec_bind, exec_bind (Quest.search _ _ _ _), Quest.search, Search.run,
      exec_bind, exec_bind (f.check v), (quiet_check hf hs v).exec_eq w]
    cases (exec (f.check v) w).1 with
    | error e => rfl
    | ok r =>
      cases hr : r.ok with
      | false => simp [hr]
      | true =>
        simp only [hr, Bool.not_true, Bool.false_eq_true, if_false, exec_pure]
        rw [exec_bind, hcomplement]
        dsimp only
        rw [← exec_bind]
        refine exec_bind_congr fun o u => ?_
        cases o with
        | none => exact (exec_giveUp_map f.described fun t => "no value violating " ++ t ++ drawsText n).symm
        | some c => rfl

theorem Seeks.writes (h : Seeks w f v q) : q.reason.Writes := by
  cases h with
  | different => exact writes_render.map fun t => "no value different from " ++ t ++ drawsText _
  | pair => exact writes_render.map fun t => "no value different from " ++ t ++ drawsText _
  | violating => exact writes_described.map fun t => "no value violating " ++ t ++ drawsText _
  | _ => exact writes_pure

theorem exec_withFirst_source (v a b : Value) (u : World) :
    ∃ y t, exec (withFirst v a b) u = (.ok y, t) ∧ t.source = u.source := by
  unfold withFirst
  split
  · rw [exec_bind, exec_ask]
    dsimp only
    split
    · exact ⟨_, _, rfl, rfl⟩
    · exact ⟨_, _, rfl, rfl⟩
  · exact ⟨_, _, rfl, rfl⟩
  · exact ⟨_, _, rfl, rfl⟩

/-- What is made of a candidate draws nothing. -/
theorem Seeks.settles (h : Seeks w f v q) (c : Value) (u : World) :
    ∃ y t, exec (q.settle c) u = (.ok y, t) ∧ t.source = u.source := by
  cases h with
  | different => exact ⟨c, u, rfl, rfl⟩
  | @pair _ _ _ _ _ b => exact exec_withFirst_source v c b u
  | @unseen cell =>
    obtain ⟨t, hremember, hsource, -⟩ := exec_remember_ok cell c u
    refine ⟨c, t, ?_, hsource⟩
    show exec (do remember cell c; return c) u = _
    rw [exec_bind, hremember]
    rfl
  | passing => exact ⟨c, u, rfl, rfl⟩
  | violating => exact ⟨c, u, rfl, rfl⟩

end

end Fact

/-! ## What draws write to -/

mutual

theorem Data.within_univ : ∀ d : Data, d.Within Set.univ
  | .atom _ => fun _ _ => trivial
  | .tuple _ xs | .set xs | .list xs => Data.withinAll_univ xs
  | .mapping es => Data.withinEntries_univ es
  | .record _ xs => ⟨fun _ _ => trivial, Data.withinAll_univ xs⟩
  | .elided _ => trivial

theorem Data.withinAll_univ : ∀ ds : List Data, Data.WithinAll Set.univ ds
  | [] => trivial
  | d :: ds => ⟨d.within_univ, Data.withinAll_univ ds⟩

theorem Data.withinEntries_univ : ∀ es : List (Data × Data), Data.WithinEntries Set.univ es
  | [] => trivial
  | (k, d) :: es => ⟨⟨k.within_univ, d.within_univ⟩, Data.withinEntries_univ es⟩

end

/-- The arena of what only adds objects. -/
def Arena.additions (s : Store) : Arena := ⟨{p | ∃ l, p = .object l ∧ s.size ≤ l}, Set.univ, s, False⟩

namespace Arena

variable {s : Store}

theorem holds_additions (h : s.Owned) : (additions s).Holds s := by
  refine ⟨s.closed_univ, ?_, fun l hl => ⟨⟨l, rfl, hl⟩, trivial⟩, h, .refl _ _⟩
  rintro l vs ⟨m, heq, hle⟩ hget
  cases heq
  rw [Store.get?_eq_none hle] at hget
  cases hget

theorem fits_additions (r : Recipe) : r.Fits (additions s) := by
  cases r with
  | ok d => exact d.within_univ
  | error e => exact fun h => h.elim

theorem runs_questDraw (q : Quest) (v : Value) : (additions s).Runs (q.draw v) fun _ => True := by
  cases hg : q.generate with
  | none =>
    rw [(Quest.draw_of_none (v := v) hg default).1]
    exact (runs_arbitrary (A := additions s) fun _ _ => trivial).mono fun _ _ => trivial
  | some g =>
    rw [(Quest.draw_of_some (v := v) hg default).1]
    refine (runs_draw ?_).mono fun _ _ => trivial
    cases g with
    | int low high => exact ⟨fits_additions low, fits_additions high⟩
    | choose rs => exact fun r _ => fits_additions r
    | _ => exact fits_additions _

/-- Drawing candidates only adds objects, however it ends. -/
theorem runs_candidate (q : Quest) : ∀ (k : Nat) (v : Value), (additions s).Runs (q.candidate k v) fun _ => True
  | 0, _ => runs_pure trivial
  | k + 1, v => (runs_questDraw q v).bind fun x _ => runs_candidate q k x

end Arena

namespace Quest

variable {q : Quest} {v : Value} {w : World}

/-- What was there before candidates were drawn is there afterwards. -/
theorem frame_candidate (howned : w.store.Owned) (k : Nat) :
    w.store.Frame {p | ∃ l, p = .object l ∧ w.store.size ≤ l} (exec (q.candidate k v) w).2.store :=
  (Arena.runs_candidate q k v w (Arena.holds_additions howned)).1.frame

end Quest

namespace Fact

section

variable {f : Fact} {q : Quest} {v : Value} {w : World}

/-- What a fact that remembers has seen is the same as long as what was there is. -/
theorem exec_seen_congr {s t : World} {c l : Loc} {xs : List Value} (hc : s.store.get? c = some (.slots [.ref l]))
    (hl : s.store.get? l = some (.list xs))
    (hframe : s.store.Frame {p | ∃ l, p = .object l ∧ s.store.size ≤ l} t.store) :
    (exec (seen c) t).1 = (exec (seen c) s).1 := by
  have hc' := (hframe.get_old (Store.lt_size_of_get? hc)).trans hc
  have hl' := (hframe.get_old (Store.lt_size_of_get? hl)).trans hl
  have hseen : ∀ {u : World}, u.store.get? c = some (.slots [.ref l]) → u.store.get? l = some (.list xs) →
      (exec (seen c) u).1 = .ok xs := by
    intro u hcell hlist
    have hslot : u.store.slot c 0 = .ref l := by rw [Store.slot, Store.slots_of_get? hcell]; rfl
    rw [seen, exec_ask, hslot, Store.listItems, hlist]
  rw [hseen hc' hl', hseen hc hl]

/-- All facts that look for a value by trial end in the same way. They settle on the first acceptable one of the
candidates that the budget admits, after as many draws as it takes to come to it. They give up after all draws if and
only if there is none, and earlier if and only if they come to a draw that fails. Where they end with a fault, nothing
that was there has changed, and nothing has been added to the values seen. -/
theorem mutate_searches (hq : Seeks w f v q) (howned : w.store.Owned)
    (hreturns : ∀ k ≤ budget q.attempts, ∀ c u, exec (q.candidate k q.start) w = (.ok c, u) →
      ∃ b, exec (q.accept c) u = (.ok b, u)) :
    (∀ k ≤ budget q.attempts, ∀ c u, (∀ j < k, q.Rejects q.start w j) → exec (q.candidate k q.start) w = (.ok c, u) →
      exec (q.accept c) u = (.ok true, u) →
        ∃ y t, exec (f.mutate v) w = (.ok y, t) ∧ exec (q.settle c) u = (.ok y, t) ∧ t.source = u.source) ∧
    (∀ e t, exec (f.mutate v) w = (.error e, t) ↔ q.Fails f w e t) ∧
    ∀ e t, exec (f.mutate v) w = (.error e, t) →
      w.store.Frame {p | ∃ l, p = .object l ∧ w.store.size ≤ l} t.store ∧
        ∀ c g n, f = .distinct c g n → (exec (seen c) t).1 = (exec (seen c) w).1 := by
  -- what mutation does, in each of the three cases
  have hsettles : ∀ k ≤ budget q.attempts, ∀ c u, (∀ j < k, q.Rejects q.start w j) →
      exec (q.candidate k q.start) w = (.ok c, u) → exec (q.accept c) u = (.ok true, u) →
        ∃ y t, exec (f.mutate v) w = (.ok y, t) ∧ exec (q.settle c) u = (.ok y, t) ∧ t.source = u.source := by
    intro k hk c u hrejects hc haccept
    obtain ⟨y, t, hy, hsource⟩ := hq.settles c u
    refine ⟨y, t, ?_, hy, hsource⟩
    rw [hq.exec_mutate, exec_bind, Quest.exec_search_settles hk hrejects hc haccept]
    exact hy
  have hspent : (∀ j ≤ budget q.attempts, q.Rejects q.start w j) → ∀ c t,
      exec (q.candidate (budget q.attempts) q.start) w = (.ok c, t) →
        ∃ e, exec (f.mutate v) w = (.error e, t) ∧ f.GivesUp q.reason t e := by
    intro hrejects c t hc
    obtain ⟨e, hgive, hgives⟩ := exec_giveUp (f := f) (u := t) (α := Value) hq.writes
    refine ⟨e, ?_, hgives⟩
    rw [hq.exec_mutate, exec_bind, Quest.exec_search_spent hrejects hc]
    exact hgive
  have hfails : ∀ k < budget q.attempts, (∀ j ≤ k, q.Rejects q.start w j) → ∀ d t,
      exec (q.candidate (k + 1) q.start) w = (.error d, t) →
        ∃ e, exec (f.mutate v) w = (.error e, t) ∧ q.Ends f t d e := by
    intro k hk hrejects d t hd
    obtain ⟨e, hsearch, hends⟩ := Quest.exec_search_fails (f := f) hk hrejects hd
    refine ⟨e, ?_, hends⟩
    rw [hq.exec_mutate, exec_bind, hsearch]
  have hraises : ∀ e t, exec (f.mutate v) w = (.error e, t) → q.Fails f w e t := by
    intro e t hrun
    rcases Quest.candidate_cases hreturns with ⟨k, hk, c, u, hrejects, hc, haccept⟩ | ⟨hrejects, c, u, hc⟩ |
      ⟨k, hk, hrejects, d, u, hd⟩
    · obtain ⟨y, t', hy, -⟩ := hsettles k hk c u hrejects hc haccept
      cases hrun.symm.trans hy
    · obtain ⟨e', he', hgives⟩ := hspent hrejects c u hc
      cases hrun.symm.trans he'
      exact .inl ⟨hrejects, ⟨c, hc⟩, hgives⟩
    · obtain ⟨e', he', hends⟩ := hfails k hk hrejects d u hd
      cases hrun.symm.trans he'
      exact .inr ⟨k, hk, hrejects, d, hd, hends⟩
  refine ⟨hsettles, fun e t => ⟨hraises e t, ?_⟩, fun e t hrun => ?_⟩
  · rintro (⟨hrejects, ⟨c, hc⟩, hgives⟩ | ⟨k, hk, hrejects, d, hd, hends⟩)
    · obtain ⟨e', he', hgives'⟩ := hspent hrejects c t hc
      rwa [hgives.unique hgives']
    · obtain ⟨e', he', hends'⟩ := hfails k hk hrejects d t hd
      rwa [hends.unique hends']
  · have hframe : w.store.Frame {p | ∃ l, p = .object l ∧ w.store.size ≤ l} t.store := by
      rcases hraises e t hrun with ⟨-, ⟨c, hc⟩, -⟩ | ⟨k, -, -, d, hd, -⟩
      · have h := Quest.frame_candidate (q := q) (v := q.start) howned (budget q.attempts)
        rwa [hc] at h
      · have h := Quest.frame_candidate (q := q) (v := q.start) howned (k + 1)
        rwa [hd] at h
    refine ⟨hframe, ?_⟩
    rintro c g n rfl
    cases hq with
    | unseen hc hl => exact exec_seen_congr hc hl hframe

end

/-- A value other than the reference value, or else five. -/
def otherFact : Fact := .equality 0 false (some (.const (.ok (.atom (.int 5))))) 1

/-- The cell of `otherFact`. -/
def otherWorld : World := ⟨⟨#[.slots [.int 0]], spelledMarks, []⟩, .tape [] 0, #[]⟩

/-- The search that starts from the reference value itself settles on the last draw that it has. -/
theorem mutate_searches_last : ∃ t, exec (otherFact.mutate (.int 0)) otherWorld = (.ok (.int 5), t) := by
  have hq := Seeks.different (w := otherWorld) (c := 0) (g := some (.const (.ok (.atom (.int 5))))) (n := 1)
    (v := .int 0)
  have hsame : otherWorld.store.equal? (.int 0) (otherWorld.store.slot 0 0) = some true := by decide +kernel
  have hother : otherWorld.store.equal? (.int 5) (otherWorld.store.slot 0 0) = some false := by decide +kernel
  have hrejected : exec (do return !(← Act.equal (.int 0) (otherWorld.store.slot 0 0)) : Act Bool) otherWorld =
      (.ok false, otherWorld) := by
    rw [exec_bind, exec_equal hsame]
    rfl
  have haccepted : exec (do return !(← Act.equal (.int 5) (otherWorld.store.slot 0 0)) : Act Bool) otherWorld =
      (.ok true, otherWorld) := by
    rw [exec_bind, exec_equal hother]
    rfl
  obtain ⟨hsettles, -, -⟩ := mutate_searches hq nofun fun k hk c u hc => by
    obtain rfl | rfl : k = 0 ∨ k = 1 := by
      have : k ≤ 1 := hk
      omega
    · cases hc
      exact ⟨false, hrejected⟩
    · cases hc
      exact ⟨true, haccepted⟩
  obtain ⟨y, t, hy, hsettle, -⟩ := hsettles 1 (Nat.le_refl 1) (.int 5) otherWorld
    (fun j hj => by
      obtain rfl : j = 0 := by omega
      exact ⟨_, _, rfl, hrejected⟩) rfl haccepted
  cases hsettle
  exact ⟨_, hy⟩

end Fact

end Conform
