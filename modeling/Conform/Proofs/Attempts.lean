import Conform.Proofs.SoundMutating
import Conform.Proofs.Stateless

/-!
# Attempts

`attemptOnce` is what the loop around mutation does in one round: one run of mutation, on a copy if the fact
is stateful, and a check of what it answers. `Tries` is the relation of several such rounds that have not
satisfied the fact, and `exec_satisfyFrom_tries` says that the loop is nothing but such rounds, at most as many
as its budget, and what it does after the last one.
-/

namespace Conform

open Act

/-! ## One attempt -/

/-- What an attempt comes to: a value that satisfies the fact, with the copy that made it, or a report and
the value to go on with. -/
inductive Attempt
  | satisfied (trial : Fact) (value : Value)
  | again (report : Report) (value : Value)

/-- The value that an attempt leaves. -/
def Attempt.value : Attempt → Value
  | .satisfied _ v | .again _ v => v

/-- One run of mutation and a check of what it answers. -/
def attemptOnce (f : Fact) (v : Value) : Act Attempt := do
  let trial ← f.probe
  match ← Act.attempt (trial.mutate v) with
  | .ok w =>
    let last ← verify f w
    return if last.ok then .satisfied trial w else .again last w
  | .error fault =>
    match fault with
    | .exhausted _ _ lastCheck => return .again (← reportGivenUp f v fault lastCheck) v
    | fault => throw fault

/-- What the loop does after an attempt that satisfies the fact. -/
def concludeAttempt (f trial : Fact) (v : Value) (number : Int) (attempt : String) : Act Value := do
  if f.stateful then f.commit trial
  if 1 < number then
    Act.log .debug satisfyLogger ("satisfy succeeded on attempt " ++ attempt)
  return v

/-- A world with one more entry in its log. -/
def World.logged (w : World) (e : LogEntry) : World := { w with log := w.log.push e }

/-- The loop makes an attempt, and then concludes it, goes on, or ends with its fault. -/
theorem exec_satisfyFrom_succ (f : Fact) (budget : Int) (left : Nat) (last : Report) (v : Value)
    (w : World) :
    match exec (attemptOnce f v) w with
    | (.ok (.satisfied trial x), u) => ∃ number attempt,
      exec (satisfyFrom f budget (left + 1) last v) w = exec (concludeAttempt f trial x number attempt) u
    | (.ok (.again r x), u) => ∃ e,
      exec (satisfyFrom f budget (left + 1) last v) w = exec (satisfyFrom f budget left r x) (u.logged e)
    | (.error e, u) => exec (satisfyFrom f budget (left + 1) last v) w = (.error e, u) := by
  rw [satisfyFrom]
  simp only [attemptOnce, exec_bind]
  rcases exec f.probe w with ⟨e | trial, a⟩
  · rfl
  simp only [exec_attempt]
  rcases exec (trial.mutate v) a with ⟨e | x, b⟩
  · cases e with
    | exhausted fact reason lastCheck =>
      simp only [exec_bind]
      rcases exec (reportGivenUp f v (.exhausted fact reason lastCheck) lastCheck) b with ⟨e | r, u⟩
      · rfl
      · exact ⟨_, rfl⟩
    | _ => rfl
  · simp only [exec_bind]
    rcases exec (verify f x) b with ⟨e | r, u⟩
    · rfl
    · dsimp only
      cases hr : r.ok with
      | true => exact ⟨_, _, rfl⟩
      | false => exact ⟨_, rfl⟩

/-- The steps of an attempt that satisfies the fact. -/
theorem exec_attemptOnce_satisfied {f trial : Fact} {x y : Value} {u u' : World}
    (h : exec (attemptOnce f x) u = (.ok (.satisfied trial y), u')) :
    ∃ a b r, exec f.probe u = (.ok trial, a) ∧ exec (trial.mutate x) a = (.ok y, b) ∧
      exec (verify f y) b = (.ok r, u') ∧ r.ok = true := by
  obtain ⟨g, a, hprobe, h⟩ := exec_bind_ok h
  obtain ⟨r, b, hrun, h⟩ := exec_bind_ok h
  rw [exec_attempt] at hrun
  rcases hr : exec (g.mutate x) a with ⟨e | w, b'⟩
  · rw [hr] at hrun
    cases hrun
    cases e with
    | exhausted fact reason lastCheck =>
      obtain ⟨last, c, -, h⟩ := exec_bind_ok h
      cases h
    | _ => cases h
  · rw [hr] at hrun
    cases hrun
    obtain ⟨last, c, hverify, h⟩ := exec_bind_ok h
    rw [exec_pure] at h
    split at h
    · next hok =>
      cases h
      exact ⟨a, b', last, hprobe, hr, hverify, hok⟩
    · cases h

/-- Concluding an attempt takes over what the copy holds, if there is one, and answers the value. -/
theorem exec_concludeAttempt {f trial : Fact} {y : Value} {number : Int} {attempt : String} {u c : World}
    (h : exec (if f.stateful then f.commit trial else pure ()) u = (.ok (), c)) :
    ∃ w, exec (concludeAttempt f trial y number attempt) u = (.ok y, w) ∧ w.store = c.store := by
  have hrest : ∃ w, exec (do
      if 1 < number then
        Act.log .debug satisfyLogger ("satisfy succeeded on attempt " ++ attempt)
      return y) c = (.ok y, w) ∧ w.store = c.store := by
    by_cases hn : 1 < number
    · simp only [if_pos hn]
      exact ⟨_, rfl, rfl⟩
    · simp only [if_neg hn]
      exact ⟨_, rfl, rfl⟩
  unfold concludeAttempt
  by_cases hs : f.stateful = true
  · simp only [if_pos hs] at h ⊢
    rw [exec_bind, h]
    exact hrest
  · simp only [if_neg hs] at h ⊢
    cases h
    exact hrest

/-! ## Several attempts -/

/-- Attempts that have not satisfied the fact, with the last report and what they leave. Each of them is
one run of mutation. -/
inductive Tries (f : Fact) (v : Value) (w : World) : Nat → Report → Value → World → Prop
  | none : Tries f v w 0 .pass v w
  | more {k : Nat} {last r : Report} {x y : Value} {u u' : World} {e : LogEntry} :
    Tries f v w k last x u → exec (attemptOnce f x) u = (.ok (.again r y), u') →
      Tries f v w (k + 1) r y (u'.logged e)

/-- How the loop ends after some attempts: by an attempt that satisfies the fact, by one that raises, or when
its budget is used up. -/
inductive Ends (f : Fact) (budget : Int) (x : Value) (u : World) (k limit : Nat) (last : Report) :
    Except Fault Value × World → Prop
  | satisfied {trial : Fact} {y : Value} {u' : World} {number : Int} {attempt : String} : k < limit →
      exec (attemptOnce f x) u = (.ok (.satisfied trial y), u') →
      Ends f budget x u k limit last (exec (concludeAttempt f trial y number attempt) u')
  | raised {e : Fault} {u' : World} : k < limit → exec (attemptOnce f x) u = (.error e, u') →
      Ends f budget x u k limit last (.error e, u')
  | exhausted {e : LogEntry} : k = limit →
      Ends f budget x u k limit last (.error (.unsatisfied budget last), u.logged e)

/-- The loop is a number of attempts that do not satisfy the fact and one way of ending. -/
theorem exec_satisfyFrom_tries {f : Fact} {budget : Int} {v : Value} {w : World} :
    ∀ {left k : Nat} {last : Report} {x : Value} {u : World}, Tries f v w k last x u →
      ∃ k' last' x' u', Tries f v w k' last' x' u' ∧
        Ends f budget x' u' k' (k + left) last' (exec (satisfyFrom f budget left last x) u) := by
  intro left
  induction left with
  | zero =>
    intro k last x u h
    exact ⟨k, last, x, u, h, .exhausted rfl⟩
  | succ left ih =>
    intro k last x u h
    have hstep := exec_satisfyFrom_succ f budget left last x u
    have hlt : k < k + (left + 1) := Nat.lt_add_of_pos_right (Nat.succ_pos left)
    rcases hrun : exec (attemptOnce f x) u with ⟨e | ⟨trial, y⟩ | ⟨r, y⟩, u'⟩
    · rw [hrun] at hstep
      exact ⟨k, last, x, u, h, hstep ▸ .raised hlt hrun⟩
    · rw [hrun] at hstep
      obtain ⟨number, attempt, heq⟩ := hstep
      exact ⟨k, last, x, u, h, heq ▸ .satisfied hlt hrun⟩
    · rw [hrun] at hstep
      obtain ⟨e, heq⟩ := hstep
      obtain ⟨k', last', x', u'', htries, hends⟩ := ih (.more (e := e) h hrun)
      rw [heq]
      rw [Nat.add_right_comm, Nat.add_assoc] at hends
      exact ⟨k', last', x', u'', htries, hends⟩

/-- The whole loop, from its first attempt on. -/
theorem exec_satisfyFrom_run (f : Fact) (attempts : Int) (v : Value) (w : World) :
    ∃ k last x u, Tries f v w k last x u ∧
      Ends f attempts x u k attempts.toNat last
        (exec (satisfyFrom f attempts attempts.toNat .pass v) w) := by
  obtain ⟨k, last, x, u, htries, hends⟩ := exec_satisfyFrom_tries (Tries.none (f := f) (v := v) (w := w))
  rw [Nat.zero_add] at hends
  exact ⟨k, last, x, u, htries, hends⟩

/-! ## What attempts keep -/

namespace Arena

variable {A : Arena} {f : Fact}

/-- What an attempt leaves that keeps to an arena. -/
def Kept (A : Arena) (o : Attempt) : Prop :=
  o.value.Within A.values ∧ ∀ r y, o = .again r y → r.ok = false

/-- An attempt keeps the invariant of an arena. -/
theorem runs_attemptOnce (hA : A.Mutable) (hcopies : A.Copies f.stateful) (hf : f.Fits A f.stateful)
    {v : Value} (hv : v.Within A.values) : A.Runs (attemptOnce f v) A.Kept := by
  refine (runs_probe hcopies hf).bind fun trial ht => ?_
  refine (runs_mutate hA ht.1 hv).attempt.bind fun r hr => ?_
  cases r with
  | ok w =>
    have hw := hr.1 w rfl
    refine (runs_verify hcopies hf hw).bind fun last _ => runs_pure ?_
    split
    · exact ⟨hw, nofun⟩
    · next hok =>
      refine ⟨hw, ?_⟩
      rintro r y ⟨⟩
      exact Bool.not_eq_true _ ▸ hok
  | error e =>
    cases e with
    | exhausted fact reason lastCheck =>
      refine (runs_reportGivenUp hcopies hf hv).bind fun last hlast => runs_pure ⟨hv, ?_⟩
      rintro r y ⟨⟩
      exact hlast
    | _ => exact runs_rethrow (hr.2 _ rfl)

end Arena

section

variable {n : Nat} {f : Fact} {v : Value}

theorem Act.Sound.attempt {α : Type} {P : Nat → α → Prop} {a : Act α} (ha : Sound n a P) :
    Sound n (Act.attempt a) fun m r => ∀ x, r = .ok x → P m x := by
  intro w hw hn
  obtain ⟨hs, hok⟩ := ha w hw hn
  rw [exec_attempt]
  refine ⟨hs, ?_⟩
  rintro r ⟨⟩
  exact hok

theorem sound_verify (hf : f.Steady) (hv : v.bound ≤ n) : Sound n (verify f v) Anything :=
  (sound_probe hf).bind fun _ _ hm hp => sound_check hp (Nat.le_trans hv hm)

theorem sound_reportGivenUp {e : Fault} {last : Option Report} (hf : f.Steady) (hv : v.bound ≤ n) :
    Sound n (reportGivenUp f v e last) Anything := by
  unfold reportGivenUp
  cases last with
  | none => exact (sound_verify hf hv).bind fun _ _ _ _ => sound_pure fun _ _ => trivial
  | some r => exact sound_pure fun _ _ => trivial

theorem sound_attemptOnce (hf : f.Steady) (hv : v.bound ≤ n) :
    Sound n (attemptOnce f v) fun m o => o.value.bound ≤ m := by
  refine (sound_probe hf).bind fun m trial hm ht => ?_
  have hvm := Nat.le_trans hv hm
  refine (sound_mutate ht hvm).attempt.bind fun k r hk hr => ?_
  cases r with
  | ok w =>
    have hw : w.bound ≤ k := hr w rfl
    refine (sound_verify hf hw).bind fun j last hj _ => sound_pure fun i hi => ?_
    split <;> exact Nat.le_trans hw (Nat.le_trans hj hi)
  | error e =>
    cases e with
    | exhausted fact reason lastCheck =>
      refine (sound_reportGivenUp hf (Nat.le_trans hvm hk)).bind fun j last hj _ => ?_
      exact sound_pure fun i hi => Nat.le_trans hvm (Nat.le_trans hk (Nat.le_trans hj hi))
    | _ => exact sound_throw

end

end Conform
