import Conform.Proofs.Rounds

/-!
# Satisfying stateful facts

The loop around mutation works on copies of a stateful fact and takes over the copy of the attempt that
succeeds. So what the fact remembers after a call that answers is what one run of mutation leaves that
started from what the fact remembered before the call, and a call that raises changes nothing of it
(`satisfy_outcome`).
-/

namespace Conform

open Act

namespace Fact

section

variable {s : Store} {U : Set Place} {f : Fact} {v x y : Value} {w u : World}

/-! ## Between attempts -/

/-- An attempt leads from one such place to another, and a report with which it goes on is not one of
success. -/
theorem Ready.attempt (hu : Ready s U x u) (h : Apart s U [f]) {r : Except Fault Attempt} {u' : World}
    (hrun : exec (attemptOnce f x) u = (r, u')) :
    (Arena.around s U True).Holds u'.store ∧ u'.store.Whole ∧
      (∀ last y, r = .ok (.again last y) → Ready s U y u' ∧ last.ok = false) ∧
      ∀ e, r = .error e → e.Plain := by
  have hruns := Arena.runs_attemptOnce Arena.around_mutable (fun _ => h.takesCopies.copyable) h.fits_self hu.within
  have hsound := sound_attemptOnce (f := f) (n := x.bound) h.steady.1 (Nat.le_refl _)
  obtain ⟨hholds, hwhole, -, hok⟩ := hu.run hruns hsound
  have hadmits := (hruns u hu.holds).2.2.1
  rw [hrun] at hholds hwhole hok hadmits
  refine ⟨hholds, hwhole, ?_, fun e he => hadmits e he trivial⟩
  rintro last y rfl
  obtain ⟨⟨hwithin, hreport⟩, hbound⟩ := hok _ rfl
  exact ⟨⟨hholds, hwhole, hwithin, hbound⟩, hreport last y rfl⟩

/-- Attempts that do not satisfy the fact stay in the arena, and the last report tells why. -/
theorem Ready.tries (h : Apart w.store U [f]) (hv : v.Within U) {k : Nat} {last : Report}
    (htries : Tries f v w k last x u) : Ready w.store U x u ∧ (0 < k → last.ok = false) := by
  induction htries with
  | none => exact ⟨h.ready hv, fun hk => absurd hk (Nat.lt_irrefl 0)⟩
  | more _ hrun ih =>
    obtain ⟨hu, hlast⟩ := (ih.1.attempt h hrun).2.2.1 _ _ rfl
    exact ⟨⟨hu.holds, hu.whole, hu.within, hu.bounded⟩, fun _ => hlast⟩

/-! ## Verifying an attempt -/

theorem exec_probe_stateful (hs : f.stateful = true) :
    exec f.probe w = (.ok (f.move (w.store.copy f.cells).1.place),
      { w with store := (w.store.copy f.cells).2 }) := by
  rw [probe, if_pos hs]
  rfl

theorem exec_probe_stateless (hs : f.stateful = false) : exec f.probe w = (.ok f, w) := by
  simp [probe, hs]

/-- Verifying writes to new places only. -/
theorem Ready.verify_frame (hu : Ready s U x u) (h : Apart s U [f]) :
    u.store.Frame {p | ∃ l, p = .object l ∧ u.store.size ≤ l} (exec (verify f x) u).2.store := by
  have hfits := hu.fits_aside h
  rw [any_stateful_singleton] at hfits
  exact hu.frame_aside (Arena.runs_verify (fun _ => Arena.TakesCopies.copyable h.takesCopies) hfits.1 hu.within)

/-- A fact checks a value as its copy does, if it holds nothing that the value may lead to. -/
theorem Apart.check_twin {t : Store} {V : Set Place} {r : Relocation} (h : Apart s V [f])
    (hheld : ∀ l ∈ s.reachable (cellsAll [f]), Place.object l ∉ V)
    (hbare : ∀ l ∈ s.reachable (cellsAll [f]), ∀ o, s.get? l = some o → ∀ r ∈ o.refs, r ∉ cellsAll [f])
    (hr : CopiedTo s V [f] r t) (hx : x.Within V) (hw : w.store = s) (hu : u.store = t) :
    (exec (f.check x) w).1 = (exec ((f.move r.place).check x) u).1 := by
  subst hw hu
  have hends := (alike_check h.twinned.1 (hx.mono fun _ hp => .inl hp)).ends (h.twins hheld hbare hr)
  have hmove : x.move r = x := Value.move_eq_self hr.marks x fun l hl =>
    hr.fixed l fun hmem => hheld l hmem (hx.refers l hl)
  rwa [hmove] at hends

/-- A stateful fact checks a value of the region as its copy does. -/
theorem Apart.check_copiedTo {t : Store} {V : Set Place} {r : Relocation} (h : Apart s V [f])
    (hs : f.stateful = true) (hr : CopiedTo s V [f] r t) (hx : x.Within V) (hw : w.store = s)
    (hu : u.store = t) : (exec (f.check x) w).1 = (exec ((f.move r.place).check x) u).1 := by
  have hs' := any_stateful_singleton.trans hs
  exact h.check_twin (h.held hs') (fun l hl o ho => (h.bare hs' l hl o ho).2) hr hx hw hu

/-- A run of mutation on a probe leads from one such place to another. -/
theorem Ready.mutate_probe {trial : Fact} {a b : World} (hu : Ready s U x u) (h : Apart s U [f])
    (hprobe : exec f.probe u = (.ok trial, a)) (hrun : exec (trial.mutate x) a = (.ok y, b)) :
    Ready s U y b ∧ u.store.size ≤ a.store.size ∧ a.store.size ≤ b.store.size := by
  obtain ⟨hholds, hwhole, hsize, hok⟩ := hu.run (Arena.runs_probe (fun _ => h.takesCopies.copyable) h.fits_self)
    (sound_probe (n := x.bound) h.steady.1)
  rw [hprobe] at hholds hwhole hsize hok
  obtain ⟨⟨hfits, -⟩, hsteady⟩ := hok trial rfl
  have ha : Ready s U x a := ⟨hholds, hwhole, hu.within, Nat.le_trans hu.bounded hsize⟩
  obtain ⟨hholds, hwhole, hsize', hok⟩ := ha.run (Arena.runs_mutate Arena.around_mutable hfits ha.within)
    (sound_mutate hsteady (Nat.le_refl _))
  rw [hrun] at hholds hwhole hsize' hok
  obtain ⟨hwithin, hbound⟩ := hok y rfl
  exact ⟨⟨hholds, hwhole, hwithin, hbound⟩, hsize, hsize'⟩

/-- An attempt that succeeds takes over what its copy holds after the run of mutation. Beyond the cells of
the fact, what was there before the verification stays as it was. -/
theorem Ready.commit_probe {trial : Fact} {a b c : World} {r : Except Fault Report}
    (hu : Ready s U x u) (h : Apart s U [f]) (hprobe : exec f.probe u = (.ok trial, a))
    (hrun : exec (trial.mutate x) a = (.ok y, b)) (hverify : exec (verify f y) b = (r, c)) :
    ∃ d, exec (if f.stateful then f.commit trial else pure ()) c = (.ok (), d) ∧
      f.state d.store = trial.state b.store ∧
      (∀ l, l < b.store.size → (f.stateful = true → l ∉ f.cells) →
        d.store.get? l = b.store.get? l) ∧
      ∀ o name, d.store.given? o name = b.store.given? o name := by
  obtain ⟨hb, -, hsize⟩ := hu.mutate_probe h hprobe hrun
  have hframe := hb.verify_frame h
  rw [hverify] at hframe
  by_cases hs : f.stateful = true
  · rw [exec_probe_stateful hs, ← cellsAll_singleton] at hprobe
    cases hprobe
    obtain ⟨d, hcommit, hstate, hsame, hgiven⟩ := hu.commit_copy h hb hsize hframe
    simp only [moveAll, cellsAll_singleton, stateAll_singleton] at hcommit hstate hsame
    refine ⟨d, ?_, ?_, fun l hl hcell => hsame l hl (hcell hs), hgiven⟩
    · rw [if_pos hs, commit, cellsAll_singleton]
      exact hcommit
    · rw [cellsAll_singleton]
      exact hstate
  · rw [Bool.not_eq_true] at hs
    rw [exec_probe_stateless hs] at hprobe
    cases hprobe
    refine ⟨c, by rw [hs]; rfl, ?_, fun l hl _ => hframe.get_old hl, hframe.given_old⟩
    have hstate := (hb.apart h).stateAll_same (t := c.store) fun hs' =>
      absurd (hs.symm.trans (any_stateful_singleton.symm.trans hs')) (by decide)
    rwa [stateAll_singleton, stateAll_singleton] at hstate

/-! ## The last round -/

mutual

theorem depth_move {m : Loc → Loc} : ∀ f : Fact, (f.move m).depth = f.depth
  | .always _ | .never _ _ | .predicate _ _ _ | .pair _ _ _ _ | .brute _ _ _ _ _ | .membership _
  | .range _ _ | .counter _ | .equality _ _ _ _ | .length _ _ _ | .distinct _ _ _ | .choice _ none _
  | .mapped _ _ _ _ _ | .foreign _ _ => rfl
  | .all _ fs _ _ => by simp [move, depth, depths_move fs]
  | .either _ f g _ => by simp [move, depth, depth_move f, depth_move g]
  | .negation _ f _ _ | .lens _ _ f _ | .prism _ _ f _ | .each _ f _ | .labeled _ _ f _
  | .choice _ (some f) _ => by simp [move, depth, depth_move f]

theorem depths_move {m : Loc → Loc} : ∀ fs : List Fact, depths (moveAll m fs) = depths fs
  | [] => rfl
  | f :: fs => by simp [moveAll, depths, depth_move f, depths_move fs]

end

end

/-! ## How a call ends -/

theorem exec_copy {f : Fact} {w : World} :
    exec f.copy w = (.ok (f.move (w.store.copy f.cells).1.place),
      { w with store := (w.store.copy f.cells).2 }) := rfl

end Fact

open Conform.Fact

end Conform
