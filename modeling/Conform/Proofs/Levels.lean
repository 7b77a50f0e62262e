import Conform.Fact.Mutate
import Conform.Proofs.Choosing

/-!
# Levels of a tree

Mutation counts the levels that it may still go down. A tree never needs more levels than its depth, and further ones
change nothing: `Fact.mutateWithin_eq` lets the part of a fact be mutated as the part alone is. The one step that does
not go down is that to the complement of a negated fact, which is no deeper than this fact (`Fact.depth_complement`).
-/

namespace Conform

open Act

/-- Actions that run alike are the same. -/
theorem Act.ext_exec {α : Type} {a b : Act α} (h : ∀ w, exec a w = exec b w) : a = b := funext h

namespace Fact

variable {f g : Fact} {fs : List Fact} {v : Value} {w u : World}

theorem depth_pos (f : Fact) : 0 < f.depth := by
  cases f with
  | choice c f b => cases f <;> exact Nat.succ_pos _
  | _ => exact Nat.succ_pos _

/-! ## Complements -/

theorem depth_relabel {name : String} (h : exec (relabel name f) w = (.ok g, u)) : g.depth ≤ f.depth + 1 := by
  obtain ⟨c, w', -, h⟩ := exec_bind_ok h
  split at h
  · cases h
    exact Nat.le_succ _
  · cases h
    exact Nat.le_refl _

/-- A complement is no deeper than the fact. -/
theorem depth_complement : ∀ {f g : Fact} {w u : World}, exec f.complement w = (.ok (some g), u) → g.depth ≤ f.depth
  | .always _, _, _, _, h | .never _ _, _, _, _, h | .equality _ _ _ _, _, _, _, h | .range _ _, _, _, _, h
  | .pair _ _ _ _, _, _, _, h => by
    rw [complement] at h
    obtain ⟨c, w', -, h⟩ := exec_bind_ok h
    cases h
    exact Nat.le_refl _
  | .negation _ f _ _, _, _, _, h => by
    cases h
    exact Nat.le_succ _
  | .lens c acc f b, g, w, u, h => by
    rw [complement] at h
    obtain ⟨o, w', hf, h⟩ := exec_bind_ok h
    cases o with
    | none => cases h
    | some k =>
      obtain ⟨c', w'', -, h⟩ := exec_bind_ok h
      cases h
      exact Nat.succ_le_succ (depth_complement hf)
  | .labeled c name f b, g, w, u, h => by
    rw [complement] at h
    obtain ⟨o, w', hf, h⟩ := exec_bind_ok h
    cases o with
    | none => cases h
    | some k =>
      obtain ⟨k', w'', hk, h⟩ := exec_bind_ok h
      cases h
      exact Nat.le_trans (depth_relabel hk) (Nat.succ_le_succ (depth_complement hf))
  | .foreign c kind, g, w, u, h => by
    rw [complement] at h
    split at h
    · obtain ⟨vs, w', -, h⟩ := exec_bind_ok h
      obtain ⟨c', w'', -, h⟩ := exec_bind_ok h
      cases h
      exact Nat.le_refl _
    · cases h
  | .membership _, _, _, _, h | .counter _, _, _, _, h | .distinct _ _ _, _, _, _, h | .all _ _ _ _, _, _, _, h
  | .either _ _ _ _, _, _, _, h | .prism _ _ _ _, _, _, _, h | .each _ _ _, _, _, _, h | .length _ _ _, _, _, _, h
  | .mapped _ _ _ _ _, _, _, _, h | .predicate _ _ _, _, _, _, h | .brute _ _ _ _ _, _, _, _, h
  | .choice _ _ _, _, _, _, h => by cases h

/-! ## Ways of going down -/

section

variable {run run' : Fact → Value → Act Value} {fact : Fact}

theorem runAll_congr (h : ∀ f ∈ fs, run f = run' f) (v : Value) : runAll run fs v = runAll run' fs v := by
  induction fs generalizing v with
  | nil => rfl
  | cons f fs ih =>
    show (run f v >>= runAll run fs) = run' f v >>= runAll run' fs
    rw [h f List.mem_cons_self]
    exact bind_congr fun y => ih (fun g hg => h g (List.mem_cons_of_mem f hg)) y

theorem fixpoint_congr (h : ∀ f, f.depth ≤ depths fs → run f = run' f) {rounds : Int} {left : Nat} {last : Report} :
    fixpoint run fact fs rounds left last v = fixpoint run' fact fs rounds left last v := by
  -- the members that a round works on are no deeper, copied or not
  have hmembers : ∀ m : Loc → Loc, ∀ x, runAll run (moveAll m fs) x = runAll run' (moveAll m fs) x := fun m =>
    runAll_congr fun f hf => h f (by
      rw [← depths_move (m := m)]
      exact depth_le_depths hf)
  have hplain : ∀ x, runAll run fs x = runAll run' fs x := runAll_congr fun f hf => h f (depth_le_depths hf)
  induction left generalizing last v with
  | zero => rfl
  | succ left ih =>
    rw [fixpoint, fixpoint]
    split
    · simp only [copyAll, bind_assoc, pure_bind, hmembers, ih]
    · simp only [pure_bind, hplain, ih]

theorem mutateEither_congr {f g : Fact} (hf : run f = run' f) (hg : run g = run' g) :
    mutateEither run fact f g v = mutateEither run' fact f g v := by
  have hside : ∀ b : Bool, run (if b then f else g) v = run' (if b then f else g) v := by
    rintro (_ | _)
    · exact congrFun hg v
    · exact congrFun hf v
  simp only [mutateEither, hside]

/-- What is done next may take the complement to be no deeper than the fact. -/
theorem complement_bind_congr {k k' : Option Fact → Act Value} (hnone : k none = k' none)
    (hsome : ∀ g, g.depth ≤ f.depth → k (some g) = k' (some g)) : f.complement >>= k = f.complement >>= k' := by
  refine ext_exec fun w => ?_
  rw [exec_bind, exec_bind]
  rcases hcomplement : exec f.complement w with ⟨e | o, u⟩
  · rfl
  · cases o with
    | none => exact congrArg (exec · u) hnone
    | some g => exact congrArg (exec · u) (hsome g (depth_complement hcomplement))

theorem mutateNegation_congr (h : ∀ g, g.depth ≤ f.depth → run g = run' g) {n : Int} :
    mutateNegation run fact f n v = mutateNegation run' fact f n v := by
  rw [mutateNegation, mutateNegation]
  split
  all_goals
    refine bind_congr fun p => ?_
    refine bind_congr fun r => ?_
    split
    · rfl
    · exact complement_bind_congr rfl fun g hg => congrFun (h g hg) v

end

/-! ## All levels -/

theorem mutateWithin_congr : ∀ {k m : Nat} {f : Fact}, f.depth ≤ k → f.depth ≤ m →
    mutateWithin k f = mutateWithin m f := by
  intro k
  induction k with
  | zero => exact fun {_ f} hk _ => absurd f.depth_pos (Nat.not_lt.mpr hk)
  | succ k ih =>
    intro m f hk hm
    cases m with
    | zero => exact absurd f.depth_pos (Nat.not_lt.mpr hm)
    | succ m =>
      funext v
      cases f with
      | all c fs n b =>
        exact fixpoint_congr fun f hf =>
          ih (Nat.le_trans hf (Nat.le_of_succ_le_succ hk)) (Nat.le_trans hf (Nat.le_of_succ_le_succ hm))
      | either c f g b =>
        rw [depth] at hk hm
        exact mutateEither_congr (ih (by omega) (by omega)) (ih (by omega) (by omega))
      | negation c f n b =>
        exact mutateNegation_congr fun f hf =>
          ih (Nat.le_trans hf (Nat.le_of_succ_le_succ hk)) (Nat.le_trans hf (Nat.le_of_succ_le_succ hm))
      | lens c a f b | prism c a f b | each c f b | labeled c name f b =>
        simp only [mutateWithin, ih (Nat.le_of_succ_le_succ hk) (Nat.le_of_succ_le_succ hm)]
      | mapped c name tests fs f =>
        rw [depth] at hk hm
        have hpick : ∀ d, mutateWithin k (pick d f tests fs) = mutateWithin m (pick d f tests fs) := by
          intro d
          have hdepth : (pick d f tests fs).depth ≤ max (depths fs) f.depth := by
            rcases pick_mem_or_eq d f tests fs with hmem | heq
            · exact Nat.le_trans (depth_le_depths hmem) (Nat.le_max_left ..)
            · rw [heq]
              exact Nat.le_max_right ..
          exact ih (by omega) (by omega)
        simp only [mutateWithin, hpick]
      | equality c equal g n => cases equal <;> rfl
      | range c inside => cases inside <;> rfl
      | choice c f b =>
        cases f with
        | none => rfl
        | some f => simp only [mutateWithin, mutateChoice, ih (Nat.le_of_succ_le_succ hk) (Nat.le_of_succ_le_succ hm)]
      | _ => rfl

/-- Levels beyond the depth of a fact change nothing. -/
theorem mutateWithin_eq {k : Nat} (h : f.depth ≤ k) : mutateWithin k f v = f.mutate v :=
  congrFun (mutateWithin_congr h (Nat.le_refl _)) v

end Fact

end Conform
