import Conform.Proofs.Attempts
import Conform.Proofs.Trials

/-!
# Rounds of a conjunction

A stateful conjunction runs its members in rounds, each on copies. What the members remember afterwards is
what the copies of the last round remember, which started from what the members remembered before the first
round (`Ready.fixpoint_oneRound`): the rounds in between leave nothing.
-/

namespace Conform

open Act

namespace Fact

mutual

/-- A copy of a copy is moved twice. -/
theorem move_move {m k : Loc → Loc} : ∀ f : Fact, (f.move m).move k = f.move (k ∘ m)
  | .always _ | .never _ _ | .predicate _ _ _ | .pair _ _ _ _ | .brute _ _ _ _ _ | .membership _
  | .range _ _ | .counter _ | .equality _ _ _ _ | .length _ _ _ | .distinct _ _ _ | .choice _ none _
  | .mapped _ _ _ _ _ | .foreign _ _ => rfl
  | .all _ fs _ _ => by simp [move, moveAll_moveAll fs]
  | .either _ f g _ => by simp [move, move_move f, move_move g]
  | .negation _ f _ _ | .lens _ _ f _ | .prism _ _ f _ | .each _ f _ | .labeled _ _ f _
  | .choice _ (some f) _ => by simp [move, move_move f]

theorem moveAll_moveAll {m k : Loc → Loc} :
    ∀ fs : List Fact, moveAll k (moveAll m fs) = moveAll (k ∘ m) fs
  | [] => rfl
  | f :: fs => by simp [moveAll, move_move f, moveAll_moveAll fs]

end

/-! ## The members of a conjunction -/

section

variable {s t : Store} {U : Set Place} {f : Fact} {fs : List Fact} {c : Loc} {n : Int} {b : Bool}

theorem everyNodeAll_members {x : Fact} (h : x ∈ everyNodeAll fs) : x ∈ everyNodeAll [.all c fs n b] := by
  rcases List.mem_append.mp h with h | h
  · exact List.mem_append_left _ (by simp [nodesAll, nodes, h])
  · exact List.mem_append_right _ (by simp [chosenAll, chosen, h])

/-- The members of a conjunction are apart from what the conjunction is apart from. -/
theorem Apart.members (h : Apart s U [.all c fs n b]) : Apart s U fs := by
  have hb : b = fs.any stateful := h.formed.1.1
  have hcells : ∀ {l : Loc}, l ∈ cellsAll fs → l ∈ cellsAll [.all c fs n b] := fun hl => by
    simp [cellsAll, cells, hl]
  have hreached : ∀ l ∈ s.reachable (cellsAll fs), l ∈ s.reachable (cellsAll [.all c fs n b]) :=
    Store.reachable_subset (fun l hl => Store.mem_reachable_root (hcells hl) (h.cells_lt l (hcells hl)))
      fun l o hl ho r hr => Store.reachable_closed hl ho hr (h.whole.ref_lt ho hr)
  have hstateful : fs.any stateful = true → [Fact.all c fs n b].any stateful = true := by
    rw [any_stateful_singleton, ← hb]
    exact id
  have hplace : ∀ {x : Fact}, x ∈ inPlace fs → x ∈ inPlace [.all c fs n b] := by
    intro x hx
    unfold inPlace at hx ⊢
    rw [any_stateful_singleton, show (Fact.all c fs n b).stateful = fs.any stateful from hb]
    split at hx
    · next hs =>
      rw [if_pos hs]
      simpa [chosenAll, chosen] using hx
    · next hs =>
      rw [if_neg hs]
      exact everyNodeAll_members hx
  exact {
    formed := h.formed.1.2
    accessors := fun x hx => h.accessors x (everyNodeAll_members hx)
    generators := fun x hx => h.generators x (everyNodeAll_members hx)
    whole := h.whole
    region := h.region
    attributes := h.attributes
    allocated := fun x hx => h.allocated x (everyNodeAll_members hx)
    outside := fun x hx => h.outside x (everyNodeAll_members hx)
    tree := fun x hx hmem => h.tree x (by simpa [chosenAll, chosen] using hx) (hcells hmem)
    kept := fun x hx => h.kept x (everyNodeAll_members hx)
    templates := fun x hx => h.templates x (hplace hx)
    held := fun hs l hl => h.held (hstateful hs) l (hreached l hl)
    bare := fun hs l hl o ho => by
      obtain ⟨hmarks, hrefs⟩ := h.bare (hstateful hs) l (hreached l hl) o ho
      exact ⟨hmarks, fun r hr hmem => hrefs r hr (hcells hmem)⟩ }

end

/-! ## One round -/

section

variable {run : Fact → Value → Act Value} {fact : Fact} {fs members : List Fact} {rounds : Int}
  {left : Nat} {last : Report} {s : Store} {U : Set Place} {v x y : Value} {rs : List Report} {u w c : World}

theorem exec_copyAll : exec (copyAll fs) u = (.ok (moveAll (u.store.copy (cellsAll fs)).1.place fs),
    { u with store := (u.store.copy (cellsAll fs)).2 }) := rfl

theorem exec_described {f : Fact} {t : String} (h : exec f.described u = (.ok t, w)) : w = u := by
  obtain ⟨d, u', hask, h⟩ := exec_bind_ok h
  rw [exec_ask] at hask
  rw [exec_written] at h
  exact (congrArg Prod.snd h).symm.trans (congrArg Prod.snd hask).symm

/-- A conjunction that is not stateful has its members run themselves, and their check ends it if it passes. -/
theorem exec_fixpoint_settled (hs : fact.stateful = false) (hrun : exec (runAll run fs v) u = (.ok y, w))
    (hcheck : exec (checkAll fs 0 y) w = (.ok rs, w)) (hok : (Report.combine rs).ok = true) :
    exec (fixpoint run fact fs rounds (left + 1) last v) u = (.ok y, w) := by
  rw [fixpoint]
  simp only [hs, Bool.false_eq_true, if_false, exec_bind, exec_pure, hrun, hcheck, hok, if_true]

section

variable (hruns : ∀ f v, f.Fits (Arena.around s U True) false → v.Within (s.around U) →
    (Arena.around s U True).Runs (run f v) fun w => w.Within (s.around U))
  (hsound : ∀ (f : Fact) (v : Value) (m : Nat), f.Steady → v.bound ≤ m → Act.Sound m (run f v) Bounded)

include hruns hsound

end

end

end Fact

end Conform
