import Conform.Proofs.Descending

/-!
# Mutating with facts that are followed as a whole

Where a fact is followed as a whole, a value only has to be apart from what is guarded, before each run and after it
(`Fact.Poised.whole`). Runs one after the other then leave what one run leaves (`Fact.Advanced.whole_trans`), and how
often a counter has been used does not depend on the values (`Fact.Suited.noting_false`). A fact that does not advance
and a lens are as they should be (`Fact.advances_of_stateless`, `Fact.advances_lens_whole`).
-/

namespace Conform

open Act

namespace Fact

variable {ns ms fs gs : List Fact} {p : Bool} {f : Fact} {s t u : Store} {X Y Z : Set Loc} {v x y z : Value}
  {w : World} {acc : Accessor} {b : Bool} {levels : Nat}

/-- What is clear can be followed as a whole, after work beside what is guarded. -/
theorem Poised.whole (h : Poised ns p fs v s X) (hbeside : s.Beside X t) (hx : x.Clear X t.size) :
    Poised ns false gs x t X where
  guarded := hbeside.guarded
  stocked := h.stocked.frame (fun _ hl => hl) fun l hl => hbeside.same l (h.stocked.held_guarded hl)
  rests := rests_whole.mpr hx
  free := fun _ hl => absurd hl not_mem_trail_false
  bounded := hx.bounded

/-- Runs one after the other leave what one run leaves. -/
theorem Advanced.whole_trans (h : Poised ns false gs v s X) (hfirst : Advanced ns false fs x s X t Y)
    (hrest : Advanced ns false ms y t Y u Z) (hfs : ∀ n ∈ nodesAll fs, n ∈ nodesAll gs)
    (hms : ∀ n ∈ nodesAll ms, n ∈ nodesAll gs) (hgs : ∀ n ∈ nodesAll gs, n ∈ ns) :
    Advanced ns false gs v s X u Z where
  grown := hfirst.grown.trans hrest.grown hfirst.size
  size := Nat.le_trans hfirst.size hrest.size
  poised :=
    ⟨hrest.poised.guarded, hrest.poised.stocked, rests_whole.mpr ((rests_whole.mp h.rests).grow
      (hfirst.grown.trans hrest.grown hfirst.size) (Nat.le_trans hfirst.size hrest.size)),
      fun _ hl => absurd hl not_mem_trail_false, Nat.le_trans h.bounded (Nat.le_trans hfirst.size hrest.size)⟩
  frame := fun l hl _ hheld => by
    refine (hrest.frame l (hfirst.grown.old hl) not_mem_trail_false fun hmem => ?_).trans
      (hfirst.frame l hl not_mem_trail_false fun hmem => hheld (heldBy_mono hfs hmem))
    rcases hfirst.heldBy (fun n hn => hgs n (hms n hn)) hmem with hmem | hle
    · exact hheld (heldBy_mono hms hmem)
    · exact Nat.not_lt.mpr hle (h.guarded.bounded l hl)
  held := fun n hn l hl => by
    rcases hrest.held n hn l hl with hl | hle
    · exact hfirst.held n hn l hl
    · exact .inr (Nat.le_trans hfirst.size hle)
  trail := fun _ hl => absurd hl not_mem_trail_false
  resembles := fun hp => by cases hp

/-- Work beside what is guarded is a run of no fact. -/
theorem Poised.beside (h : Poised ns p fs v s X) (hbeside : s.Beside X t) (hx : x.Clear X s.size) :
    Advanced ns false [] x s X t X where
  grown := .refl
  size := hbeside.size
  poised := h.whole hbeside (hx.grow .refl hbeside.size)
  frame := fun l hl _ _ => hbeside.same l hl
  held := fun n hn l hl => .inl (by
    rwa [Store.slots_of_same (hbeside.same _ (h.stocked.cells n hn))] at hl)
  trail := fun _ hl => absurd hl not_mem_trail_false
  resembles := fun hp => by cases hp

/-- What is followed as a whole answers what is poised, if it notes what it sees. -/
theorem Poised.answered (h : Poised ns false fs y t Y) (hnoted : ∀ n ∈ ns, ∀ k, n.kind? = some k →
    Noting (ExactAll false fs) k (s.noted n.cell) (noticed t false n.cell fs y) (t.noted n.cell)) :
    Answered ns false fs v s t Y y where
  poised := h
  trail := fun _ hl => absurd hl not_mem_trail_false
  same := fun hp => by cases hp
  present := fun hp => by cases hp
  noted := hnoted

/-- A fact that does not advance works beside what is guarded, and notes nothing. -/
theorem advances_of_stateless (hsuited : Suited ns false [f]) (hs : f.stateful = false) :
    Advances ns false [f] x (mutateWithin levels f x) := by
  intro w X h
  have hnodes : ∀ n ∈ f.everyNode, n ∈ ns := fun n hn => hsuited.nodes n (by
    simpa [everyNodeAll, nodesAll, chosenAll, Fact.everyNode] using hn)
  have hbare : ∀ n ∈ f.everyNode, ∀ z ∈ w.store.slots n.cell, z.refs = [] := by
    intro n hn z hz
    obtain ⟨vs, hget, hvs⟩ := (h.stocked.stores n (hnodes n hn)).slots
    rw [Store.slots_of_get? hget] at hz
    rcases hvs with hvs | ⟨hk, -⟩
    · exact (hvs z hz).refs
    · rcases List.mem_append.mp hn with hn | hn
      · cases kind_of_stateless hsuited.formed.1 hs n hn _ hk
      · cases kind_of_chosen hsuited.formed.1 n hn _ hk
  obtain ⟨hbeside, hok⟩ := h.guarded.stateless levels hsuited.toTame hs
    (fun n hn => h.stocked.cells n (hnodes n hn)) hbare (h.rests.clear rfl)
  refine ⟨X, h.still hsuited hbeside, fun y hy => (h.whole hbeside (hok y hy)).answered fun n hn k _ => ?_⟩
  rw [noticed_of_stateless hsuited.formed.1 hs,
    Stocked.noted_frame (fun l hl => hbeside.same l (h.stocked.held_guarded hl)) hn]
  exact .none

theorem Tallied.inner_lens {d : Loc} (h : (Fact.lens d acc f b).Tallied) (hf : (Fact.lens d acc f b).Formed) :
    f.Tallied := by
  cases h with
  | still hs => exact .still (hf.1.symm.trans hs)
  | lens h => exact h

theorem Suited.whole_lens {d : Loc} (h : Suited ns false [.lens d acc f b]) : Suited ns false [f] :=
  h.sub ⟨h.formed.1.2, trivial⟩ (followed_whole.mpr (List.forall_mem_singleton.mpr
    ((followed_whole.mp h.followed _ (List.mem_singleton_self _)).inner_lens h.formed.1))) Over.lens.everyNode

/-- A lens that is followed as a whole runs what is below it and stores what that answers. -/
theorem advances_lens_whole {d : Loc} {step : Value → Act Value} {fact : Fact}
    (hsuited : Suited ns false [.lens d acc f b]) (hstep : ∀ x, Advances ns false [f] x (step x)) :
    Advances ns false [.lens d acc f b] v (mutateLens step fact acc v) := by
  intro w X h
  have hclear := h.rests.clear rfl
  have hnodes : ∀ n ∈ nodesAll [f], n ∈ nodesAll [Fact.lens d acc f b] := Over.lens.nodes
  obtain ⟨hsound, -, hfits⟩ := hsuited.accessors (.lens d acc f b) (by
    simp [everyNodeAll, nodesAll, nodes]) acc rfl
  cases hget : acc.get w.store v with
  | error e =>
    obtain ⟨hworld, hok⟩ := exec_mutateLens_missing step fact hget
    refine h.advancesIn_still hsuited ?_ hok
    rw [hworld]
    exact h.guarded.beside
  | ok x =>
    obtain ⟨-, hpart⟩ := h.guarded.run h.bounded (Arena.runs_part? (hfits _ Store.Guarded.takesCopies) hclear.within)
      (sound_part? hsound (Nat.le_refl _))
    rw [exec_part?_eq, hget] at hpart
    obtain ⟨hwithin, hbound⟩ := hpart (some x) rfl
    have hx : x.Clear X w.store.size := ⟨hwithin x rfl, hbound x rfl⟩
    obtain ⟨Y, hadv, hans⟩ := hstep x w X (h.whole h.guarded.beside hx)
    unfold AdvancesIn
    rw [exec_mutateLens step fact hget]
    rcases hrun : exec (step x) w with ⟨e | y, u⟩
    · rw [hrun] at hadv
      refine ⟨Y, .whole_trans h hadv hadv.poised.advanced hnodes hnodes hsuited.cells, ?_⟩
      exact fun z hz => by cases hz
    · rw [hrun] at hadv hans
      have hanswer := hans y rfl
      have hv : v.Clear Y u.store.size := hclear.grow hadv.grown hadv.size
      have hy : y.Clear Y u.store.size := hanswer.poised.rests.clear rfl
      obtain ⟨hbeside, hok⟩ := hadv.poised.guarded.run (Nat.max_le.mpr ⟨hv.bounded, hy.bounded⟩)
        (Arena.runs_write Store.Guarded.mutable (hfits _ Store.Guarded.takesCopies) hv.within hy.within)
        (sound_write hsound (Nat.le_max_left _ _) (Nat.le_max_right _ _))
      refine ⟨Y, .whole_trans h hadv (hadv.poised.beside hbeside hv) hnodes (by simp [nodesAll]) hsuited.cells,
        fun z hz => ?_⟩
      obtain ⟨hzwithin, hzbound⟩ := hok z hz
      refine (hadv.poised.whole hbeside ⟨hzwithin, hzbound⟩).answered fun n hn k hk => ?_
      -- what is noted does not depend on the value
      have hnoted := hsuited.whole_lens.noting_false (t := (exec (acc.write v y) u).2.store) (y := z)
        hadv.poised.stocked hn hk (hanswer.noted n hn k hk)
      have hsame : (exec (acc.write v y) u).2.store.noted n.cell = u.store.noted n.cell :=
        Stocked.noted_frame (fun l hl => hbeside.same l (hadv.poised.stocked.held_guarded hl)) hn
      dsimp only
      rw [hsame]
      refine hnoted.mono fun hexact => exactAll_whole.mpr (List.forall_mem_singleton.mpr ?_)
      exact hsuited.formed.1.1.symm.trans (exactAll_whole.mp hexact _ (List.mem_singleton_self _))

end Fact

end Conform
