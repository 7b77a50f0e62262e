import Conform.Proofs.Descending
import Conform.Proofs.Refilling

/-!
# Mutating every element

A fact about every element of a tuple or a list runs on the elements one after the other. No object leads to what it
sees of two of them, so each run leaves the other elements alone (`Fact.AdvancedEach.others`), and each element is run
as if it were alone (`Fact.advances_mutateElements`). The answers are put into the list, or make a new tuple
(`Fact.advances_each`).
-/

namespace Conform

open Act

namespace Fact

variable {ns : List Fact} {p : Bool} {f : Fact} {s t : Store} {X Y Z : Set Loc} {v x y z : Value}
  {xs ys : List Value} {w : World} {c l : Loc} {b : Bool} {step : Value → Act Value}

/-- What is poised elsewhere is left so, and facts see the same parts of it. -/
theorem AdvancedEach.others (h : AdvancedEach ns p f xs s X t Y) (hsuited : Suited ns p [f])
    (hz : Poised ns p [f] z s X) (hapart : ∀ x ∈ xs, ∀ l ∈ Fact.trail s p [f] z, l ∉ Fact.trail s p [f] x) :
    Poised ns p [f] z t Y ∧ UnmovedAll p [f] z s t := by
  refine hz.framed hsuited h.guarded h.stocked h.grown h.size (fun l hl => h.heldBy (fun _ hn => hn) hl) fun l hl => ?_
  exact h.frame l (hz.rests.guarded hl) (fun x hx => hapart x hx l hl) fun hheld =>
    hz.free l hl (heldBy_mono hsuited.cells hheld)

/-! ## One after the other -/

/-- What the first of several values leaves of them all. -/
theorem AdvancedEach.first (h : Advanced ns p [f] x s X t Y)
    (hothers : ∀ z ∈ xs, Poised ns p [f] z t Y ∧ UnmovedAll p [f] z s t) : AdvancedEach ns p f (x :: xs) s X t Y where
  grown := h.grown
  size := h.size
  guarded := h.poised.guarded
  stocked := h.poised.stocked
  frame := fun l hl hnot => h.frame l hl (hnot x (by simp))
  held := h.held
  poised := fun z hz => by
    rcases List.mem_cons.mp hz with rfl | hz
    · exact h.poised
    · exact (hothers z hz).1
  trail := fun z hz l hl => by
    rcases List.mem_cons.mp hz with rfl | hz
    · exact h.trail l hl
    · exact (hothers z hz).2.trail ▸ hl

/-- What the others leave after the first is left of them all. -/
theorem AdvancedEach.cons {u : Store} (h : Advanced ns p [f] x s X t Y) (hsuited : Suited ns p [f])
    (hothers : ∀ z ∈ xs, UnmovedAll p [f] z s t) (hrest : AdvancedEach ns p f xs t Y u Z)
    (hx : Poised ns p [f] x u Z ∧ UnmovedAll p [f] x t u) (hg : s.Guarded X) :
    AdvancedEach ns p f (x :: xs) s X u Z where
  grown := h.grown.trans hrest.grown h.size
  size := Nat.le_trans h.size hrest.size
  guarded := hrest.guarded
  stocked := hrest.stocked
  frame := fun l hl hnot hheld => by
    refine (hrest.frame l (h.grown.old hl) (fun z hz hmem => ?_) fun hmem => ?_).trans
      (h.frame l hl (hnot x (by simp)) hheld)
    · rw [(hothers z hz).trail] at hmem
      exact hnot z (by simp [hz]) hmem
    · rcases h.heldBy hsuited.cells hmem with hmem | hle
      · exact hheld hmem
      · exact Nat.not_lt.mpr hle (hg.bounded l hl)
  held := fun n hn l hl => by
    rcases hrest.held n hn l hl with hl | hle
    · exact h.held n hn l hl
    · exact .inr (Nat.le_trans h.size hle)
  poised := fun z hz => by
    rcases List.mem_cons.mp hz with rfl | hz
    · exact hx.1
    · exact hrest.poised z hz
  trail := fun z hz l hl => by
    rcases List.mem_cons.mp hz with rfl | hz
    · exact h.trail l (hx.2.trail ▸ hl)
    · exact (hothers z hz).trail ▸ hrest.trail z hz l hl

/-- Values to which no common object leads are run one after the other as if each were alone. -/
theorem advances_mutateElements (hsuited : Suited ns p [f]) (hstep : ∀ x, Advances ns p [f] x (step x)) :
    ∀ {xs : List Value} {i : Nat} {w : World} {X : Set Loc}, w.store.Guarded X → Stocked w.store X ns →
      (∀ x ∈ xs, Poised ns p [f] x w.store X) →
      (xs.Pairwise fun x y => ∀ l ∈ trail w.store p [f] x, l ∉ trail w.store p [f] y) →
      ∃ Y, AdvancedEach ns p f xs w.store X (exec (mutateElements step i xs) w).2.store Y ∧
        ∀ ys, (exec (mutateElements step i xs) w).1 = .ok ys →
          AnsweredEach ns p f xs w.store (exec (mutateElements step i xs) w).2.store Y ys := by
  intro xs
  induction xs with
  | nil =>
    intro i w X hg hst _ _
    refine ⟨X, ⟨.refl, Nat.le_refl _, hg, hst, fun _ _ _ _ => rfl, fun _ _ _ hl => .inl hl, List.forall_mem_nil _,
      List.forall_mem_nil _⟩, ?_⟩
    rintro ys ⟨⟩
    exact ⟨.nil, fun _ _ _ _ => .none⟩
  | cons x xs ih =>
    intro i w X hg hst hpoised hapart
    obtain ⟨hfirst, hapart⟩ := List.pairwise_cons.mp hapart
    obtain ⟨Y, hadv, hans⟩ := hstep x w X (hpoised x (by simp))
    have hothers : ∀ z ∈ xs, Poised ns p [f] z (exec (step x) w).2.store Y ∧
        UnmovedAll p [f] z w.store (exec (step x) w).2.store := fun z hz =>
      hadv.each.others hsuited (hpoised z (by simp [hz])) fun x' hx' l hl hl' =>
        hfirst z hz l (List.mem_singleton.mp hx' ▸ hl') hl
    rw [mutateElements, exec_bind, exec_mapFault]
    rcases hrun : exec (step x) w with ⟨e | y, u⟩
    · rw [hrun] at hadv hothers
      exact ⟨Y, .first hadv hothers, fun _ hys => by cases hys⟩
    rw [hrun] at hadv hans hothers
    obtain ⟨Z, hrest, hanswers⟩ := ih (i := i + 1) hadv.poised.guarded hadv.poised.stocked
      (fun z hz => (hothers z hz).1) (hapart.imp_of_mem fun {z z'} hz hz' hne => by
        rw [(hothers z hz).2.trail, (hothers z' hz').2.trail]
        exact hne)
    have hanswer := hans y rfl
    -- what the first run has answered, and what it was run on, is left alone by the other runs
    have hkeep : ∀ z', Poised ns p [f] z' u.store Y → (∀ l ∈ trail u.store p [f] z', l ∈ trail w.store p [f] x) →
        Poised ns p [f] z' (exec (mutateElements step (i + 1) xs) u).2.store Z ∧
          UnmovedAll p [f] z' u.store (exec (mutateElements step (i + 1) xs) u).2.store := fun z' hz' htrail =>
      hrest.others hsuited hz' fun z hz l hl hl' => by
        rw [(hothers z hz).2.trail] at hl'
        exact hfirst z hz l (htrail l hl) hl'
    obtain ⟨hy, hyun⟩ := hkeep y hanswer.poised hanswer.trail
    have hall := AdvancedEach.cons hadv hsuited (fun z hz => (hothers z hz).2) hrest (hkeep x hadv.poised hadv.trail) hg
    dsimp only
    rw [exec_bind]
    rcases hothersRun : exec (mutateElements step (i + 1) xs) u with ⟨e | ys, u'⟩
    · rw [hothersRun] at hall
      exact ⟨Z, hall, fun _ hys => by cases hys⟩
    · rw [hothersRun] at hall hanswers hy hyun
      refine ⟨Z, hall, ?_⟩
      rintro _ ⟨⟩
      obtain ⟨heach, hnoted⟩ := hanswers ys rfl
      refine ⟨.cons ⟨hy, fun l hl => hanswer.trail l (hyun.trail ▸ hl), hanswer.present⟩ ?_, fun n hn k hk => ?_⟩
      · refine ((List.forall₂_and_left _ _).mpr ⟨fun z hz => hz, heach⟩).imp ?_
        rintro z y' ⟨hz, hy'⟩
        exact ⟨hy'.poised, fun l hl => (hothers z hz).2.trail ▸ hy'.trail l hl, hy'.present⟩
      · have hnote := hanswer.noted n hn k hk
        rw [← hyun.noticed] at hnote
        rw [List.flatMap_cons]
        exact hnote.append (hnoted n hn k hk)

/-! ## Putting elements in -/

theorem row?_sequence (h : s.row? v = some xs) : s.Sequence v xs := by
  unfold Store.row? at h
  split at h
  · cases h
    exact .tuple
  · split at h
    · cases h
      exact .list ‹_›
    · cases h
  · cases h

/-- A tuple or a list whose elements have been replaced has the new ones. -/
theorem refitted_each (hw : s.Whole) (hv : v.bound ≤ s.size) (hys : Value.boundAll ys ≤ s.size)
    (hrow : s.row? v = some xs) (h : s.Rebuilt v ys z t) : Refitted (.each c f b) f s v ys t z := by
  cases h with
  | @list l zs items hget =>
    have hnew := Store.get?_put_same (o := .list ys) (Store.lt_size_of_get? hget)
    have hnewRow : (s.put l (.list ys)).row? (.ref l) = some ys := by simp only [Store.row?, hnew]
    refine ⟨hw.put hys, Store.size_put, rfl, fun m hm => Store.get?_put_of_ne ?_, fun _ => Iff.rfl,
      fun c hc => (by cases hc), ?_, ?_, ?_, .inl ?_, fun hkey => by cases hkey⟩
    · rintro rfl
      exact hm rfl
    · rw [Store.size_put]
      exact hv
    · rintro m o ⟨⟩ ho
      rw [hnew] at ho
      cases ho
      trivial
    · exact Option.isSome_iff_exists.mpr ⟨ys, hnewRow⟩
    · rw [pieces, hnewRow, Option.getD_some]
  | tuple | named _ =>
    refine ⟨hw, rfl, rfl, fun _ _ => rfl, fun l => ?_, fun c hc => ?_, hys, fun l o hl => ?_, rfl, .inl rfl,
      fun hkey => ?_⟩
    · simp only [reduceCtorEq]
    · cases hc
    · cases hl
    · cases hkey
  | text _ | bytes _ => cases hrow

/-- A fact about every element runs what is below it on the elements, and puts what that answers in. -/
theorem advances_each (hsuited : Suited ns true [.each c f b])
    (hstep : ∀ x, Advances ns f.piecewise [f] x (step x)) :
    Advances ns true [.each c f b] v (do (Fact.each c f b).rebuild v (← mutateElements step 0 (← elements v))) := by
  intro w X h
  have hover : Over (.each c f b) f := .each
  have hparts := h.parts hover
  obtain ⟨xs, hrow⟩ := Option.isSome_iff_exists.mp hparts.divides
  have hpieces : (Fact.each c f b).pieces w.store v = xs := by rw [pieces, hrow, Option.getD_some]
  have hsequence := row?_sequence hrow
  have hbounds : ∀ x ∈ xs, x.bound ≤ w.store.size :=
    Value.boundAll_le.mp (Store.elements?_bound h.guarded.whole h.bounded hsequence.elements?)
  obtain ⟨Y, hadv, hans⟩ := advances_mutateElements (i := 0) (hsuited.inner hover) hstep h.guarded h.stocked
    (fun x hx => h.inner hover (hpieces ▸ hx) (hbounds x hx)) (hpieces ▸ hparts.apart)
  unfold AdvancesIn
  rw [exec_bind, exec_elements_sequence hsequence]
  dsimp only
  rw [exec_bind]
  rcases hrun : exec (mutateElements step 0 xs) w with ⟨e | ys, u⟩
  · rw [hrun] at hadv
    exact ⟨Y, (h.over_advanced hsuited hover (hpieces ▸ hadv)).1, fun _ hz => by cases hz⟩
  rw [hrun] at hadv hans
  have hanswers := hans ys rfl
  obtain ⟨hstep, -, hsame⟩ := h.over_advanced hsuited hover (hpieces ▸ hadv)
  have hrow' : u.store.row? v = some xs := (row?_same hsame).trans hrow
  dsimp only
  by_cases hadmits : v.Admits ys
  · obtain ⟨z, t, hrebuild, hrebuilt⟩ := exec_rebuild_of_admits (.each c f b) (row?_sequence hrow') hadmits
    rw [hrebuild]
    have hys : Value.boundAll ys ≤ u.store.size := Value.boundAll_le.mpr fun y hy => by
      obtain ⟨x, -, hxy⟩ := forall₂_exists_left hanswers.each hy
      exact hxy.poised.bounded
    have hfit : Refitted (.each c f b) f u.store v ys t z :=
      refitted_each hadv.guarded.whole hstep.poised.bounded hys hrow' hrebuilt
    obtain ⟨hstored, hnew⟩ := h.refitted hsuited hover (hpieces ▸ hadv) (hpieces ▸ hanswers) hfit
    refine ⟨Y, hstored, ?_⟩
    rintro _ ⟨⟩
    exact hnew
  · obtain ⟨hworld, hok⟩ : (exec ((Fact.each c f b).rebuild v ys) u).2 = u ∧
        ∀ y, (exec ((Fact.each c f b).rebuild v ys) u).1 ≠ .ok y := by
      obtain ⟨reason, hreason⟩ := Store.rebuild_of_not_admits (row?_sequence hrow') hadmits
      simp only [rebuild, exec_bind, exec_get, hreason, exec_written]
      exact ⟨quiet_giveUp u, fun y => giveUp_ne_ok⟩
    rw [hworld]
    exact ⟨Y, hstep, fun y hy => absurd hy (hok y)⟩

end Fact

end Conform
