import Conform.Proofs.Tallying

/-!
# Running the members of a conjunction

Members under different texts of an object lead to different objects, so they run one after the other as if each were
alone (`Fact.advances_runAll`). Members that are followed as a whole may be about anything
(`Fact.advances_runAll_whole`).
-/

namespace Conform

open Act

namespace Fact

variable {ns fs : List Fact} {p : Bool} {f : Fact} {s t u : Store} {X Y Z : Set Loc} {v : Value} {w : World} {l : Loc}
  {run : Fact → Value → Act Value}

theorem exec_runAll_cons : exec (runAll run (f :: fs) v) w = exec (do runAll run fs (← run f v)) w := by
  rw [runAll, List.foldlM_cons]
  rfl

/-! ## Under different texts -/

section

variable (h : Poised ns true (f :: fs) (.ref l) s X) (hsuited : Suited ns true (f :: fs)) (hap : Apiece (f :: fs))

include h hsuited hap

/-- After the first member has run, the others are as poised as before. -/
theorem Poised.after_first (hadv : Advanced ns true [f] (.ref l) s X t Y) :
    UnmovedAll true fs (.ref l) s t ∧ Poised ns true fs (.ref l) t Y ∧ Advanced ns true (f :: fs) (.ref l) s X t Y := by
  have hkeys := List.forall_mem_cons.mp hap.some
  have hlike : Resembles [f] l s t :=
    hadv.resembles rfl (fun g hg => List.mem_singleton.mp hg ▸ hkeys.1) l rfl
  have hroot : ∀ m ∈ trail s true [f] (.ref l), m ∈ trail s true fs (.ref l) → m = l := fun m hm hm' =>
    (Value.ref.inj ((h.rests.laid rfl).2.2 m (mem_trail_singleton.mp hm).2 hm'.2)).symm
  have hun : UnmovedAll true fs (.ref l) s t := by
    refine hlike.unmoved h.guarded.whole.owned hadv.poised.guarded.whole.owned (hsuited.tail.followed.tracked rfl)
      hkeys.2 (fun g hg f' hf' => ?_) (h.rests.laid rfl).2.1 fun m hm hne => ?_
    · rw [List.mem_singleton.mp hf']
      exact (List.pairwise_cons.mp hap.differ).1 g hg
    · refine hadv.frame m (h.tail.rests.guarded ⟨rfl, hm⟩) (fun hmem => hne (hroot m hmem ⟨rfl, hm⟩)) fun hheld => ?_
      exact h.tail.free m ⟨rfl, hm⟩ (heldBy_mono hsuited.head.cells hheld)
  have hrest : Poised ns true fs (.ref l) t Y := h.tail.of_unmoved hun hadv.poised.guarded hadv.poised.stocked
    hadv.grown hadv.size fun m hm => hadv.heldBy (fun _ hn => hn) hm
  refine ⟨hun, hrest, hadv.grown, hadv.size, hadv.poised.cons hrest fun m hm hm' => ?_, fun m hm hnot hheld => ?_,
    hadv.held, fun m hm => ?_, fun _ _ m hm => ?_⟩
  · rw [hun.trail] at hm'
    rw [hroot m (hadv.trail m hm) hm']
  · refine hadv.frame m hm (fun hmem => hnot (mem_trail_cons.mpr (.inl hmem))) fun hmem =>
      hheld (heldBy_mono (fun n hn => ?_) hmem)
    rw [nodesAll, nodesAll, List.append_nil] at hn
    exact List.mem_append_left _ hn
  · refine mem_trail_cons.mpr ((mem_trail_cons.mp hm).imp (hadv.trail m) fun hm => ?_)
    rwa [hun.trail] at hm
  · cases hm
    exact hlike.mono (by simp)

/-- After the others have run as well, what the first member has led to is still there. -/
theorem Poised.after_rest (hfirst : Advanced ns true [f] (.ref l) s X t Y)
    (hrest : Advanced ns true fs (.ref l) t Y u Z) :
    UnmovedAll true [f] (.ref l) t u ∧ Advanced ns true (f :: fs) (.ref l) s X u Z := by
  obtain ⟨hun, hpoised, hadv⟩ := h.after_first hsuited hap hfirst
  have hkeys := List.forall_mem_cons.mp hap.some
  have hlike : Resembles fs l t u := hrest.resembles rfl hkeys.2 l rfl
  have hroot : ∀ m ∈ trail t true [f] (.ref l), m ∈ trail t true fs (.ref l) → m = l := fun m hm hm' => by
    rw [hun.trail] at hm'
    have hfront := (mem_trail_singleton.mp (hfirst.trail m hm)).2
    exact (Value.ref.inj ((h.rests.laid rfl).2.2 m hfront hm'.2)).symm
  have hunFirst : UnmovedAll true [f] (.ref l) t u := by
    refine hlike.unmoved hfirst.poised.guarded.whole.owned hrest.poised.guarded.whole.owned
      (hsuited.head.followed.tracked rfl) (fun g hg => List.mem_singleton.mp hg ▸ hkeys.1) (fun f' hf' g hg => ?_)
      (hfirst.poised.rests.laid rfl) fun m hm hne => ?_
    · rw [List.mem_singleton.mp hf']
      exact fun heq => (List.pairwise_cons.mp hap.differ).1 g hg heq.symm
    · refine hrest.frame m (hfirst.poised.rests.guarded ⟨rfl, hm⟩) (fun hmem => hne (hroot m ⟨rfl, hm⟩ hmem))
        fun hheld => ?_
      exact hfirst.poised.free m ⟨rfl, hm⟩ (heldBy_mono hsuited.tail.cells hheld)
  have hfirst' : Poised ns true [f] (.ref l) u Z := hfirst.poised.of_unmoved hunFirst hrest.poised.guarded
    hrest.poised.stocked hrest.grown hrest.size fun m hm => hrest.heldBy (fun _ hn => hn) hm
  have hboth : Poised ns true (f :: fs) (.ref l) u Z := hfirst'.cons hrest.poised fun m hm hm' => by
    rw [hunFirst.trail] at hm
    rw [hroot m hm (hrest.trail m hm')]
  refine ⟨hunFirst, hfirst.grown.trans hrest.grown hfirst.size, Nat.le_trans hfirst.size hrest.size, hboth,
    fun m hm hnot hheld => ?_, fun n hn m hm => ?_, fun m hm => ?_, fun _ _ m hm => ?_⟩
  · refine (hrest.frame m (hfirst.grown.old hm) (fun hmem => ?_) fun hmem => ?_).trans (hadv.frame m hm hnot hheld)
    · rw [hun.trail] at hmem
      exact hnot (mem_trail_cons.mpr (.inr hmem))
    · rcases hfirst.heldBy hsuited.tail.cells hmem with hmem | hle
      · exact hheld (heldBy_mono (fun n hn => List.mem_append_right _ hn) hmem)
      · exact Nat.not_lt.mpr hle (h.guarded.bounded m hm)
  · rcases hrest.held n hn m hm with hm | hle
    · exact hfirst.held n hn m hm
    · exact .inr (Nat.le_trans hfirst.size hle)
  · refine mem_trail_cons.mpr ((mem_trail_cons.mp hm).imp (fun hm => ?_) fun hm => ?_)
    · rw [hunFirst.trail] at hm
      exact hfirst.trail m hm
    · rw [← hun.trail]
      exact hrest.trail m hm
  · cases hm
    exact (hadv.resembles rfl hap.some l rfl).trans (hlike.mono fun g hg => by simp [hg])

end

/-- Members under different texts of an object run one after the other. -/
theorem advances_runAll : ∀ {fs : List Fact} {w : World} {X : Set Loc}, Suited ns true fs → Apiece fs →
    (∀ f ∈ fs, Advances ns true [f] (.ref l) (run f (.ref l))) → Poised ns true fs (.ref l) w.store X →
    AdvancesIn ns true fs (.ref l) (runAll run fs (.ref l)) w X := by
  intro fs
  induction fs with
  | nil =>
    intro w X _ _ _ h
    refine ⟨X, h.advanced, ?_⟩
    rintro y ⟨⟩
    exact ⟨h, fun _ hl => hl, fun _ _ _ _ => rfl, fun _ => ⟨id, id⟩, fun _ _ _ _ => .none⟩
  | cons f fs ih =>
    intro w X hsuited hap hrun h
    have hkeys := List.forall_mem_cons.mp hap.some
    have hrest : Apiece fs := ⟨hkeys.2, (List.pairwise_cons.mp hap.differ).2⟩
    obtain ⟨Y, hadv, hans⟩ := hrun f List.mem_cons_self w X h.head
    obtain ⟨hun, hpoised, hfirst⟩ := h.after_first hsuited hap hadv
    unfold AdvancesIn
    rw [exec_runAll_cons, exec_bind]
    rcases hfirstRun : exec (run f (.ref l)) w with ⟨e | y, u⟩
    · rw [hfirstRun] at hfirst
      exact ⟨Y, hfirst, fun _ hz => by cases hz⟩
    · rw [hfirstRun] at hadv hans hpoised hun
      cases (hans y rfl).same rfl (fun g hg => List.mem_singleton.mp hg ▸ hkeys.1) l rfl
      obtain ⟨Z, hadvRest, hansRest⟩ := ih hsuited.tail hrest (fun g hg => hrun g (by simp [hg])) hpoised
      obtain ⟨hunFirst, hall⟩ := h.after_rest hsuited hap hadv hadvRest
      refine ⟨Z, hall, fun z hz => ?_⟩
      have hanswer := hansRest z hz
      cases hanswer.same rfl hkeys.2 l rfl
      refine ⟨hall.poised, hall.trail, fun _ _ _ _ => rfl, fun _ => ⟨id, id⟩, fun n hn k hk => ?_⟩
      have hnoted := (hans _ rfl).noted n hn k hk
      have hseen := hunFirst.noticed n.cell
      simp only [noticed, if_true, watchedAll_singleton] at hseen hnoted
      rw [← hseen] at hnoted
      rw [noticed, if_pos rfl, watchedAll]
      exact (hnoted.mono ExactAll.head).append ((hanswer.noted n hn k hk).mono ExactAll.tail)

/-! ## As a whole -/

/-- Members that are followed as a whole run one after the other. -/
theorem advances_runAll_whole : ∀ {fs : List Fact} {v : Value}, Suited ns false fs →
    (∀ f ∈ fs, ∀ x, Advances ns false [f] x (run f x)) → Advances ns false fs v (runAll run fs v) := by
  intro fs
  induction fs with
  | nil =>
    intro v _ _ w X h
    refine ⟨X, h.advanced, ?_⟩
    rintro y ⟨⟩
    exact h.answered fun _ _ _ _ => .none
  | cons f fs ih =>
    intro v hsuited hrun w X h
    have hhead : ∀ n ∈ nodesAll [f], n ∈ nodesAll (f :: fs) := fun n hn => by
      rw [nodesAll, nodesAll, List.append_nil] at hn
      exact List.mem_append_left _ hn
    have htail : ∀ n ∈ nodesAll fs, n ∈ nodesAll (f :: fs) := fun n hn => List.mem_append_right _ hn
    obtain ⟨Y, hadv, hans⟩ := hrun f List.mem_cons_self v w X h.head
    unfold AdvancesIn
    rw [exec_runAll_cons, exec_bind]
    rcases hfirstRun : exec (run f v) w with ⟨e | y, u⟩
    · rw [hfirstRun] at hadv
      exact ⟨Y, .whole_trans h hadv hadv.poised.advanced hhead hhead hsuited.cells, fun _ hz => by cases hz⟩
    · rw [hfirstRun] at hadv hans
      have hy := (hans y rfl).poised
      obtain ⟨Z, hadvRest, hansRest⟩ := ih hsuited.tail (fun g hg => hrun g (by simp [hg])) u Y
        (hy.whole hy.guarded.beside (hy.rests.clear rfl))
      refine ⟨Z, .whole_trans h hadv hadvRest hhead htail hsuited.cells, fun z hz => ?_⟩
      have hanswer := hansRest z hz
      have hz' := hanswer.poised
      refine (hz'.whole hz'.guarded.beside (rests_whole.mp hz'.rests)).answered fun n hn k hk => ?_
      have hnoted := hsuited.head.noting_false (t := (exec (runAll run fs y) u).2.store) (y := z)
        hadv.poised.stocked hn hk ((hans y rfl).noted n hn k hk)
      have hrest := hanswer.noted n hn k hk
      simp only [noticed, Bool.false_eq_true, if_false, rateAll_singleton] at hnoted hrest ⊢
      rw [rateAll, List.replicate_add]
      exact (hnoted.mono ExactAll.head).append (hrest.mono ExactAll.tail)

end Fact

end Conform
