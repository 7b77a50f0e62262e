import Conform.Fact.Mutate
import Conform.Proofs.Sound

/-!
# Mutating leaves no dangling reference

Copying and mutating keep a store whole, and the value that mutation answers leads to objects only. The proof
goes through the functions that mutation is made of, as for `Arena.runs_mutate`.
-/

namespace Conform

open Act
open Conform.Fact

variable {n : Nat}

/-! ## Copies -/

theorem sound_copyAll {fs : List Fact} (h : SteadyAll fs) :
    Sound n (copyAll fs) fun _ gs => SteadyAll gs := by
  intro w hw _
  refine ⟨⟨?_, hw.copy _⟩, ?_⟩
  · show w.store.size ≤ (w.store.copy (cellsAll fs)).2.size
    rw [Store.size_copy]
    exact Nat.le_add_right _ _
  · rintro gs ⟨⟩
    exact h.move

theorem sound_copy {f : Fact} (h : f.Steady) : Sound n f.copy fun _ g => g.Steady := by
  intro w hw _
  refine ⟨⟨?_, hw.copy _⟩, ?_⟩
  · show w.store.size ≤ (w.store.copy f.cells).2.size
    rw [Store.size_copy]
    exact Nat.le_add_right _ _
  · rintro g ⟨⟩
    exact h.move

theorem sound_probe {f : Fact} (h : f.Steady) : Sound n f.probe fun _ g => g.Steady := by
  unfold probe
  split
  · exact sound_copy h
  · exact sound_pure fun _ _ => h

theorem sound_commitCells {targets sources : List Loc} :
    Sound n (commitCells targets sources) Anything := by
  have hpairs : ∀ (ps : List (Loc × Loc)) (n : Nat),
      Sound n (ps.forM fun p => do Act.put p.1 (.slots (← Act.ask (·.slots p.2)))) Anything := by
    intro ps
    induction ps with
    | nil =>
      intro n
      exact sound_pure fun _ _ => trivial
    | cons p ps ih =>
      intro n
      refine Sound.bind (P := Anything) ?_ fun m _ _ _ => ih m
      exact sound_slots.bind fun m vs _ hvs => sound_put hvs
  exact hpairs _ n

/-! ## Searching -/

theorem sound_giveUp {α : Type} {P : Nat → α → Prop} {f : Fact} {reason : String}
    {last : Option Report} : Sound n (f.giveUp reason last : Act α) P :=
  sound_described.bind fun _ _ _ _ => sound_throw

theorem sound_drawUntil {accept : Value → Act Bool} {draw : Value → Act Value} :
    ∀ {k n : Nat} {v : Value},
      (∀ v m, n ≤ m → v.bound ≤ m → Sound m (accept v) Anything) →
      (∀ v m, n ≤ m → v.bound ≤ m → Sound m (draw v) Bounded) → v.bound ≤ n →
      Sound n (Search.drawUntil accept draw k v) fun m o => ∀ w, o = some w → w.bound ≤ m := by
  intro k
  induction k with
  | zero =>
    intro n v _ _ _
    exact sound_pure fun _ _ => nofun
  | succ k ih =>
    intro n v haccept hdraw hv
    refine (hdraw v n (Nat.le_refl _) hv).bind fun m w hm hw => ?_
    refine (haccept w m hm hw).bind fun j ok hj _ => ?_
    have hw' : w.bound ≤ j := Nat.le_trans hw hj
    have hle : n ≤ j := Nat.le_trans hm hj
    split
    · refine sound_pure fun i hi x hx => ?_
      cases hx
      exact Nat.le_trans hw' hi
    · exact ih (fun x i hi => haccept x i (Nat.le_trans hle hi))
        (fun x i hi => hdraw x i (Nat.le_trans hle hi)) hw'

theorem sound_search {accept : Value → Act Bool} {draw : Value → Act Value}
    (haccept : ∀ v m, n ≤ m → v.bound ≤ m → Sound m (accept v) Anything)
    (hdraw : ∀ v m, n ≤ m → v.bound ≤ m → Sound m (draw v) Bounded) {k : Nat} {v : Value}
    (hv : v.bound ≤ n) :
    Sound n (Search.run accept draw k v) fun m o => ∀ w, o = some w → w.bound ≤ m := by
  refine (haccept v n (Nat.le_refl _) hv).bind fun m ok hm _ => ?_
  split
  · refine sound_pure fun i hi x hx => ?_
    cases hx
    exact Nat.le_trans hv (Nat.le_trans hm hi)
  · exact sound_drawUntil (fun x i hi => haccept x i (Nat.le_trans hm hi))
      (fun x i hi => hdraw x i (Nat.le_trans hm hi)) (Nat.le_trans hv hm)

theorem sound_drawLike {f : Fact} {template : Value} (h : template.bound ≤ n) :
    Sound n (f.drawLike template) Bounded := by
  refine (sound_arbitrary h).tryCatch fun m e _ => ?_
  split
  · exact sound_giveUp
  · exact sound_throw

theorem sound_drawCandidate {f : Fact} {g : Option Generator} {template : Value}
    (h : template.bound ≤ n) : Sound n (f.drawCandidate g template) Bounded := by
  cases g with
  | none => exact sound_drawLike h
  | some g => exact sound_draw

theorem sound_scan {f : Fact} (h : f.Steady) : ∀ {vs : List Value} {k n : Nat},
    Value.boundAll vs ≤ n → Sound n (f.scan k vs) Bounded := by
  intro vs
  induction vs with
  | nil =>
    intro k n _
    exact sound_giveUp
  | cons v vs ih =>
    intro k n hvs
    rw [Value.boundAll_cons] at hvs
    refine (sound_probe h).bind fun m p hm hp => ?_
    refine (sound_check hp (show v.bound ≤ m by omega)).bind fun j r hj _ => ?_
    split
    · refine sound_described.bind fun i _ hi _ => sound_log.bind fun i' _ hi' _ => ?_
      refine sound_pure fun i'' hi'' => ?_
      show v.bound ≤ i''
      omega
    · exact ih (by omega)

/-! ## Leaves -/

theorem sound_differs {v w : Value} : Sound n (do return !(← Act.equal v w)) Anything :=
  sound_equal.bind fun _ _ _ _ => sound_pure fun _ _ => trivial

theorem sound_mutateDifferent {f : Fact} {c : Loc} {g : Option Generator} {k : Int} {v : Value}
    (hv : v.bound ≤ n) : Sound n (mutateDifferent f c g k v) Bounded := by
  refine sound_slot.bind fun m value hm hvalue => ?_
  refine (sound_search (fun _ _ _ _ => sound_differs) (fun _ j hj _ => sound_drawCandidate ?_)
    (Nat.le_trans hv hm)).bind fun j o _ ho => ?_
  · exact Nat.le_trans hvalue hj
  · split
    · next w => exact sound_pure fun i hi => Nat.le_trans (ho w rfl) hi
    · exact sound_render.bind fun _ _ _ _ => sound_giveUp

theorem sound_mutateMembership {f : Fact} {c : Loc} {v : Value} (hv : v.bound ≤ n) :
    Sound n (mutateMembership f c v) Bounded := by
  refine sound_slots.bind fun m options hm ho => sound_isIn.bind fun j found hj _ => ?_
  split
  · refine sound_pure fun i hi => ?_
    show v.bound ≤ i
    omega
  · split
    · exact sound_giveUp.bind fun _ _ _ (h : False) => h.elim
    · refine sound_choose fun i hi x hx => ?_
      exact Nat.le_trans (Value.bound_le_boundAll hx) (Nat.le_trans ho (Nat.le_trans hj hi))

theorem sound_difference {a b : Value} : Sound n (difference a b) Unbound := by
  refine sound_view.bind fun _ da _ _ => sound_view.bind fun _ db _ _ => ?_
  split
  · exact sound_inRange.bind fun _ _ _ _ => sound_number
  · exact sound_misuse

theorem sound_readFloating {t : String} : Sound n (readFloating t) Unbound := by
  unfold readFloating
  split
  · exact sound_number
  · exact sound_misuse

theorem sound_toFloating {v : Value} (hv : v.bound ≤ n) : Sound n (toFloating v) Bounded := by
  refine sound_view.bind fun m d hm _ => ?_
  split
  · exact sound_readFloating.bounded
  · split
    · exact sound_readFloating.bounded
    · exact sound_misuse
  · exact sound_pure fun k hk => Nat.le_trans hv (Nat.le_trans hm hk)
  · split
    · exact sound_inRange.bind fun _ _ _ _ => sound_pure fun _ _ => Nat.zero_le _
    · exact sound_misuse

/-- That both ends of an answer are bounded by the size of the store. -/
def BoundedEnds (m : Nat) (p : Value × Value) : Prop := p.1.bound ≤ m ∧ p.2.bound ≤ m

theorem sound_fillEnds {low high : Value} {floating : Bool} (hl : low.bound ≤ n)
    (hh : high.bound ≤ n) : Sound n (fillEnds low high floating) BoundedEnds := by
  have hbound : ∀ (x : Binary64) (k : Int) (m : Nat),
      (if floating then Value.atom (.float x) else .int k).bound ≤ m := by
    intro x k m
    split <;> exact Nat.zero_le _
  unfold fillEnds
  dsimp only
  split
  · exact sound_pure fun m _ => ⟨hbound _ _ m, hbound _ _ m⟩
  · split
    · exact sound_difference.bounded.bind fun m x hm hx => sound_pure fun k hk =>
        ⟨Nat.le_trans hx hk, Nat.le_trans hh (Nat.le_trans hm hk)⟩
    · split
      · exact sound_sum.bounded.bind fun m x hm hx => sound_pure fun k hk =>
          ⟨Nat.le_trans hl (Nat.le_trans hm hk), Nat.le_trans hx hk⟩
      · exact sound_pure fun m hm => ⟨Nat.le_trans hl hm, Nat.le_trans hh hm⟩

theorem sound_drawBetween {ends : Value × Value} {floating : Bool} (h : BoundedEnds n ends) :
    Sound n (drawBetween ends floating) Bounded := by
  unfold drawBetween
  split
  · refine (sound_toFloating h.1).bind fun m low hm hlow => ?_
    refine (sound_toFloating (Nat.le_trans h.2 hm)).bind fun k high hk _ => ?_
    exact sound_floatInRange (Nat.le_trans hlow hk)
  · exact sound_intInRange h.1

theorem sound_anyFloat {vs : List Value} : Sound n (anyFloat vs) Anything :=
  sound_look.bind fun _ _ _ _ => sound_pure fun _ _ => trivial

theorem sound_mutateInside {f : Fact} {c : Loc} {v : Value} (hv : v.bound ≤ n) :
    Sound n (mutateInside f c v) Bounded := by
  refine sound_slot.bind fun m low hm hlow => sound_slot.bind fun k high hk hhigh => ?_
  have hlow' : low.bound ≤ k := Nat.le_trans hlow hk
  have hv' : v.bound ≤ k := Nat.le_trans hv (Nat.le_trans hm hk)
  have hrest : ∀ j, k ≤ j → Sound j (do
      if (← checkRange c true v).ok then return v
      let floating ← anyFloat [low, high, v]
      drawBetween (← fillEnds low high floating) floating) Bounded := by
    intro j hj
    refine sound_checkRange.bind fun i r hi _ => ?_
    have hki := Nat.le_trans hj hi
    split
    · exact sound_pure fun i' hi' => Nat.le_trans hv' (Nat.le_trans hki hi')
    · refine sound_anyFloat.bind fun i' floating hi' _ => ?_
      refine (sound_fillEnds (Nat.le_trans hlow' ?_) (Nat.le_trans hhigh ?_)).bind ?_
      · exact Nat.le_trans hki hi'
      · exact Nat.le_trans hki hi'
      · exact fun _ ends _ he => sound_drawBetween he
  split
  · refine sound_view.bind fun i dh hi _ => sound_view.bind fun j dl hj _ => ?_
    split
    · exact (sound_misuse (P := fun _ _ => False)).bind fun _ _ _ h => h.elim
    · refine sound_look.bind fun _ t _ _ => sound_written.bind fun _ t _ _ => ?_
      exact sound_giveUp.bind fun _ _ _ (h : False) => h.elim
    · exact hrest j (Nat.le_trans hi hj)
  · exact hrest k (Nat.le_refl _)

theorem sound_stepOut {bound : Value} {floating up : Bool} :
    Sound n (stepOut bound floating up) Unbound := by
  unfold stepOut
  split
  · refine sound_view.bind fun _ d _ _ => ?_
    split
    · exact sound_inRange.bind fun _ x _ _ => sound_number
    · exact sound_misuse
  · split
    · exact sound_sum
    · exact sound_difference

theorem sound_drawBeside (f : Fact) {floating : Bool} (sides : List (Value × Value))
    (hs : ∀ p ∈ sides, p.1.bound = 0 ∧ p.2.bound = 0) : Sound n (do
      if sides.isEmpty then f.giveUp "nothing lies outside an unbounded range" none
      let (low, high) ← Draw.choose sides
      drawBetween (← fillEnds low high floating) floating) Bounded := by
  dsimp only
  split
  · exact sound_giveUp.bind fun _ _ _ (h : False) => h.elim
  · refine (sound_choose fun _ _ p hp => hs p hp).bind fun i p _ hp => ?_
    refine (sound_fillEnds (hp.1 ▸ Nat.zero_le _) (hp.2 ▸ Nat.zero_le _)).bind ?_
    exact fun _ ends _ he => sound_drawBetween he

theorem sound_mutateOutside {f : Fact} {c : Loc} {v : Value} (hv : v.bound ≤ n) :
    Sound n (mutateOutside f c v) Bounded := by
  refine sound_checkRange.bind fun m r hm _ => ?_
  split
  · exact sound_pure fun k hk => Nat.le_trans hv (Nat.le_trans hm hk)
  · refine sound_slot.bind fun _ low _ _ => sound_slot.bind fun _ high _ _ => ?_
    refine sound_anyFloat.bind fun k floating _ _ => ?_
    -- four ways of leaving room below and above; with none, the choice among no sides is given up
    dsimp only
    split <;> split
    · exact sound_drawBeside f [] (List.forall_mem_nil _)
    · refine sound_stepOut.bind fun _ y _ (hy : y.bound = 0) => sound_drawBeside f [(y, Value.null)] ?_
      simpa using hy
    · refine sound_stepOut.bind fun _ x _ (hx : x.bound = 0) => sound_drawBeside f [(Value.null, x)] ?_
      simpa using hx
    · refine sound_stepOut.bind fun _ x _ (hx : x.bound = 0) => ?_
      refine sound_stepOut.bind fun _ y _ (hy : y.bound = 0) => ?_
      refine sound_drawBeside f [(Value.null, x), (y, Value.null)] ?_
      simpa using ⟨hx, hy⟩

theorem sound_withFirst {v a b : Value} (hv : v.bound ≤ n) (ha : a.bound ≤ n) (hb : b.bound ≤ n) :
    Sound n (withFirst v a b) Bounded := by
  have hpair : ∀ (cls : Option TupleClass) (m : Nat), n ≤ m → (Value.tuple cls [a, b]).bound ≤ m := by
    intro cls m hm
    simp only [Value.bound_tuple, Value.boundAll_cons, Value.boundAll_nil]
    omega
  unfold withFirst
  split
  · next l =>
    have hget : Sound n (Act.ask (·.get? l)) fun m o => ∀ o', o = some o' → o'.bound ≤ m :=
      sound_ask fun s hs _ o' ho' => hs.object ho'
    refine hget.bind fun m o hm ho => ?_
    split
    · next x rest =>
      have hrest : Value.boundAll (x :: rest) ≤ m := ho _ rfl
      have hnew : (Object.list (a :: rest)).bound ≤ m := by
        rw [Value.boundAll_cons] at hrest
        simp only [Object.bound, Object.values, Value.boundAll_cons]
        omega
      exact (sound_put hnew).bind fun k _ hk _ => sound_pure fun j hj =>
        Nat.le_trans hv (Nat.le_trans hm (Nat.le_trans hk hj))
    · exact sound_pure fun k hk => hpair _ k (Nat.le_trans hm hk)
  · exact sound_pure (hpair _)
  · exact sound_pure (hpair _)

theorem sound_mutatePair {f : Fact} {equal : Bool} {g : Option Generator} {k : Int} {v : Value}
    (hv : v.bound ≤ n) : Sound n (mutatePair f equal g k v) Bounded := by
  refine (sound_items hv).bind fun m p hm hp => ?_
  obtain ⟨a, b⟩ := p
  have hb : b.bound ≤ m := hp.2
  dsimp only
  split
  · exact sound_withFirst (Nat.le_trans hv hm) hb hb
  · refine (sound_search (fun _ _ _ _ => sound_differs) (fun _ j hj _ => sound_drawCandidate ?_)
      hp.1).bind fun j o hj ho => ?_
    · exact Nat.le_trans hb hj
    · split
      · next x => exact sound_withFirst (Nat.le_trans hv (Nat.le_trans hm hj)) (ho x rfl) (Nat.le_trans hb hj)
      · exact sound_render.bind fun _ _ _ _ => sound_giveUp

theorem sound_mutateDistinct {f : Fact} {c : Loc} {g : Option Generator} {k : Int} {v : Value}
    (hv : v.bound ≤ n) : Sound n (mutateDistinct f c g k v) Bounded := by
  have hunseen : ∀ (w : Value) (m : Nat),
      Sound m (do return !(← Act.isIn w (← seen c))) Anything := fun w m =>
    sound_seen.bind fun _ vs _ _ => sound_isIn.bind fun _ _ _ _ => sound_pure fun _ _ => trivial
  refine (sound_search (fun w m _ _ => hunseen w m) (fun w m _ hw => sound_drawCandidate hw) hv).bind ?_
  intro m o _ ho
  split
  · next w =>
    exact (sound_remember (ho w rfl)).bind fun j _ hj _ => sound_pure fun i hi =>
      Nat.le_trans (ho w rfl) (Nat.le_trans hj hi)
  · exact sound_giveUp

theorem sound_mutateBrute {f : Fact} {test : Data → Bool} {g : Option Generator} {k : Int} {v : Value}
    (hv : v.bound ≤ n) : Sound n (mutateBrute f test g k v) Bounded := by
  have hpasses : ∀ (w : Value) (m : Nat), Sound m (do return test (← Act.view w)) Anything := fun w m =>
    sound_view.bind fun _ _ _ _ => sound_pure fun _ _ => trivial
  refine (sound_search (fun w m _ _ => hpasses w m) (fun w m hm _ => sound_drawCandidate ?_) hv).bind ?_
  · exact Nat.le_trans hv hm
  · intro m o _ ho
    split
    · next w => exact sound_pure fun i hi => Nat.le_trans (ho w rfl) hi
    · exact sound_giveUp

theorem sound_rebuild {f : Fact} {v : Value} {xs : List Value} (hv : v.bound ≤ n)
    (hxs : Value.boundAll xs ≤ n) : Sound n (f.rebuild v xs) Bounded := by
  -- the store is set in the world that was read, so reading and setting are taken together
  intro w hw hn
  simp only [Fact.rebuild, exec_bind, exec_get]
  cases hr : w.store.rebuild v xs with
  | ok p =>
    obtain ⟨x, s⟩ := p
    obtain ⟨hsize, hs, hx⟩ := Store.rebuild_whole hw (Nat.le_trans hv hn) (Nat.le_trans hxs hn) hr
    refine ⟨⟨hsize, hs⟩, ?_⟩
    rintro y ⟨⟩
    exact hx
  | error reason =>
    have hgiveUp : Sound n (do f.giveUp (← Act.written reason) none : Act Value) Bounded :=
      sound_written.bind fun _ _ _ _ => sound_giveUp
    exact hgiveUp w hw hn

theorem sound_drawElement {f : Fact} {c : Loc} {g : Option Generator} {v : Value} (hv : v.bound ≤ n) :
    Sound n (f.drawElement c g v) Bounded := by
  unfold drawElement
  split
  · exact sound_draw
  · refine sound_slot.bind fun m like hm hlike => ?_
    split
    · next own =>
      have hletters : ∀ letters : String, Sound m (do
          if letters = "" then
            f.giveUp "cannot extend an empty str without `like` or `generate`" none
          Draw.choose (Store.characters letters)) Bounded := by
        intro letters
        split
        · exact sound_giveUp.bind fun _ _ _ (h : False) => h.elim
        · refine sound_choose fun k _ x hx => ?_
          obtain ⟨ch, -, rfl⟩ := List.mem_map.mp hx
          exact Nat.zero_le _
      exact hletters _
    · refine (sound_elements (Nat.le_trans hv hm)).bind fun k own hk hown => ?_
      have htemplate : ∀ template : Value, template.bound ≤ k → Sound k (do
          if template.isNull then
            f.giveUp "cannot extend an empty sequence without `like` or `generate`" none
          f.drawLike template) Bounded := by
        intro template ht
        split
        · exact sound_giveUp.bind fun _ _ _ (h : False) => h.elim
        · exact sound_drawLike ht
      refine htemplate _ ?_
      split
      · cases own with
        | nil => exact Nat.zero_le _
        | cons x xs => exact Nat.le_trans (Value.bound_le_boundAll (by simp)) hown
      · exact Nat.le_trans hlike hk

theorem sound_mutateLength {f : Fact} {c : Loc} {size : Int} {g : Option Generator} {v : Value}
    (hv : v.bound ≤ n) : Sound n (f.mutateLength c size g v) Bounded := by
  have hfirst : Sound n (Act.ask (·.firstElements? v size.toNat)) fun m o =>
      ∀ xs, o = some xs → Value.boundAll xs ≤ m :=
    sound_ask fun s hs hn xs h => Value.allWithin_upTo.mp
      (Store.firstElements?_within hs.closed (Value.within_upTo.mpr (Nat.le_trans hv hn)) h)
  refine hfirst.bind fun m o hm ho => ?_
  split
  · exact sound_misuse
  · next xs =>
    have hv' := Nat.le_trans hv hm
    refine (sound_mapValues fun _ _ j hj => sound_drawElement (Nat.le_trans hv' hj)).bind ?_
    intro j more hj hmore
    exact sound_rebuild (Nat.le_trans hv' hj)
      (Value.boundAll_append_le (Nat.le_trans (ho xs rfl) hj) hmore)

/-! ## Complements -/

theorem sound_twinCell {c : Loc} : Sound n (twinCell c) Anything :=
  sound_slots.bind fun _ _ _ hvs => (sound_alloc hvs).mono fun _ _ _ _ => trivial

theorem sound_emptyCell : Sound n emptyCell Anything :=
  (sound_alloc (Nat.zero_le _)).mono fun _ _ _ _ => trivial

theorem sound_relabel {name : String} {f : Fact} (h : f.Steady) :
    Sound n (relabel name f) fun _ g => g.Steady := by
  refine sound_emptyCell.bind fun _ d _ _ => ?_
  split
  · exact sound_pure fun _ _ => h
  · exact sound_pure fun _ _ => h

theorem sound_complement : ∀ {f : Fact} {n : Nat}, f.Steady →
    Sound n f.complement fun _ o => ∀ g, o = some g → g.Steady
  | .always _, _, _ => sound_emptyCell.bind fun _ d _ _ => sound_pure fun _ _ g hg => by cases hg; trivial
  | .never _ _, _, _ => sound_emptyCell.bind fun _ d _ _ => sound_pure fun _ _ g hg => by cases hg; trivial
  | .equality _ _ _ _, _, _ | .range _ _, _, _ =>
    sound_twinCell.bind fun _ d _ _ => sound_pure fun _ _ g hg => by cases hg; trivial
  | .pair _ _ _ _, _, _ =>
    sound_emptyCell.bind fun _ d _ _ => sound_pure fun _ _ g hg => by cases hg; trivial
  | .negation _ f _ _, _, h => sound_pure fun _ _ g hg => by cases hg; exact h
  | .lens _ _ f _, _, h => by
    refine (sound_complement h.2).bind fun _ o _ ho => ?_
    split
    · next g =>
      refine sound_emptyCell.bind fun _ d _ _ => sound_pure fun _ _ g' hg' => ?_
      cases hg'
      exact ⟨h.1, ho g rfl⟩
    · exact sound_pure fun _ _ => nofun
  | .labeled _ _ f _, _, h => by
    refine (sound_complement (f := f) h).bind fun _ o _ ho => ?_
    split
    · next g =>
      refine (sound_relabel (ho g rfl)).bind fun _ g' _ hg' => sound_pure fun _ _ g'' hg'' => ?_
      cases hg''
      exact hg'
    · exact sound_pure fun _ _ => nofun
  | .foreign _ _, _, h => h.elim
  | .membership _, _, _ | .counter _, _, _ | .distinct _ _ _, _, _ | .all _ _ _ _, _, _
  | .either _ _ _ _, _, _ | .prism _ _ _ _, _, _ | .each _ _ _, _, _ | .length _ _ _, _, _
  | .mapped _ _ _ _ _, _, _ | .predicate _ _ _, _, _ | .brute _ _ _ _ _, _, _
  | .choice _ _ _, _, _ => sound_pure fun _ _ => nofun

/-! ## Combinations -/

section

variable {run : Fact → Value → Act Value}
  (hrun : ∀ (f : Fact) (v : Value) (m : Nat), f.Steady → v.bound ≤ m → Sound m (run f v) Bounded)

include hrun in
theorem sound_runAll {fs : List Fact} {v : Value} (h : SteadyAll fs) (hv : v.bound ≤ n) :
    Sound n (runAll run fs v) Bounded :=
  sound_foldlM bounded_mono (fun f hf m x _ hx => hrun f x m (h.mem f hf) hx) hv

theorem sound_trial {b : Bool} {fs : List Fact} (h : SteadyAll fs) :
    Sound n (if b then copyAll fs else pure fs) fun _ gs => SteadyAll gs := by
  split
  · exact sound_copyAll h
  · exact sound_pure fun _ _ => h

include hrun in
theorem sound_fixpoint {fact : Fact} {fs : List Fact} {rounds : Int} (h : SteadyAll fs) :
    ∀ {left : Nat} {last : Report} {v : Value} {n : Nat}, v.bound ≤ n →
      Sound n (fixpoint run fact fs rounds left last v) Bounded := by
  intro left
  induction left with
  | zero =>
    intro last v n _
    exact sound_giveUp
  | succ left ih =>
    intro last v n hv
    have hround : ∀ (trial probes : List Fact) (v : Value) (m : Nat), v.bound ≤ m → SteadyAll probes →
        Sound m (do
          let last := Report.combine (← checkAll probes 0 v)
          if last.ok then
            if fact.stateful then commitCells (cellsAll fs) (cellsAll trial)
            return v
          Act.log .debug "factual.combinators"
            ((← fact.described) ++ ": round " ++ toString (rounds - left) ++ "/" ++ toString rounds ++
              " left " ++ toString last.size ++ " violation(s)")
          fixpoint run fact fs rounds left last v) Bounded := by
      intro trial probes v m hv hp
      refine (sound_checkAll hp hv).bind fun k rs hk _ => ?_
      have hvk := Nat.le_trans hv hk
      dsimp only
      split
      · split
        · exact sound_commitCells.bind fun j _ hj _ => sound_pure fun i hi =>
            Nat.le_trans hvk (Nat.le_trans hj hi)
        · exact sound_pure fun i hi => Nat.le_trans hvk hi
      · refine sound_described.bind fun j _ hj _ => sound_log.bind fun i _ hi _ => ih ?_
        exact Nat.le_trans hvk (Nat.le_trans hj hi)
    have htrial := fun m : Nat => sound_trial (n := m) (b := fact.stateful) h
    rw [fixpoint]
    by_cases hs : fact.stateful = true
    · simp only [hs, if_true] at htrial hround ⊢
      refine (htrial n).bind fun m trial hm ht => ?_
      refine (sound_runAll hrun ht (Nat.le_trans hv hm)).bind fun k w _ hw => ?_
      exact (htrial k).bind fun j probes hj hp => hround trial probes w j (Nat.le_trans hw hj) hp
    · simp only [hs] at hround ⊢
      exact (sound_runAll hrun h hv).bind fun k w _ hw => hround fs fs w k hw h

include hrun in
theorem sound_mutateEither {fact a b : Fact} {v : Value} (ha : a.Steady) (hb : b.Steady)
    (hv : v.bound ≤ n) : Sound n (mutateEither run fact a b v) Bounded := by
  have hsatisfies : ∀ (f : Fact) (m : Nat), f.Steady → v.bound ≤ m → Sound m (do
      let p ← if fact.stateful then f.copy else pure f
      return (← p.check v).ok) Anything := by
    intro f m hf hvm
    split
    · refine (sound_copy hf).bind fun k p hk hp => ?_
      exact (sound_check hp (Nat.le_trans hvm hk)).bind fun _ _ _ _ => sound_pure fun _ _ => trivial
    · exact (sound_check hf hvm).bind fun _ _ _ _ => sound_pure fun _ _ => trivial
  refine (hsatisfies a n ha hv).bind fun m x hm _ => ?_
  have hvm := Nat.le_trans hv hm
  split
  · exact sound_pure fun _ hk => Nat.le_trans hvm hk
  · refine (hsatisfies b m hb hvm).bind fun k y hk _ => ?_
    split
    · exact sound_pure fun _ hj => Nat.le_trans hvm (Nat.le_trans hk hj)
    · refine sound_boolean.bind fun j z hj _ => hrun _ v j ?_ (Nat.le_trans hvm (Nat.le_trans hk hj))
      split
      · exact ha
      · exact hb

include hrun in
theorem sound_violating {fact f p : Fact} {k : Int} {v : Value} (hf : f.Steady) (hp : p.Steady)
    (hv : v.bound ≤ n) : Sound n (do
      if !(← p.check v).ok then return v
      match ← f.complement with
      | some g => run g v
      | none =>
        let violates (w : Value) : Act Bool := do return !(← f.check w).ok
        match ← Search.drawUntil violates (fun _ => fact.drawLike v) (budget k) v with
        | some w => return w
        | none => fact.giveUp ("no value violating " ++ (← f.described) ++ drawsText k) none)
      Bounded := by
  have hviolates : ∀ (w : Value) (m : Nat), w.bound ≤ m →
      Sound m (do return !(← f.check w).ok) Anything := fun w m hw =>
    (sound_check hf hw).bind fun _ _ _ _ => sound_pure fun _ _ => trivial
  refine (sound_check hp hv).bind fun j r hj _ => ?_
  have hvj := Nat.le_trans hv hj
  split
  · exact sound_pure fun _ hi => Nat.le_trans hvj hi
  · refine (sound_complement hf).bind fun i o hi ho => ?_
    have hvi := Nat.le_trans hvj hi
    split
    · next g => exact hrun g v i (ho g rfl) hvi
    · refine (sound_drawUntil (fun w m _ hw => hviolates w m hw) (fun _ m hm _ => ?_) hvi).bind ?_
      · exact sound_drawLike (Nat.le_trans hvi hm)
      · intro i o _ ho
        split
        · next w => exact sound_pure fun _ hi => Nat.le_trans (ho w rfl) hi
        · exact sound_described.bind fun _ _ _ _ => sound_giveUp

include hrun in
theorem sound_mutateNegation {fact f : Fact} {k : Int} {v : Value} (hf : f.Steady)
    (hv : v.bound ≤ n) : Sound n (mutateNegation run fact f k v) Bounded := by
  unfold mutateNegation
  split
  · exact (sound_copy hf).bind fun m p hm hp => sound_violating hrun hf hp (Nat.le_trans hv hm)
  · exact sound_violating hrun hf hf hv

theorem sound_write {a : Accessor} {v part : Value} (ha : a.Sound) (hv : v.bound ≤ n)
    (hpart : part.bound ≤ n) : Sound n (a.write v part) Bounded := by
  intro w hw hn
  have hset := fun x s (h : a.set w.store v part = .ok (x, s)) =>
    Accessor.set_whole ha hw (Nat.le_trans hv hn) (Nat.le_trans hpart hn) h
  rw [exec_write]
  split
  · next x s h =>
    obtain ⟨hsize, hs, hx⟩ := hset x s h
    refine ⟨⟨hsize, hs⟩, ?_⟩
    rintro y ⟨⟩
    exact hx
  · exact ⟨⟨Nat.le_refl _, hw⟩, nofun⟩

theorem sound_mutateLens {step : Value → Act Value} {fact : Fact} {a : Accessor} {v : Value}
    (hstep : ∀ x m, n ≤ m → x.bound ≤ m → Sound m (step x) Bounded) (ha : a.Sound) (hv : v.bound ≤ n) :
    Sound n (mutateLens step fact a v) Bounded := by
  refine (sound_part? ha hv).bind fun m o hm ho => ?_
  split
  · exact sound_render.bind fun _ _ _ _ => sound_giveUp
  · next x =>
    refine (hstep x m hm (ho x rfl)).under.bind fun k y hk hy => ?_
    exact sound_write ha (Nat.le_trans hv (Nat.le_trans hm hk)) hy

theorem sound_mutatePrism {step : Value → Act Value} {a : Accessor} {v : Value}
    (hstep : ∀ x m, n ≤ m → x.bound ≤ m → Sound m (step x) Bounded) (ha : a.Sound) (hv : v.bound ≤ n) :
    Sound n (mutatePrism step a v) Bounded := by
  refine (sound_part? ha hv).bind fun m o hm ho => ?_
  split
  · exact sound_pure fun _ hk => Nat.le_trans hv (Nat.le_trans hm hk)
  · next x =>
    split
    · exact sound_pure fun _ hk => Nat.le_trans hv (Nat.le_trans hm hk)
    · refine (hstep x m hm (ho x rfl)).under.bind fun k y hk hy => ?_
      exact sound_write ha (Nat.le_trans hv (Nat.le_trans hm hk)) hy

theorem sound_mutateElements {step : Value → Act Value} : ∀ {xs : List Value} {i n : Nat},
    (∀ x m, n ≤ m → x.bound ≤ m → Sound m (step x) Bounded) → Value.boundAll xs ≤ n →
      Sound n (mutateElements step i xs) BoundedAll := by
  intro xs
  induction xs with
  | nil =>
    intro i n _ _
    exact sound_pure fun _ _ => Nat.zero_le _
  | cons x xs ih =>
    intro i n hstep hxs
    rw [Value.boundAll_cons] at hxs
    refine (hstep x n (Nat.le_refl _) (by omega)).under.bind fun m y hm hy => ?_
    refine (ih (fun x k hk => hstep x k (Nat.le_trans hm hk)) (by omega)).bind fun k ys hk hys => ?_
    refine sound_pure fun j hj => ?_
    have hy' : y.bound ≤ m := hy
    have hys' : Value.boundAll ys ≤ k := hys
    show Value.boundAll (y :: ys) ≤ j
    rw [Value.boundAll_cons]
    omega

include hrun in
theorem sound_mutateChoice {c : Loc} {f : Option Fact} {b : Bool} {v : Value}
    (h : (Fact.choice c f b).Steady) (hv : v.bound ≤ n) :
    Sound n (mutateChoice run (.choice c f b) c f v) Bounded := by
  refine (sound_probe h).bind fun m p hm hp => ?_
  refine (sound_check hp (Nat.le_trans hv hm)).bind fun k r hk _ => ?_
  have hvk := Nat.le_trans hv (Nat.le_trans hm hk)
  split
  · split
    · next g => exact hrun g v k h hvk
    · exact sound_pure fun _ hj => Nat.le_trans hvk hj
  · refine sound_slots.bind fun j vs _ hvs => ?_
    split
    · next g => exact (sound_scan (f := g) h hvs).bind fun i x _ hx => hrun g x i h hx
    · split
      · next x xs =>
        have hx : x.bound ≤ j := Nat.le_trans (Value.bound_le_boundAll (by simp)) hvs
        exact sound_pure fun _ hi => Nat.le_trans hx hi
      · exact sound_giveUp

theorem steady_pick {d : Data} {otherwise : Fact} : ∀ {tests : List (Data → Bool)} {fs : List Fact},
    SteadyAll fs → otherwise.Steady → (pick d otherwise tests fs).Steady := by
  intro tests
  induction tests with
  | nil =>
    intro fs _ ho
    exact ho
  | cons test tests ih =>
    intro fs h ho
    cases fs with
    | nil => exact ho
    | cons f fs =>
      rw [pick]
      split
      · exact h.1
      · exact ih h.2 ho

end

theorem sound_mutateWithin (levels : Nat) : ∀ (f : Fact) (v : Value) (n : Nat), f.Steady →
    v.bound ≤ n → Sound n (mutateWithin levels f v) Bounded := by
  induction levels with
  | zero =>
    intro f v n _ _
    exact sound_misuse
  | succ levels ih =>
    intro f v n h hv
    cases f with
    | always c => exact sound_pure fun _ hm => Nat.le_trans hv hm
    | never c reason => exact sound_giveUp
    | equality c equal g k =>
      cases equal with
      | true => exact sound_slot
      | false => exact sound_mutateDifferent hv
    | membership c => exact sound_mutateMembership hv
    | range c inside =>
      cases inside with
      | true => exact sound_mutateInside hv
      | false => exact sound_mutateOutside hv
    | pair c equal g k => exact sound_mutatePair hv
    | counter c => exact sound_takeNext
    | distinct c g k => exact sound_mutateDistinct hv
    | all c fs k b => exact sound_fixpoint ih h hv
    | either c a b s => exact sound_mutateEither ih h.1 h.2 hv
    | negation c f k b => exact sound_mutateNegation ih h hv
    | lens c a f b => exact sound_mutateLens (fun x m _ hx => ih f x m h.2 hx) h.1 hv
    | prism c a f b => exact sound_mutatePrism (fun x m _ hx => ih f x m h.2 hx) h.1 hv
    | each c f b =>
      refine (sound_elements hv).bind fun m xs hm hxs => ?_
      refine (sound_mutateElements (fun x k _ hx => ih f x k h hx) hxs).bind fun k ys hk hys => ?_
      exact sound_rebuild (Nat.le_trans hv (Nat.le_trans hm hk)) hys
    | length c k g => exact sound_mutateLength hv
    | mapped c name tests fs f =>
      refine sound_view.bind fun m d hm _ => ?_
      exact (ih _ v m (steady_pick h.1 h.2) (Nat.le_trans hv hm)).under
    | predicate c name test => exact sound_giveUp
    | brute c name test g k => exact sound_mutateBrute hv
    | choice c f b => exact sound_mutateChoice ih h hv
    | labeled c name f b => exact ih f v n h hv
    | foreign c kind => exact h.elim

/-- Mutating keeps a store whole and answers a value that leads to objects only. -/
theorem sound_mutate {f : Fact} {v : Value} (h : f.Steady) (hv : v.bound ≤ n) :
    Sound n (f.mutate v) Bounded :=
  sound_mutateWithin f.depth f v n h hv

end Conform
