import Conform.Proofs.Judging
import Conform.Proofs.Visiting

/-!
# What verdicts depend on

The verdict of a stateless fact on a value (`Fact.verdict?`) depends only on what the value leads to and on the cells
of the fact. A store that has the same objects there tells the same verdict (`Fact.verdict?_of_image`).
-/

namespace Conform

namespace Store.Image

variable {R : Set Place} {s t : Store} {x y : Value} {ys : List Value}

/-- Stores with the same objects in a region, and the same attributes, are alike there. -/
theorem of_sameGiven (hR : s.Region R) (ho : s.Owned) (hsame : ∀ l, Place.object l ∈ R → t.get? l = s.get? l)
    (hgiven : ∀ a name, t.given? a name = s.given? a name) : Image ⟨id, id⟩ R True s t where
  closed := hR.closed
  marks := fun _ => rfl
  get := by
    intro l hl
    obtain ⟨o, hget⟩ := exists_get? (hR.bounded l hl)
    refine ⟨o, hget, ?_⟩
    rw [Object.move_id, ← hget]
    exact hsame l hl
  inj := fun _ _ _ _ heq => heq
  owned := ho
  given := by
    intro _ a _ name
    rw [hgiven, Option.map_congr (g := id) fun v _ => Value.move_id v, Option.map_id, id_eq]

theorem equal?_same (h : Image ⟨id, id⟩ R True s t) (hx : x.Within R) (hy : y.Within R) :
    t.equal? x y = s.equal? x y := by
  have hmove := h.equal?_move x y hx.refers hy.refers
  rwa [Value.move_id, Value.move_id] at hmove

theorem isIn?_same (h : Image ⟨id, id⟩ R True s t) (hx : x.Within R) (hys : ∀ y ∈ ys, y.Within R) :
    t.isIn? x ys = s.isIn? x ys := by
  have hmove := h.isIn?_move hx.refers fun y hy => (hys y hy).refers
  rwa [Value.move_id, List.map_congr_left fun y _ => Value.move_id y, List.map_id'] at hmove

theorem view_same (h : Image ⟨id, id⟩ R True s t) (hx : x.Within R) : t.view x = s.view x := by
  have hmove := h.view_eq hx.refers
  rwa [Value.move_id] at hmove

end Store.Image

namespace Fact

section

variable {s t : Store} {f g : Fact} {fs : List Fact} {v x : Value} {b : Bool}

/-- Whether the cell of a node holds in the second store what it holds in the first, which lies in a set of places, as
does the key of the node's accessor. -/
structure Stays (R : Set Place) (s t : Store) (n : Fact) : Prop where
  slots : t.slots n.cell = s.slots n.cell
  within : ∀ y ∈ s.slots n.cell, y.Within R
  reads : ∀ a ∈ n.accessor?, a.ReadsIn R

variable {R : Set Place}

namespace Stays

variable {n : Fact}

theorem slot (h : Stays R s t n) (i : Nat) : t.slot n.cell i = s.slot n.cell i ∧ (s.slot n.cell i).Within R :=
  ⟨by rw [Store.slot, Store.slot, h.slots], Value.within_getD h.within⟩

theorem isIn? (h : Stays R s t n) (himage : Store.Image ⟨id, id⟩ R True s t) (hv : v.Within R) :
    t.isIn? v (t.slots n.cell) = s.isIn? v (s.slots n.cell) := by
  rw [h.slots]
  exact himage.isIn?_same hv h.within

theorem equal? (h : Stays R s t n) (himage : Store.Image ⟨id, id⟩ R True s t) (hv : v.Within R) :
    t.equal? v (t.slot n.cell 0) = s.equal? v (s.slot n.cell 0) := by
  rw [(h.slot 0).1]
  exact himage.equal?_same hv (h.slot 0).2

theorem within? (h : Stays R s t n) (himage : Store.Image ⟨id, id⟩ R True s t) (hv : v.Within R) :
    within? t n.cell v = Fact.within? s n.cell v := by
  rw [Fact.within?, Fact.within?, (h.slot 0).1, (h.slot 1).1, himage.view_same (h.slot 0).2,
    himage.view_same (h.slot 1).2, himage.view_same hv]

end Stays

/-- Whether the nodes that several facts can lead to stay. -/
def StayAll (R : Set Place) (s t : Store) (fs : List Fact) : Prop := ∀ n ∈ everyNodeAll fs, Stays R s t n

mutual

/-- A verdict depends only on what the value leads to and on the cells of the fact. -/
theorem verdict?_of_image (himage : Store.Image ⟨id, id⟩ R True s t) : ∀ {f : Fact},
    (∀ n ∈ f.everyNode, Stays R s t n) → ∀ {v : Value}, v.Within R → f.verdict? t v = f.verdict? s v
  | .always _, _, v, _ | .never _ _, _, v, _ | .counter _, _, v, _ | .distinct _ _ _, _, v, _
  | .foreign _ _, _, v, _ => rfl
  | .equality c equal g n, hf, v, hv =>
    congrArg (Option.map (· == equal)) ((hf _ (self_mem_everyNode _)).equal? himage hv)
  | .membership c, hf, v, hv | .choice c none b, hf, v, hv => (hf _ (self_mem_everyNode _)).isIn? himage hv
  | .range c inside, hf, v, hv =>
    congrArg (fun o => some (o == some inside)) ((hf _ (self_mem_everyNode _)).within? himage hv)
  | .pair c equal g n, _, v, hv => by
    rw [verdict?, verdict?, himage.elements?_same hv]
    split
    · next x y hxy =>
      have hitems := Store.elements?_within himage.closed hv hxy
      rw [himage.equal?_same (hitems x (by simp)) (hitems y (by simp))]
    · rfl
  | .all c fs n b, hf, v, hv => verdictAll?_of_image himage (fun k hk => hf k (everyNode_of_parts hk)) hv
  | .either c f g b, hf, v, hv => by
    have hleft := verdict?_of_image himage (f := f) (fun k hk => hf k (everyNode_of_part List.mem_cons_self hk)) hv
    have hright := verdict?_of_image himage (f := g)
      (fun k hk => hf k (everyNode_of_part (List.mem_cons_of_mem _ List.mem_cons_self) hk)) hv
    rw [verdict?, verdict?, hleft, hright]
  | .negation c f n b, hf, v, hv => congrArg (Option.map not)
    (verdict?_of_image himage (f := f) (fun k hk => hf k (everyNode_of_part List.mem_cons_self hk)) hv)
  | .labeled c name f b, hf, v, hv =>
    verdict?_of_image himage (f := f) (fun k hk => hf k (everyNode_of_part List.mem_cons_self hk)) hv
  | .lens c a f b, hf, v, hv => by
    have hpart := fun k hk => hf k (everyNode_of_part List.mem_cons_self hk)
    have ha := (hf _ (self_mem_everyNode _)).reads a rfl
    simp only [verdict?, himage.get_same ha hv]
    split
    · next x hx => exact verdict?_of_image himage (f := f) hpart (ha.within himage.closed himage.owned hv hx)
    · rfl
  | .prism c a f b, hf, v, hv => by
    have hpart := fun k hk => hf k (everyNode_of_part List.mem_cons_self hk)
    have ha := (hf _ (self_mem_everyNode _)).reads a rfl
    simp only [verdict?, himage.get_same ha hv]
    split
    · next x hx => rw [verdict?_of_image himage (f := f) hpart (ha.within himage.closed himage.owned hv hx)]
    · rfl
  | .each c f b, hf, v, hv => by
    have hpart := fun k hk => hf k (everyNode_of_part List.mem_cons_self hk)
    rw [verdict?, verdict?, himage.elements?_same hv]
    refine Option.bind_congr fun xs hxs => every_congr fun x hx => ?_
    exact verdict?_of_image himage (f := f) hpart (Store.elements?_within himage.closed hv hxs x hx)
  | .length c n g, _, v, hv => by rw [verdict?, verdict?, himage.elements?_same hv]
  | .mapped c name tests fs f, hf, v, hv => by
    have hlast := verdict?_of_image himage (f := f) (fun k hk => hf k (everyNode_of_last hk)) hv
    rw [verdict?, verdict?, himage.view_same hv, hlast]
    exact verdictPick?_of_image himage (fun k hk => hf k (everyNode_of_picked hk)) hv
  | .predicate c name test, _, v, hv | .brute c name test g n, _, v, hv => by
    rw [verdict?, verdict?, himage.view_same hv]
  | .choice c (some f) b, hf, v, hv => by
    have hfound : t.isIn? v (t.slots c) = s.isIn? v (s.slots c) := (hf _ (self_mem_everyNode _)).isIn? himage hv
    have hpart := verdict?_of_image himage (f := f) (fun k hk => hf k (everyNode_of_part List.mem_cons_self hk)) hv
    rw [verdict?, verdict?, hfound, hpart]

theorem verdictAll?_of_image (himage : Store.Image ⟨id, id⟩ R True s t) : ∀ {fs : List Fact},
    StayAll R s t fs → ∀ {v : Value}, v.Within R → verdictAll? t fs v = verdictAll? s fs v
  | [], _, _, _ => rfl
  | f :: fs, hf, v, hv => by
    have hhead := verdict?_of_image himage (f := f) (fun k hk => hf k (everyNodeAll_cons.mpr (.inl hk))) hv
    have htail : verdictAll? t fs v = verdictAll? s fs v :=
      verdictAll?_of_image himage (fun k hk => hf k (everyNodeAll_cons.mpr (.inr hk))) hv
    rw [verdictAll?, verdictAll?, hhead, htail]

theorem verdictPick?_of_image (himage : Store.Image ⟨id, id⟩ R True s t) : ∀ {fs : List Fact},
    StayAll R s t fs → ∀ {v : Value}, v.Within R → ∀ {d : Data} {tests : List (Data → Bool)}
      {last : Option Bool}, verdictPick? t d tests fs last v = verdictPick? s d tests fs last v
  | [], _, v, _, d, tests, last => by cases tests <;> rfl
  | f :: fs, _, v, _, d, [], last => rfl
  | f :: fs, hf, v, hv, d, test :: tests, last => by
    have hhead := verdict?_of_image himage (f := f) (fun k hk => hf k (everyNodeAll_cons.mpr (.inl hk))) hv
    have htail : verdictPick? t d tests fs last v = verdictPick? s d tests fs last v :=
      verdictPick?_of_image himage (fun k hk => hf k (everyNodeAll_cons.mpr (.inr hk))) hv
    rw [verdictPick?, verdictPick?, hhead, htail]

end

end

end Fact

end Conform
