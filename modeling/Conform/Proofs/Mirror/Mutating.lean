import Conform.Proofs.Mirror.Checking
import Conform.Proofs.Rounds
import Conform.Proofs.Satisfying

/-!
# Mutating in step

A fact whose cells are cells of a mirroring, and the same fact over the cells where these stand, mutate in
step (`agrees_mutate`). Copies that the two take of their parts are one and the same tree, over new cells,
which stand where they are; so a copy is a fact of the mirroring like any other. The proof goes through the
functions that mutation is made of, and then by the number of levels.
-/

namespace Conform

namespace Fact

variable {M : Mirroring} {m : Loc → Loc}

mutual

/-- A copy over cells of a mirroring is a fact of it. -/
theorem Lodged.move : ∀ {f : Fact}, f.Lodged M → (∀ c ∈ f.cells, m c ∈ M.cells) → (f.move m).Lodged M
  | .always _, _, hm | .never _ _, _, hm | .predicate _ _ _, _, hm | .pair _ _ _ _, _, hm
  | .brute _ _ _ _ _, _, hm | .membership _, _, hm | .range _ _, _, hm | .counter _, _, hm
  | .equality _ _ _ _, _, hm | .length _ _ _, _, hm | .distinct _ _ _, _, hm | .choice _ none _, _, hm =>
    hm _ (List.mem_singleton.mpr rfl)
  | .all _ _ _ _, h, hm =>
    ⟨hm _ List.mem_cons_self, h.2.move fun c hc => hm c (List.mem_cons_of_mem _ hc)⟩
  | .either _ _ _ _, h, hm =>
    ⟨hm _ List.mem_cons_self, h.2.1.move fun c hc => hm c (List.mem_cons_of_mem _ (List.mem_append_left _ hc)),
      h.2.2.move fun c hc => hm c (List.mem_cons_of_mem _ (List.mem_append_right _ hc))⟩
  | .negation _ _ _ _, h, hm | .each _ _ _, h, hm | .labeled _ _ _ _, h, hm | .choice _ (some _) _, h, hm =>
    ⟨hm _ List.mem_cons_self, h.2.move fun c hc => hm c (List.mem_cons_of_mem _ hc)⟩
  | .lens _ _ _ _, h, hm | .prism _ _ _ _, h, hm =>
    ⟨hm _ List.mem_cons_self, h.2.1, h.2.2.move fun c hc => hm c (List.mem_cons_of_mem _ hc)⟩
  | .mapped _ _ _ _ _, h, _ | .foreign _ _, h, _ => h.elim

theorem LodgedAll.move : ∀ {fs : List Fact}, LodgedAll M fs → (∀ c ∈ cellsAll fs, m c ∈ M.cells) →
    LodgedAll M (moveAll m fs)
  | [], _, _ => trivial
  | _ :: _, h, hm => ⟨h.1.move fun c hc => hm c (List.mem_append_left _ hc),
      h.2.move fun c hc => hm c (List.mem_append_right _ hc)⟩

end

/-- Whether a fact of one run is that of the other where its cells stand. -/
def Stands (M : Mirroring) (f g : Fact) : Prop := f = g.move M.place ∧ g.Lodged M

/-- The same of several facts. -/
def StandsAll (M : Mirroring) (fs gs : List Fact) : Prop := fs = moveAll M.place gs ∧ LodgedAll M gs

end Fact

namespace Mirroring

open Conform.Fact

variable {M : Mirroring} {s t : Store} {c : Loc} {f fact : Fact} {fs : List Fact} {v : Value} {xs : List Value}

/-! ## Copies -/

/-- A copy puts what it copies at the same new places in both stores, which hold values. -/
theorem Holds.copied (h : M.Holds s t) {roots : List Loc} (hroots : ∀ c ∈ roots, c ∈ M.cells) (hc : c ∈ roots) :
    (s.copy (roots.map M.place)).1.place (M.place c) = (t.copy roots).1.place c ∧
      Place.object ((t.copy roots).1.place c) ∈ M.values := by
  by_cases hlt : c < t.size
  · have hmem := Store.mem_reachable_root hc hlt
    exact ⟨h.copy_place hroots (hroots c hc) (.inl hmem), h.fresh _ (Store.size_le_copy_place hmem)⟩
  · have hvalue := h.fresh c (Nat.not_lt.mp hlt)
    refine ⟨h.copy_place hroots (hroots c hc) (.inr (M.own c hvalue).2), ?_⟩
    rwa [Store.copy_place_of_not_mem fun hmem => hlt (Store.lt_of_mem_reachable hmem)]

theorem relates_copyCells {cs : List Loc} (hcs : ∀ c ∈ cs, c ∈ M.cells) :
    M.Relates (Act.onStore fun s => s.copy (cs.map M.place)) (Act.onStore fun s => s.copy cs)
      fun r r' => ∀ c ∈ cs, r.place (M.place c) = r'.place c ∧ Place.object (r'.place c) ∈ M.values :=
  relates_onStore fun _ _ h => ⟨fun _ hc => h.copied hcs hc, h.copy hcs⟩

/-- Copies of facts over different cells are the same trees, over new cells. -/
theorem relates_copyAll (h : LodgedAll M fs) :
    M.Relates (copyAll (moveAll M.place fs)) (copyAll fs) (StandsAll M) := by
  unfold copyAll
  rw [cellsAll_move]
  refine (relates_copyCells h.cells).bind fun r r' hr => relates_pure ⟨?_, ?_⟩
  · rw [moveAll_moveAll, moveAll_moveAll]
    refine moveAll_congr fun c hc => ?_
    rw [Function.comp_apply, Function.comp_apply, (hr c hc).1, (M.own _ (hr c hc).2).2]
  · exact h.move fun c hc => (M.own _ (hr c hc).2).1

theorem relates_copy (h : f.Lodged M) : M.Relates (f.move M.place).copy f.copy (Stands M) := by
  unfold copy
  rw [cells_move]
  refine (relates_copyCells h.cells).bind fun r r' hr => relates_pure ⟨?_, ?_⟩
  · rw [move_move, move_move]
    refine move_congr fun c hc => ?_
    rw [Function.comp_apply, Function.comp_apply, (hr c hc).1, (M.own _ (hr c hc).2).2]
  · exact h.move fun c hc => (M.own _ (hr c hc).2).1

/-- Going on with a copy where one is taken, and otherwise with the fact itself. -/
theorem relates_copyIf {α β : Type} {P : α → β → Prop} {b : Bool} {k : Fact → Act α} {k' : Fact → Act β}
    (h : f.Lodged M) (hk : ∀ p q, Stands M p q → M.Relates (k p) (k' q) P) :
    M.Relates (if b then (f.move M.place).copy >>= k else pure (f.move M.place) >>= k)
      (if b then f.copy >>= k' else pure f >>= k') P := by
  cases b with
  | true => exact (relates_copy h).bind hk
  | false => exact Relates.bind (relates_pure ⟨rfl, h⟩) hk

theorem relates_probe (h : f.Lodged M) : M.Relates (f.move M.place).probe f.probe (Stands M) := by
  unfold probe
  rw [stateful_move]
  split
  · exact relates_copy h
  · exact relates_pure ⟨rfl, h⟩

theorem agrees_commitCells : ∀ {cs ds : List Loc}, (∀ c ∈ cs, c ∈ M.cells) → (∀ d ∈ ds, d ∈ M.cells) →
    M.Agrees (commitCells (cs.map M.place) (ds.map M.place)) (commitCells cs ds) fun _ => True := by
  intro cs
  induction cs with
  | nil =>
    intro ds _ _
    exact agrees_pure trivial
  | cons c cs ih =>
    intro ds hcs hds
    cases ds with
    | nil => exact agrees_pure trivial
    | cons d ds =>
      have hput := (agrees_slots (hds d (by simp))).bind fun vs hvs => agrees_put (hcs c (by simp)) hvs
      exact Agrees.bind hput fun _ _ => ih (fun c' hc => hcs c' (by simp [hc])) fun d' hd => hds d' (by simp [hd])

theorem agrees_checkStanding {g : Fact} (h : Stands M f g) (hv : v.Within M.values) :
    M.Agrees (f.check v) (g.check v) fun _ => True := by
  obtain ⟨rfl, hg⟩ := h
  exact agrees_check hg hv

/-! ## Searching -/

section

variable {accept accept' : Value → Act Bool} {draw draw' : Value → Act Value}

theorem agrees_drawUntil
    (haccept : ∀ v, v.Within M.values → M.Agrees (accept v) (accept' v) fun _ => True)
    (hdraw : ∀ v, v.Within M.values → M.Agrees (draw v) (draw' v) (Value.Within M.values)) :
    ∀ {k : Nat} {v : Value}, v.Within M.values →
      M.Agrees (Search.drawUntil accept draw k v) (Search.drawUntil accept' draw' k v)
        fun o => ∀ w, o = some w → w.Within M.values := by
  intro k
  induction k with
  | zero =>
    intro v _
    exact agrees_pure nofun
  | succ k ih =>
    intro v hv
    refine (hdraw v hv).bind fun w hw => (haccept w hw).bind fun ok _ => ?_
    split
    · refine agrees_pure ?_
      rintro x ⟨⟩
      exact hw
    · exact ih hw

theorem agrees_search
    (haccept : ∀ v, v.Within M.values → M.Agrees (accept v) (accept' v) fun _ => True)
    (hdraw : ∀ v, v.Within M.values → M.Agrees (draw v) (draw' v) (Value.Within M.values)) {k : Nat}
    (hv : v.Within M.values) :
    M.Agrees (Search.run accept draw k v) (Search.run accept' draw' k v)
      fun o => ∀ w, o = some w → w.Within M.values := by
  refine (haccept v hv).bind fun ok _ => ?_
  split
  · refine agrees_pure ?_
    rintro x ⟨⟩
    exact hv
  · exact agrees_drawUntil haccept hdraw hv

end

theorem agrees_drawLike (hf : f.Lodged M) (hv : v.Within M.values) :
    M.Agrees ((f.move M.place).drawLike v) (f.drawLike v) (Value.Within M.values) := by
  refine (agrees_arbitrary hv).tryCatch fun e => ?_
  split
  · exact relates_giveUp hf
  · exact relates_throw

theorem agrees_drawCandidate {g : Option Generator} (hf : f.Lodged M) (hv : v.Within M.values) :
    M.Agrees ((f.move M.place).drawCandidate g v) (f.drawCandidate g v) (Value.Within M.values) := by
  cases g with
  | none => exact agrees_drawLike hf hv
  | some g => exact agrees_draw

theorem agrees_scan (hf : f.Lodged M) : ∀ {xs : List Value} {n : Nat}, (∀ x ∈ xs, x.Within M.values) →
    M.Agrees ((f.move M.place).scan n xs) (f.scan n xs) (Value.Within M.values) := by
  intro xs
  induction xs with
  | nil =>
    intro n _
    exact relates_giveUp hf
  | cons x xs ih =>
    intro n hxs
    have hx := hxs x (by simp)
    refine (relates_probe hf).bind fun p q hp => (agrees_checkStanding hp hx).bind fun r _ => ?_
    split
    · exact (agrees_described hf).bind fun _ _ => agrees_log.bind fun _ _ => agrees_pure hx
    · exact ih fun y hy => hxs y (by simp [hy])

/-! ## Leaves -/

theorem agrees_differs {w : Value} (hw : w.Within M.values) : ∀ v : Value, v.Within M.values →
    M.Agrees (do return !(← Act.equal v w)) (do return !(← Act.equal v w)) fun _ => True := fun _ hv =>
  (agrees_equal hv hw).bind fun _ _ => agrees_pure trivial

theorem agrees_mutateDifferent {g : Option Generator} {n : Int} (hf : f.Lodged M) (hc : c ∈ M.cells)
    (hv : v.Within M.values) : M.Agrees (mutateDifferent (f.move M.place) (M.place c) g n v)
      (mutateDifferent f c g n v) (Value.Within M.values) := by
  refine (agrees_slot hc).bind fun value hvalue => ?_
  refine (agrees_search (agrees_differs hvalue) (fun _ _ => agrees_drawCandidate hf hvalue) hv).bind fun o ho => ?_
  cases o with
  | some w => exact agrees_pure (ho w rfl)
  | none => exact (agrees_render hvalue).bind fun _ _ => relates_giveUp hf

theorem agrees_mutateMembership (hf : f.Lodged M) (hc : c ∈ M.cells) (hv : v.Within M.values) :
    M.Agrees (mutateMembership (f.move M.place) (M.place c) v) (mutateMembership f c v)
      (Value.Within M.values) := by
  refine (agrees_slots hc).bind fun options ho => (agrees_isIn hv ho).bind fun found _ => ?_
  split
  · exact agrees_pure hv
  · dsimp only
    split
    · exact relates_giveUp_bind hf
    · exact agrees_choose ho

theorem agrees_difference {a b : Value} (ha : a.Within M.values) (hb : b.Within M.values) :
    M.Agrees (difference a b) (difference a b) fun v => ∀ R, v.Within R := by
  refine (agrees_view ha).bind fun da _ => (agrees_view hb).bind fun db _ => ?_
  split
  · exact agrees_inRange.bind fun _ _ => agrees_number
  · exact relates_misuse

theorem agrees_readFloating {t : String} :
    M.Agrees (readFloating t) (readFloating t) fun v => ∀ R, v.Within R := by
  unfold readFloating
  split
  · exact agrees_number
  · exact relates_misuse

theorem agrees_toFloating (hv : v.Within M.values) :
    M.Agrees (toFloating v) (toFloating v) (Value.Within M.values) := by
  have hread (t : String) : M.Agrees (readFloating t) (readFloating t) (Value.Within M.values) :=
    agrees_readFloating.mono fun _ _ h => ⟨h.1, h.2 _⟩
  refine (agrees_view hv).bind fun d _ => ?_
  split
  · exact hread _
  · split
    · exact hread _
    · exact relates_misuse
  · exact agrees_pure hv
  · split
    · exact agrees_inRange.bind fun _ _ => agrees_pure Value.within_float
    · exact relates_misuse

theorem agrees_fillEnds {low high : Value} {floating : Bool} (hl : low.Within M.values)
    (hh : high.Within M.values) : M.Agrees (fillEnds low high floating) (fillEnds low high floating)
      fun p => p.1.Within M.values ∧ p.2.Within M.values := by
  have hbound : ∀ (x : Binary64) (n : Int),
      (if floating then Value.atom (.float x) else .int n).Within M.values := by
    intro x n
    split
    · exact Value.within_float
    · exact Value.within_int
  unfold fillEnds
  dsimp only
  split
  · exact agrees_pure ⟨hbound _ _, hbound _ _⟩
  · split
    · exact (agrees_difference hh (hbound _ _)).bind fun x hx => agrees_pure ⟨hx _, hh⟩
    · split
      · exact (agrees_sum hl (hbound _ _)).bind fun x hx => agrees_pure ⟨hl, hx _⟩
      · exact agrees_pure ⟨hl, hh⟩

theorem agrees_drawBetween {ends : Value × Value} {floating : Bool}
    (hends : ends.1.Within M.values ∧ ends.2.Within M.values) :
    M.Agrees (drawBetween ends floating) (drawBetween ends floating) (Value.Within M.values) := by
  unfold drawBetween
  split
  · exact (agrees_toFloating hends.1).bind fun low hlow => (agrees_toFloating hends.2).bind fun high hhigh =>
      agrees_floatInRange hlow hhigh
  · exact agrees_intInRange hends.1 hends.2

theorem agrees_anyFloat (hxs : ∀ x ∈ xs, x.Within M.values) :
    M.Agrees (anyFloat xs) (anyFloat xs) fun _ => True :=
  (agrees_viewAll hxs).bind fun _ _ => agrees_pure trivial

/-- A number between two ends, once they have been filled in. -/
theorem agrees_drawFilled {low high : Value} {floating : Bool} (hl : low.Within M.values)
    (hh : high.Within M.values) : M.Agrees (do drawBetween (← fillEnds low high floating) floating)
      (do drawBetween (← fillEnds low high floating) floating) (Value.Within M.values) :=
  (agrees_fillEnds hl hh).bind fun _ hends => agrees_drawBetween hends

theorem agrees_anyFloatOf {low high : Value} (hl : low.Within M.values) (hh : high.Within M.values)
    (hv : v.Within M.values) :
    M.Agrees (anyFloat [low, high, v]) (anyFloat [low, high, v]) fun _ => True :=
  agrees_anyFloat (by simpa using ⟨hl, hh, hv⟩)

theorem agrees_mutateInside (hf : f.Lodged M) (hc : c ∈ M.cells) (hv : v.Within M.values) :
    M.Agrees (mutateInside (f.move M.place) (M.place c) v) (mutateInside f c v) (Value.Within M.values) := by
  refine (agrees_slot hc).bind fun low hlow => (agrees_slot hc).bind fun high hhigh => ?_
  have hrest : M.Agrees (do
      if (← checkRange (M.place c) true v).ok then return v
      let floating ← anyFloat [low, high, v]
      drawBetween (← fillEnds low high floating) floating) (do
      if (← checkRange c true v).ok then return v
      let floating ← anyFloat [low, high, v]
      drawBetween (← fillEnds low high floating) floating) (Value.Within M.values) := by
    refine (agrees_checkRange hc hv).bind fun r _ => ?_
    split
    · exact agrees_pure hv
    · exact (agrees_anyFloatOf hlow hhigh hv).bind fun floating _ => agrees_drawFilled hlow hhigh
  dsimp only
  split
  · refine (agrees_view hhigh).bind fun dh _ => (agrees_view hlow).bind fun dl _ => ?_
    split
    · exact relates_misuse_bind
    · refine Agrees.bind (p := fun _ => True) (agrees_ask fun _ _ h => ⟨h.spanText_eq hc, trivial⟩) fun t _ => ?_
      exact agrees_written.bind fun t _ => relates_giveUp_bind hf
    · exact hrest
  · exact hrest

theorem agrees_stepOut {bound : Value} {floating up : Bool} (hb : bound.Within M.values) :
    M.Agrees (stepOut bound floating up) (stepOut bound floating up) fun v => ∀ R, v.Within R := by
  unfold stepOut
  split
  · refine (agrees_view hb).bind fun d _ => ?_
    split
    · exact agrees_inRange.bind fun x _ => agrees_number
    · exact relates_misuse
  · split
    · exact agrees_sum hb (within_atom _)
    · exact agrees_difference hb (within_atom _)

/-- A number on one of the sides of a range that have room. -/
theorem agrees_drawBeside (hf : f.Lodged M) {floating : Bool} (sides : List (Value × Value))
    (hs : ∀ p ∈ sides, p.1.Within M.values ∧ p.2.Within M.values) :
    M.Agrees (do
      if sides.isEmpty then (f.move M.place).giveUp "nothing lies outside an unbounded range" none
      let (low, high) ← Draw.choose sides
      drawBetween (← fillEnds low high floating) floating) (do
      if sides.isEmpty then f.giveUp "nothing lies outside an unbounded range" none
      let (low, high) ← Draw.choose sides
      drawBetween (← fillEnds low high floating) floating) (Value.Within M.values) := by
  dsimp only
  split
  · exact relates_giveUp_bind hf
  · exact (agrees_choose hs).bind fun p hp => agrees_drawFilled hp.1 hp.2

theorem agrees_mutateOutside (hf : f.Lodged M) (hc : c ∈ M.cells) (hv : v.Within M.values) :
    M.Agrees (mutateOutside (f.move M.place) (M.place c) v) (mutateOutside f c v) (Value.Within M.values) := by
  refine (agrees_checkRange hc hv).bind fun r _ => ?_
  split
  · exact agrees_pure hv
  · refine (agrees_slot hc).bind fun low hlow => (agrees_slot hc).bind fun high hhigh => ?_
    refine (agrees_anyFloatOf hlow hhigh hv).bind fun floating _ => ?_
    -- four ways of leaving room below and above; with none, the choice among no sides is given up
    dsimp only
    split <;> split
    · exact agrees_drawBeside hf [] (List.forall_mem_nil _)
    · refine (agrees_stepOut hhigh).bind fun y hy => agrees_drawBeside hf [(y, Value.null)] ?_
      simpa using hy M.values
    · refine (agrees_stepOut hlow).bind fun x hx => agrees_drawBeside hf [(Value.null, x)] ?_
      simpa using hx M.values
    · refine (agrees_stepOut hlow).bind fun x hx => (agrees_stepOut hhigh).bind fun y hy => ?_
      refine agrees_drawBeside hf [(Value.null, x), (y, Value.null)] ?_
      simpa using ⟨hx M.values, hy M.values⟩

theorem agrees_withFirst {a b : Value} (hv : v.Within M.values) (ha : a.Within M.values)
    (hb : b.Within M.values) : M.Agrees (withFirst v a b) (withFirst v a b) (Value.Within M.values) := by
  have hpair : ∀ cls, (Value.tuple cls [a, b]).Within M.values := fun cls =>
    Value.within_tuple.mpr (by simpa using ⟨ha, hb⟩)
  unfold withFirst
  split
  · next l =>
    have hl := Value.within_ref.mp hv
    refine Agrees.bind (p := fun o => ∀ o', o = some o' → o'.Within M.values)
      (agrees_ask fun _ _ h => ⟨h.value hl, fun o' ho' => h.object hl ho'⟩) fun o ho => ?_
    split
    · next x rest =>
      have hrest := Object.within_list.mp (ho _ rfl)
      refine (agrees_put_value hl (Object.within_list.mpr fun y hy => ?_)).bind fun _ _ => agrees_pure hv
      rcases List.mem_cons.mp hy with rfl | hy
      · exact ha
      · exact hrest y (by simp [hy])
    · exact agrees_pure (hpair _)
  · exact agrees_pure (hpair _)
  · exact agrees_pure (hpair _)

theorem agrees_mutatePair {equal : Bool} {g : Option Generator} {n : Int} (hf : f.Lodged M)
    (hv : v.Within M.values) : M.Agrees (mutatePair (f.move M.place) equal g n v) (mutatePair f equal g n v)
      (Value.Within M.values) := by
  refine (agrees_items hv).bind fun p hp => ?_
  obtain ⟨a, b⟩ := p
  dsimp only
  split
  · exact agrees_withFirst hv hp.2 hp.2
  · refine (agrees_search (agrees_differs hp.2) (fun _ _ => agrees_drawCandidate hf hp.2) hp.1).bind fun o ho => ?_
    cases o with
    | some x => exact agrees_withFirst hv (ho x rfl) hp.2
    | none => exact (agrees_render hp.2).bind fun _ _ => relates_giveUp hf

theorem agrees_mutateDistinct {g : Option Generator} {n : Int} (hf : f.Lodged M) (hc : c ∈ M.cells)
    (hv : v.Within M.values) : M.Agrees (mutateDistinct (f.move M.place) (M.place c) g n v)
      (mutateDistinct f c g n v) (Value.Within M.values) := by
  have hunseen (w : Value) (hw : w.Within M.values) :
      M.Agrees (do return !(← Act.isIn w (← seen (M.place c)))) (do return !(← Act.isIn w (← seen c)))
        fun _ => True :=
    (agrees_seen hc).bind fun vs hvs => (agrees_isIn hw hvs).bind fun _ _ => agrees_pure trivial
  refine (agrees_search hunseen (fun _ hw => agrees_drawCandidate hf hw) hv).bind fun o ho => ?_
  cases o with
  | some w => exact (agrees_remember hc (ho w rfl)).bind fun _ _ => agrees_pure (ho w rfl)
  | none => exact relates_giveUp hf

theorem agrees_mutateBrute {test : Data → Bool} {g : Option Generator} {n : Int} (hf : f.Lodged M)
    (hv : v.Within M.values) : M.Agrees (mutateBrute (f.move M.place) test g n v) (mutateBrute f test g n v)
      (Value.Within M.values) := by
  have hpasses (w : Value) (hw : w.Within M.values) :
      M.Agrees (do return test (← Act.view w)) (do return test (← Act.view w)) fun _ => True :=
    (agrees_view hw).bind fun _ _ => agrees_pure trivial
  refine (agrees_search hpasses (fun _ _ => agrees_drawCandidate hf hv) hv).bind fun o ho => ?_
  cases o with
  | some w => exact agrees_pure (ho w rfl)
  | none => exact relates_giveUp hf

theorem agrees_rebuild (hf : f.Lodged M) (hv : v.Within M.values) (hxs : ∀ x ∈ xs, x.Within M.values) :
    M.Agrees ((f.move M.place).rebuild v xs) (f.rebuild v xs) (Value.Within M.values) := by
  refine relates_get.bind fun w u h => ?_
  have hrebuild := h.store.rebuild hv hxs
  revert hrebuild
  generalize w.store.rebuild v xs = r
  generalize u.store.rebuild v xs = r'
  rintro (⟨hsame, hx, hs⟩ | _)
  · -- the store is set in worlds read later, which mirror each other but for it
    refine Relates.bind (P := fun _ _ => True) (relates_modify fun w u h => ?_) fun _ _ _ => ?_
    · exact ⟨hs, h.source, h.log⟩
    · exact relates_pure ⟨hsame, hx⟩
  · exact agrees_written.bind fun _ _ => relates_giveUp hf

theorem agrees_drawElement {g : Option Generator} (hf : f.Lodged M) (hc : c ∈ M.cells) (hv : v.Within M.values) :
    M.Agrees ((f.move M.place).drawElement (M.place c) g v) (f.drawElement c g v) (Value.Within M.values) := by
  unfold drawElement
  split
  · exact agrees_draw
  · refine (agrees_slot hc).bind fun like hlike => ?_
    split
    · next own =>
      have hletters (letters : String) : M.Agrees (do
          if letters = "" then
            (f.move M.place).giveUp "cannot extend an empty str without `like` or `generate`" none
          Draw.choose (Store.characters letters)) (do
          if letters = "" then
            f.giveUp "cannot extend an empty str without `like` or `generate`" none
          Draw.choose (Store.characters letters)) (Value.Within M.values) := by
        split
        · exact relates_giveUp_bind hf
        · refine agrees_choose fun x hx => ?_
          obtain ⟨ch, -, rfl⟩ := List.mem_map.mp hx
          exact Value.within_text
      exact hletters _
    · refine (agrees_elements hv).bind fun own hown => ?_
      have htemplate (template : Value) (ht : template.Within M.values) : M.Agrees (do
          if template.isNull then
            (f.move M.place).giveUp "cannot extend an empty sequence without `like` or `generate`" none
          (f.move M.place).drawLike template) (do
          if template.isNull then
            f.giveUp "cannot extend an empty sequence without `like` or `generate`" none
          f.drawLike template) (Value.Within M.values) := by
        split
        · exact relates_giveUp_bind hf
        · exact agrees_drawLike hf ht
      refine htemplate _ ?_
      split
      · cases own with
        | nil => exact Value.within_null
        | cons x xs => exact hown x (by simp)
      · exact hlike

theorem agrees_mutateLength {size : Int} {g : Option Generator} (hf : f.Lodged M) (hc : c ∈ M.cells)
    (hv : v.Within M.values) : M.Agrees (mutateLength (f.move M.place) (M.place c) size g v)
      (mutateLength f c size g v) (Value.Within M.values) := by
  refine Agrees.bind (p := fun o => ∀ ys, o = some ys → ∀ y ∈ ys, y.Within M.values)
    (agrees_ask fun _ _ h => ⟨h.firstElements?_eq hv _, fun ys hys => Store.firstElements?_within h.closed hv hys⟩)
    fun o ho => ?_
  cases o with
  | none => exact relates_misuse
  | some ys =>
    refine (agrees_mapM fun _ _ => agrees_drawElement hf hc hv).bind fun more hmore => ?_
    refine agrees_rebuild hf hv fun x hx => ?_
    rcases List.mem_append.mp hx with hx | hx
    · exact ho ys rfl x hx
    · exact hmore x hx

/-! ## Complements -/

/-- Whether cells of two runs stand for each other. -/
def StandsAt (M : Mirroring) (c d : Loc) : Prop := c = M.place d ∧ d ∈ M.cells

theorem relates_newCell (hxs : ∀ x ∈ xs, x.Within M.values) :
    M.Relates (Act.alloc (.slots xs)) (Act.alloc (.slots xs)) (StandsAt M) := by
  refine (agrees_alloc (Object.within_slots.mpr hxs)).mono ?_
  rintro l _ ⟨rfl, hl⟩
  exact ⟨(M.own l hl).2.symm, (M.own l hl).1⟩

theorem relates_twinCell (hc : c ∈ M.cells) : M.Relates (twinCell (M.place c)) (twinCell c) (StandsAt M) :=
  (agrees_slots hc).bind fun _ hvs => relates_newCell hvs

theorem relates_emptyCell : M.Relates emptyCell emptyCell (StandsAt M) := relates_newCell nofun

theorem relates_relabel {name : String} {g : Fact} (h : Stands M f g) :
    M.Relates (relabel name f) (relabel name g) (Stands M) := by
  obtain ⟨rfl, hg⟩ := h
  refine relates_emptyCell.bind fun d d' hd => ?_
  obtain ⟨rfl, hd'⟩ := hd
  have hwhole : Stands M (.labeled (M.place d') name (g.move M.place) (g.move M.place).stateful)
      (.labeled d' name g g.stateful) := ⟨by rw [stateful_move, move], hd', hg⟩
  cases g with
  | labeled c n inner b => exact relates_pure ⟨by rw [stateful_move, Fact.move], hd', hg.2⟩
  | choice c f b =>
    cases f with
    | none => exact relates_pure hwhole
    | some f => exact relates_pure hwhole
  | _ => exact relates_pure hwhole

/-- Whether facts of two runs, if there are any, stand for each other. -/
inductive StandsIf (M : Mirroring) : Option Fact → Option Fact → Prop
  | none : StandsIf M none none
  | some {f g : Fact} : Stands M f g → StandsIf M (some f) (some g)

/-- Complements stand for each other if the facts do. -/
theorem relates_complement : ∀ {f : Fact}, f.Lodged M →
    M.Relates (f.move M.place).complement f.complement (StandsIf M)
  | .always _, _ | .never _ _, _ | .pair _ _ _ _, _ => by
    refine relates_emptyCell.bind fun d d' hd => relates_pure (.some ⟨?_, hd.2⟩)
    rw [hd.1, move]
  | .equality c _ _ _, h | .range c _, h => by
    have hc : c ∈ M.cells := h
    refine (relates_twinCell hc).bind fun d d' hd => relates_pure (.some ⟨?_, hd.2⟩)
    rw [hd.1, move]
  | .negation _ f _ _, h => relates_pure (.some ⟨rfl, h.2⟩)
  | .lens _ a f _, h => by
    refine (relates_complement h.2.2).bind fun o o' ho => ?_
    cases ho with
    | none => exact relates_pure .none
    | some hg =>
      refine relates_emptyCell.bind fun d d' hd => relates_pure (.some ⟨?_, hd.2, h.2.1, hg.2⟩)
      rw [hd.1, hg.1, stateful_move, move]
  | .labeled _ name f _, h => by
    refine (relates_complement h.2).bind fun o o' ho => ?_
    cases ho with
    | none => exact relates_pure .none
    | some hg => exact (relates_relabel hg).bind fun _ _ hg' => relates_pure (.some hg')
  | .mapped _ _ _ _ _, h | .foreign _ _, h => h.elim
  | .membership _, _ | .counter _, _ | .distinct _ _ _, _ | .all _ _ _ _, _ | .either _ _ _ _, _
  | .prism _ _ _ _, _ | .each _ _ _, _ | .length _ _ _, _ | .predicate _ _ _, _ | .brute _ _ _ _ _, _
  | .choice _ none _, _ | .choice _ (some _) _, _ => relates_pure .none

/-! ## Combinations -/

section

variable {run : Fact → Value → Act Value}
  (hrun : ∀ f v, f.Lodged M → v.Within M.values →
    M.Agrees (run (f.move M.place) v) (run f v) (Value.Within M.values))

include hrun in
theorem agrees_runAll : ∀ {fs : List Fact} {v : Value}, LodgedAll M fs → v.Within M.values →
    M.Agrees (runAll run (moveAll M.place fs) v) (runAll run fs v) (Value.Within M.values) := by
  intro fs
  induction fs with
  | nil =>
    intro v _ hv
    exact agrees_pure hv
  | cons f fs ih =>
    intro v h hv
    exact (hrun f v h.1 hv).bind fun w hw => ih h.2 hw

include hrun in
theorem agrees_fixpoint {rounds : Int} (hfact : fact.Lodged M) (h : LodgedAll M fs) :
    ∀ {left : Nat} {last : Report} {v : Value}, v.Within M.values →
      M.Agrees (fixpoint run (fact.move M.place) (moveAll M.place fs) rounds left last v)
        (fixpoint run fact fs rounds left last v) (Value.Within M.values) := by
  intro left
  induction left with
  | zero =>
    intro last v _
    exact relates_giveUp hfact
  | succ left ih =>
    intro last v hv
    -- both runs work on copies, or neither does; from then on a round is the same for either
    have hround : ∀ trial probes : List Fact, LodgedAll M trial → LodgedAll M probes →
        ∀ v : Value, v.Within M.values → M.Agrees (do
          let last := Report.combine (← checkAll (moveAll M.place probes) 0 v)
          if last.ok then
            if fact.stateful then commitCells (cellsAll (moveAll M.place fs)) (cellsAll (moveAll M.place trial))
            return v
          Act.log .debug "factual.combinators"
            ((← (fact.move M.place).described) ++ ": round " ++ toString (rounds - left) ++ "/" ++
              toString rounds ++ " left " ++ toString last.size ++ " violation(s)")
          fixpoint run (fact.move M.place) (moveAll M.place fs) rounds left last v) (do
          let last := Report.combine (← checkAll probes 0 v)
          if last.ok then
            if fact.stateful then commitCells (cellsAll fs) (cellsAll trial)
            return v
          Act.log .debug "factual.combinators"
            ((← fact.described) ++ ": round " ++ toString (rounds - left) ++ "/" ++ toString rounds ++
              " left " ++ toString last.size ++ " violation(s)")
          fixpoint run fact fs rounds left last v) (Value.Within M.values) := by
      intro trial probes htrial hprobes v hv
      refine (agrees_checkAll hprobes hv).bind fun rs _ => ?_
      dsimp only
      split
      · split
        · rw [cellsAll_move, cellsAll_move]
          exact (agrees_commitCells h.cells htrial.cells).bind fun _ _ => agrees_pure hv
        · exact agrees_pure hv
      · exact (agrees_described hfact).bind fun _ _ => agrees_log.bind fun _ _ => ih hv
    rw [fixpoint, fixpoint, stateful_move]
    by_cases hs : fact.stateful = true
    · simp only [hs, if_true] at hround ⊢
      refine (relates_copyAll h).bind fun _ trial htrial => ?_
      obtain ⟨rfl, htrial⟩ := htrial
      refine (agrees_runAll hrun htrial hv).bind fun w hw => (relates_copyAll h).bind fun _ probes hprobes => ?_
      obtain ⟨rfl, hprobes⟩ := hprobes
      exact hround trial probes htrial hprobes w hw
    · simp only [hs] at hround ⊢
      exact (agrees_runAll hrun h hv).bind fun w hw => hround fs fs h h w hw

include hrun in
theorem agrees_mutateEither {a b : Fact} (ha : a.Lodged M) (hb : b.Lodged M)
    (hv : v.Within M.values) :
    M.Agrees (mutateEither run (fact.move M.place) (a.move M.place) (b.move M.place) v)
      (mutateEither run fact a b v) (Value.Within M.values) := by
  unfold mutateEither
  rw [stateful_move]
  have hsatisfies (f : Fact) (hf : f.Lodged M) : M.Agrees (do
      let p ← if fact.stateful then (f.move M.place).copy else pure (f.move M.place)
      return (← p.check v).ok) (do
      let p ← if fact.stateful then f.copy else pure f
      return (← p.check v).ok) fun _ => True :=
    relates_copyIf hf fun p q hp => (agrees_checkStanding hp hv).bind fun _ _ => agrees_pure trivial
  refine (hsatisfies a ha).bind fun x _ => ?_
  split
  · exact agrees_pure hv
  · refine (hsatisfies b hb).bind fun y _ => ?_
    split
    · exact agrees_pure hv
    · refine agrees_boolean.bind fun z _ => ?_
      cases z with
      | true => exact hrun a v ha hv
      | false => exact hrun b v hb hv

include hrun in
theorem agrees_mutateNegation {n : Int} (hfact : fact.Lodged M) (hf : f.Lodged M) (hv : v.Within M.values) :
    M.Agrees (mutateNegation run (fact.move M.place) (f.move M.place) n v) (mutateNegation run fact f n v)
      (Value.Within M.values) := by
  have hviolates (w : Value) (hw : w.Within M.values) :
      M.Agrees (do return !(← (f.move M.place).check w).ok) (do return !(← f.check w).ok) fun _ => True :=
    (agrees_check hf hw).bind fun _ _ => agrees_pure trivial
  unfold mutateNegation
  rw [stateful_move]
  refine relates_copyIf hf fun p q hp => (agrees_checkStanding hp hv).bind fun r _ => ?_
  split
  · exact agrees_pure hv
  · refine (relates_complement hf).bind fun o o' ho => ?_
    cases ho with
    | @some g g' hg =>
      obtain ⟨rfl, hg⟩ := hg
      exact hrun g' v hg hv
    | none =>
      refine (agrees_drawUntil hviolates (fun _ _ => agrees_drawLike hfact hv) hv).bind fun o ho => ?_
      cases o with
      | some w => exact agrees_pure (ho w rfl)
      | none => exact (agrees_described hf).bind fun _ _ => relates_giveUp hfact

theorem agrees_write {a : Accessor} {part : Value} (ha : a.Mirrors M) (hv : v.Within M.values)
    (hpart : part.Within M.values) : M.Agrees (a.write v part) (a.write v part) (Value.Within M.values) := by
  refine relates_get.bind fun w u h => ?_
  have hset := h.store.accessor_set ha hv hpart
  revert hset
  generalize a.set w.store v part = r
  generalize a.set u.store v part = r'
  rintro (⟨hsame, hx, hs⟩ | _)
  · have hmirrors : M.Mirrors { w with store := _ } { u with store := _ } := ⟨hs, h.source, h.log⟩
    exact (relates_set hmirrors).bind fun _ _ _ => relates_pure ⟨hsame, hx⟩
  · exact relates_throw

/-! ## Parts of values -/

variable {step step' : Value → Act Value}
  (hstep : ∀ x, x.Within M.values → M.Agrees (step x) (step' x) (Value.Within M.values))

include hstep in
theorem agrees_mutateLens {a : Accessor} (hfact : fact.Lodged M) (ha : a.Mirrors M) (hv : v.Within M.values) :
    M.Agrees (mutateLens step (fact.move M.place) a v) (mutateLens step' fact a v) (Value.Within M.values) := by
  refine (agrees_part? ha hv).bind fun o ho => ?_
  cases o with
  | none => exact (agrees_render hv).bind fun _ _ => relates_giveUp hfact
  | some x => exact Agrees.bind (hstep x (ho x rfl)).under fun y hy => agrees_write ha hv hy

include hstep in
theorem agrees_mutatePrism {a : Accessor} (ha : a.Mirrors M) (hv : v.Within M.values) :
    M.Agrees (mutatePrism step a v) (mutatePrism step' a v) (Value.Within M.values) := by
  refine (agrees_part? ha hv).bind fun o ho => ?_
  cases o with
  | none => exact agrees_pure hv
  | some x =>
    dsimp only
    split
    · exact agrees_pure hv
    · exact Agrees.bind (hstep x (ho x rfl)).under fun y hy => agrees_write ha hv hy

include hstep in
theorem agrees_mutateElements : ∀ {xs : List Value} {i : Nat}, (∀ x ∈ xs, x.Within M.values) →
    M.Agrees (mutateElements step i xs) (mutateElements step' i xs) fun ys => ∀ y ∈ ys, y.Within M.values := by
  intro xs
  induction xs with
  | nil =>
    intro i _
    exact agrees_pure nofun
  | cons x xs ih =>
    intro i h
    refine Agrees.bind (hstep x (h x (by simp))).under fun y hy => ?_
    refine (ih fun z hz => h z (by simp [hz])).bind fun ys hys => agrees_pure ?_
    simpa using ⟨hy, hys⟩

end

section

variable {run : Fact → Value → Act Value}
  (hrun : ∀ f v, f.Lodged M → v.Within M.values →
    M.Agrees (run (f.move M.place) v) (run f v) (Value.Within M.values))

include hrun in
theorem agrees_mutateChoice {g : Option Fact} {b : Bool} (h : (Fact.choice c g b).Lodged M)
    (hv : v.Within M.values) :
    M.Agrees (mutateChoice run ((Fact.choice c g b).move M.place) (M.place c) (g.map (move M.place)) v)
      (mutateChoice run (.choice c g b) c g v) (Value.Within M.values) := by
  have hc : c ∈ M.cells := h.cell
  refine (relates_probe h).bind fun p q hp => (agrees_checkStanding hp hv).bind fun r _ => ?_
  split
  · cases g with
    | some g => exact hrun g v h.2 hv
    | none => exact agrees_pure hv
  · refine (agrees_slots hc).bind fun vs hvs => ?_
    cases g with
    | some g => exact (agrees_scan h.2 hvs).bind fun x hx => hrun g x h.2 hx
    | none =>
      cases vs with
      | nil => exact relates_giveUp h
      | cons x xs => exact agrees_pure (hvs x (by simp))

end

/-! ## Facts -/

/-- A fact over the cells of a mirroring and the same fact where these stand mutate in step. -/
theorem agrees_mutateWithin (levels : Nat) : ∀ (f : Fact) (v : Value), f.Lodged M → v.Within M.values →
    M.Agrees (mutateWithin levels (f.move M.place) v) (mutateWithin levels f v) (Value.Within M.values) := by
  induction levels with
  | zero =>
    intro f v _ _
    exact relates_misuse
  | succ levels ih =>
    intro f v h hv
    cases f with
    | always c => exact agrees_pure hv
    | never c reason => exact relates_giveUp h
    | equality c equal g n =>
      cases equal with
      | true => exact agrees_slot h
      | false => exact agrees_mutateDifferent h h hv
    | membership c => exact agrees_mutateMembership h h hv
    | range c inside =>
      cases inside with
      | true => exact agrees_mutateInside h h hv
      | false => exact agrees_mutateOutside h h hv
    | pair c equal g n => exact agrees_mutatePair h hv
    | counter c => exact agrees_takeNext h
    | distinct c g n => exact agrees_mutateDistinct h h hv
    | all c fs n b => exact agrees_fixpoint ih h h.2 hv
    | either c a b s => exact agrees_mutateEither ih h.2.1 h.2.2 hv
    | negation c f n b => exact agrees_mutateNegation ih h h.2 hv
    | lens c a f b => exact agrees_mutateLens (fun x hx => ih f x h.2.2 hx) h h.2.1 hv
    | prism c a f b => exact agrees_mutatePrism (fun x hx => ih f x h.2.2 hx) h.2.1 hv
    | each c f b =>
      refine (agrees_elements hv).bind fun xs hxs => ?_
      refine (agrees_mutateElements (fun x hx => ih f x h.2 hx) hxs).bind fun ys hys => ?_
      exact agrees_rebuild h hv hys
    | length c n g => exact agrees_mutateLength h h hv
    | mapped c name tests fs f => exact h.elim
    | predicate c name test => exact relates_giveUp h
    | brute c name test g n => exact agrees_mutateBrute h hv
    | choice c f b =>
      cases f with
      | none => exact agrees_mutateChoice ih h hv
      | some f => exact agrees_mutateChoice ih h hv
    | labeled c name f b => exact ih f v h.2 hv
    | foreign c kind => exact h.elim

theorem agrees_mutate (h : f.Lodged M) (hv : v.Within M.values) :
    M.Agrees ((f.move M.place).mutate v) (f.mutate v) (Value.Within M.values) := by
  unfold mutate
  rw [depth_move]
  exact agrees_mutateWithin f.depth f v h hv

end Mirroring

end Conform
