import Conform.Proofs.Descending
import Conform.Proofs.Levels
import Conform.Proofs.Rounds
import Conform.Proofs.Trees

/-!
# Conjunctions over independent parts

`inTurn` is the reference for a conjunction of lenses on independent parts of a mapping: the facts are run in their
order on the parts as they are at first. The main result, `conjunction_in_turn`, says that the conjunction does just
that, whether it answers or raises: one round is enough.
-/

namespace Conform

open Act

/-- The facts of several parts run one after the other, each on the part that is found at first, and each answer is
stored under the key of the part. Noted are the answers, as values and as trees. -/
def inTurn (l : Loc) : List Part → Act (List (Value × Data))
  | [] => return []
  | p :: ps => do
    let y ← Act.mapFault (Fault.under (Fact.lensTag p.accessor)) (p.fact.mutate p.value)
    let d ← Act.view y
    let _ ← p.accessor.write (.ref l) y
    return (y, d) :: (← inTurn l ps)

section

variable {s t : Store} {l : Loc} {es : List (Value × Value)} {p : Part} {ps : List Part} {w u : World} {y : Value}
  {e : Fault} {as : List (Value × Data)}

/-! ## One part after the other -/

theorem exec_inTurn_error (hrun : exec (p.fact.mutate p.value) w = (.error e, u)) :
    exec (inTurn l (p :: ps)) w = (.error (e.under (Fact.lensTag p.accessor)), u) := by
  rw [inTurn, exec_bind, exec_mapFault, hrun]

theorem exec_inTurn_ok (hrun : exec (p.fact.mutate p.value) w = (.ok y, u))
    (hset : p.accessor.set u.store (.ref l) y = .ok (.ref l, t)) :
    exec (inTurn l (p :: ps)) w =
      ((exec (inTurn l ps) { u with store := t }).1.map fun as => (y, u.store.view y) :: as,
        (exec (inTurn l ps) { u with store := t }).2) := by
  rw [inTurn, exec_bind, exec_mapFault, hrun]
  simp only [exec_bind, exec_view, exec_write, hset]
  rcases exec (inTurn l ps) { u with store := t } with ⟨e | as, v⟩ <;> rfl

theorem Part.mutate_lens (p : Part) (v : Value) :
    p.lens.mutate v = Fact.mutateLens p.fact.mutate p.lens p.accessor v := rfl

/-- Running the lenses one after the other on the mapping is running the facts on the parts. -/
theorem Independent.exec_runAll (h : Independent w.store l es ps) :
    exec (Fact.runAll Fact.mutate (ps.map Part.lens) (.ref l)) w =
      ((exec (inTurn l ps) w).1.map fun _ => .ref l, (exec (inTurn l ps) w).2) := by
  induction ps generalizing w es with
  | nil => rfl
  | cons p ps ih =>
    show exec (p.lens.mutate (.ref l) >>= Fact.runAll Fact.mutate (ps.map Part.lens)) w = _
    rw [exec_bind, p.mutate_lens, Fact.exec_mutateLens _ _ (h.lies p List.mem_cons_self).found]
    rcases hrun : exec (p.fact.mutate p.value) w with ⟨e | y, u⟩
    · rw [exec_inTurn_error hrun]
      rfl
    · obtain ⟨t, hst⟩ := h.stored hrun
      have hrest := ih (w := { u with store := t }) (h.rest hst)
      rw [exec_inTurn_ok hrun hst.set]
      simp only [exec_write, hst.set, hrest]
      rcases exec (inTurn l ps) { u with store := t } with ⟨e | as, v⟩ <;> rfl

/-- If all facts answer, all parts are settled. -/
theorem Independent.settled (h : Independent w.store l es ps) (hrun : exec (inTurn l ps) w = (.ok as, u)) :
    Settled w.store l es ps as u := by
  induction ps generalizing w es as with
  | nil =>
    cases hrun
    exact h.settled_nil
  | cons p ps ih =>
    rcases hfirst : exec (p.fact.mutate p.value) w with ⟨e | y, v⟩
    · rw [exec_inTurn_error hfirst] at hrun
      cases hrun
    · obtain ⟨t, hst⟩ := h.stored hfirst
      rw [exec_inTurn_ok hfirst hst.set] at hrun
      rcases hrest : exec (inTurn l ps) { v with store := t } with ⟨e | as', u'⟩
      · rw [hrest] at hrun
        cases hrun
      · rw [hrest] at hrun
        cases hrun
        exact h.settle hfirst hst (ih (w := { v with store := t }) (h.rest hst) hrest)

/-- Every fact finds its part as it is at first. -/
theorem Independent.found_first {before after : List Part} {v : World}
    (h : Independent w.store l es (before ++ p :: after)) (hrun : exec (inTurn l before) w = (.ok as, v)) :
    p.Undisturbed w.store v.store := by
  induction before generalizing w es as with
  | nil =>
    cases hrun
    exact ⟨h.whole, Nat.le_refl _, .refl⟩
  | cons q before ih =>
    rcases hfirst : exec (q.fact.mutate q.value) w with ⟨e | y, u⟩
    · rw [exec_inTurn_error hfirst] at hrun
      cases hrun
    · obtain ⟨t, hst⟩ := h.stored hfirst
      rw [exec_inTurn_ok hfirst hst.set] at hrun
      rcases hrest : exec (inTurn l before) { u with store := t } with ⟨e | as', u'⟩
      · rw [hrest] at hrun
        cases hrun
      · rw [hrest] at hrun
        cases hrun
        exact (h.undisturbed hst (by simp)).trans (ih (w := { u with store := t }) (h.rest hst) hrest)

/-- Whether the facts of the first parts answer and that of the next one raises a fault, which is `e` as seen from the
lens: the description of a fact that has given up gets the tag of the lens in front. -/
def FailsFirst (l : Loc) (ps : List Part) (w : World) (e : Fault) (u : World) : Prop :=
  ∃ before p after as v e', ps = before ++ p :: after ∧ exec (inTurn l before) w = (.ok as, v) ∧
    exec (p.fact.mutate p.value) v = (.error e', u) ∧ e = e'.under (Fact.lensTag p.accessor)

/-- If one of the facts raises a fault, those before it have answered. -/
theorem Independent.failsFirst (h : Independent w.store l es ps) (hrun : exec (inTurn l ps) w = (.error e, u)) :
    FailsFirst l ps w e u := by
  induction ps generalizing w es with
  | nil => cases hrun
  | cons p ps ih =>
    rcases hfirst : exec (p.fact.mutate p.value) w with ⟨e' | y, v⟩
    · rw [exec_inTurn_error hfirst] at hrun
      cases hrun
      exact ⟨[], p, ps, [], w, e', rfl, rfl, hfirst, rfl⟩
    · obtain ⟨t, hst⟩ := h.stored hfirst
      rw [exec_inTurn_ok hfirst hst.set] at hrun
      rcases hrest : exec (inTurn l ps) { v with store := t } with ⟨e' | as, u'⟩
      · rw [hrest] at hrun
        cases hrun
        obtain ⟨before, q, after, as, w', e', rfl, hbefore, hq, rfl⟩ :=
          ih (w := { v with store := t }) (h.rest hst) hrest
        refine ⟨p :: before, q, after, (y, v.store.view y) :: as, w', e', rfl, ?_, hq, rfl⟩
        rw [exec_inTurn_ok hfirst hst.set, hbefore]
        rfl
      · rw [hrest] at hrun
        cases hrun

/-! ## One round -/

/-- The lenses pass when the parts do, and checking them leaves no trace. -/
theorem exec_checkAll_lenses (hfacts : ∀ p ∈ ps, p.fact.Formed ∧ p.fact.stateful = false)
    (hparts : List.Forall₂ (fun (p : Part) (a : Value × Data) => p.accessor.get w.store (.ref l) = .ok a.1 ∧
      w.store.view a.1 = a.2 ∧ p.fact.Judges w a.1 true) ps as) (i : Nat) :
    ∃ rs, exec (Fact.checkAll (ps.map Part.lens) i (.ref l)) w = (.ok rs, w) ∧ (Report.combine rs).ok = true := by
  induction hparts generalizing i with
  | nil => exact ⟨[], by rw [List.map_nil, Fact.checkAll, exec_pure], rfl⟩
  | @cons p a ps as hpart _ ih =>
    obtain ⟨rs, hrs, hok⟩ := ih (fun q hq => hfacts q (List.mem_cons_of_mem p hq)) (i + 1)
    obtain ⟨hformed, hstateless⟩ := hfacts p List.mem_cons_self
    have hjudges : p.lens.Judges w (.ref l) true := Fact.judges_lens.mpr (.inl ⟨a.1, hpart.1, hpart.2.2⟩)
    have hlens : p.lens.Formed := ⟨rfl, hformed⟩
    obtain ⟨r, hr, hrok⟩ := hjudges.quietly hlens hstateless
    refine ⟨r.under ("and" ++ Fact.elementTag i) :: rs, ?_, ?_⟩
    · rw [List.map_cons, Fact.checkAll, exec_bind, hr]
      simp only [exec_bind, hrs, exec_pure]
      rfl
    · rw [Report.combine_cons, Report.ok_append, Report.ok_under, hrok, hok]
      rfl

/-- A conjunction that is not stateful ends with the fault of the first member that raises one. -/
theorem exec_fixpoint_error {run : Fact → Value → Act Value} {fact : Fact} {fs : List Fact} {rounds : Int} {left : Nat}
    {last : Report} {v : Value} (hs : fact.stateful = false)
    (hrun : exec (Fact.runAll run fs v) w = (.error e, u)) :
    exec (Fact.fixpoint run fact fs rounds (left + 1) last v) w = (.error e, u) := by
  rw [Fact.fixpoint]
  simp only [hs, Bool.false_eq_true, if_false, exec_bind, exec_pure, hrun]

theorem Independent.exec_checkAll (h : Independent s l es ps)
    (hparts : List.Forall₂ (fun (p : Part) (a : Value × Data) => p.accessor.get w.store (.ref l) = .ok a.1 ∧
      w.store.view a.1 = a.2 ∧ p.fact.Judges w a.1 true) ps as) :
    ∃ rs, exec (Fact.checkAll (ps.map Part.lens) 0 (.ref l)) w = (.ok rs, w) ∧ (Report.combine rs).ok = true :=
  exec_checkAll_lenses (fun p hp => ⟨(h.lies p hp).formed, (h.lies p hp).stateless⟩) hparts 0

variable {n : Int} {c : Loc} {r : Except Fault (List (Value × Data))}

theorem Independent.exec_conjunction (h : Independent w.store l es ps) (hn : 1 ≤ n)
    (hrun : exec (inTurn l ps) w = (r, u)) :
    exec ((Fact.all c (ps.map Part.lens) n false).mutate (.ref l)) w = (r.map fun _ => .ref l, u) := by
  have hrounds : n.toNat = (n.toNat - 1) + 1 := by omega
  -- within the conjunction, a member has no fewer levels than it needs
  have hlevels : Fact.runAll (Fact.mutateWithin (Fact.depths (ps.map Part.lens))) (ps.map Part.lens) (.ref l) =
      Fact.runAll Fact.mutate (ps.map Part.lens) (.ref l) :=
    Fact.runAll_congr (fun f hf => funext fun v => Fact.mutateWithin_eq (Fact.depth_le_depths hf)) (.ref l)
  have hmembers := h.exec_runAll
  rw [← hlevels, hrun] at hmembers
  show exec (Fact.fixpoint _ _ _ n n.toNat .pass (.ref l)) w = _
  rw [hrounds]
  cases r with
  | error e => exact exec_fixpoint_error rfl hmembers
  -- all parts are settled after the first round, so its check passes
  | ok as =>
    obtain ⟨rs, hcheck, hok⟩ := h.exec_checkAll (h.settled hrun).parts
    exact Fact.exec_fixpoint_settled rfl hmembers hcheck hok

/-- A conjunction of lenses on the branches of a tree does what running the facts in turn on the parts does, in one
round, however many it may make. Every fact finds its part as it is at first. If all of them answer, so does the
conjunction, with the mapping: every part is what its fact has made of it, no other entry and not the order of the keys
has changed, and the conjunction passes. Otherwise it ends with the fault of the first fact that raises one. -/
theorem conjunction_in_turn (h : Branches w.store l es ps) (hn : 1 ≤ n) (hrun : exec (inTurn l ps) w = (r, u)) :
    exec ((Fact.all c (ps.map Part.lens) n false).mutate (.ref l)) w = (r.map fun _ => .ref l, u) ∧
    (∀ before p after as v, ps = before ++ p :: after → exec (inTurn l before) w = (.ok as, v) →
      p.Undisturbed w.store v.store) ∧
    (∀ as, r = .ok as → Settled w.store l es ps as u ∧
      (Fact.all c (ps.map Part.lens) n false).Judges u (.ref l) true) ∧
    ∀ e, r = .error e → FailsFirst l ps w e u := by
  have hparts := h.independent
  refine ⟨hparts.exec_conjunction hn hrun, ?_, ?_, ?_⟩
  · rintro before p after as v rfl hbefore
    exact hparts.found_first hbefore
  · rintro as rfl
    have hsettled := hparts.settled hrun
    obtain ⟨rs, hcheck, hok⟩ := hparts.exec_checkAll hsettled.parts
    refine ⟨hsettled, .combine rs, u, ?_, hok⟩
    rw [Fact.check, exec_bind, hcheck]
    rfl
  · rintro e rfl
    exact hparts.failsFirst hrun

end

/-! ## A mapping with two branches -/

/-- The entries of a mapping with a number, a list and another number. -/
def branchEntries : List (Value × Value) := [(.text "a", .int 3), (.text "b", .ref 0), (.text "z", .int 9)]

/-- A list of two numbers, the mapping that it is in, and the cells of the facts for the first two entries. -/
def branchWorld : World where
  store := ⟨#[.list [.int 1, .int 2], .mapping branchEntries, .slots [.int 5], .slots []], spelledMarks, []⟩
  source := .tape [0] 0
  log := #[]

/-- The part of `branchWorld` under a text. -/
def branchPart (name : String) (f : Fact) (v : Value) : Part where
  shown := name
  key := .text name
  cell := f.cell
  fact := f
  value := v
  ground := {q | branchWorld.store.Reaches v q}

/-- The first number is to be five, and the numbers of the list are to be equal. -/
def branchParts : List Part :=
  [branchPart "a" (.equality 2 true none 0) (.int 3), branchPart "b" (.pair 3 true none 0) (.ref 0)]

theorem reaches_list {q : Place} (h : branchWorld.store.Reaches (.ref 0) q) : q = .object 0 := by
  refine Store.Closed.of_reaches (R := {q | q = .object 0}) ?_ (fun p hp => by simpa [Value.places] using hp) h
  rintro _ rfl q ⟨o, ho, hq⟩
  cases ho
  cases hq

theorem reaches_mapping {q : Place} (h : branchWorld.store.Reaches (.ref 1) q) : q = .object 0 ∨ q = .object 1 := by
  refine Store.Closed.of_reaches (R := {q | q = .object 0 ∨ q = .object 1}) ?_
    (fun p hp => by simp_all [Value.places]) h
  rintro _ (rfl | rfl) q ⟨o, ho, hq⟩
  · cases ho
    cases hq
  · cases ho
    exact .inl (List.mem_singleton.mp hq)

theorem tree_branchWorld : branchWorld.store.Tree (.ref 1) := by
  have htext : ∀ t : String, (Value.text t).places = [] := fun _ => rfl
  have hint : ∀ k : Int, (Value.int k).places = [] := fun _ => rfl
  have hlist : ∀ x ∈ (Object.list [.int 1, .int 2]).values, x.places = [] := by simp [Object.values, hint]
  have hmapping : ∀ x ∈ (Object.mapping branchEntries).values, x.places = [] ∨ x = .ref 0 := by
    simp [Object.values, branchEntries, htext, hint]
  have hapart : (Object.mapping branchEntries).values.Pairwise fun x y => ¬ branchWorld.store.Shares x y := by
    simp [Object.values, branchEntries, Store.not_shares, htext, hint]
  refine ⟨fun m o hm ho => ?_, fun m o hm ho x hx h => ?_⟩
  · rcases reaches_mapping hm with heq | heq <;> cases heq <;> cases ho
    · exact List.pairwise_of_forall_mem_list fun x hx _ _ => Store.not_shares (.inl (hlist x hx))
    · exact hapart
  · rcases reaches_mapping hm with heq | heq <;> cases heq <;> cases ho
    · exact Store.not_reaches (hlist x hx) h
    · rcases hmapping x hx with hplain | rfl
      · exact Store.not_reaches hplain h
      · cases reaches_list h

theorem whole_branchWorld : branchWorld.store.Whole := Store.Whole.of_bound (by decide) rfl

theorem exec_items_list {w : World} {l : Loc} {a b : Value} (h : w.store.get? l = some (.list [a, b])) :
    exec (Fact.items (.ref l)) w = (.ok (a, b), w) := by
  simp only [Fact.items, exec_bind, exec_ask, Store.elements?, h]
  rfl

section

variable {w : World}

theorem found_number (h : (branchPart "a" (.equality 2 true none 0) (.int 3)).Undisturbed branchWorld.store w.store) :
    w.store.get? 2 = some (.slots [.int 5]) :=
  h.same.object 2 (.inr ⟨_, List.mem_singleton.mpr rfl, rfl⟩)

theorem found_list (h : (branchPart "b" (.pair 3 true none 0) (.ref 0)).Undisturbed branchWorld.store w.store) :
    w.store.get? 0 = some (.list [.int 1, .int 2]) :=
  h.same.object 0 (.inl Store.reaches_ref)

theorem exec_number (h : w.store.get? 2 = some (.slots [.int 5])) :
    exec ((Fact.equality 2 true none 0).mutate (.int 3)) w = (.ok (.int 5), w) := by
  show (Except.ok (w.store.slot 2 0), w) = _
  rw [Store.slot, Store.slots, h]
  rfl

theorem exec_list (h : w.store.get? 0 = some (.list [.int 1, .int 2])) :
    exec ((Fact.pair 3 true none 0).mutate (.ref 0)) w =
      (.ok (.ref 0), { w with store := w.store.put 0 (.list [.int 2, .int 2]) }) := by
  show exec (Fact.mutatePair _ true none 0 (.ref 0)) w = _
  rw [Fact.mutatePair, exec_bind, exec_items_list h]
  simp only [if_true, Fact.withFirst, exec_bind, exec_ask, h]
  rfl

end

theorem sound_branchParts : ∀ p ∈ branchParts, p.Sound branchWorld.store := by
  simp only [branchParts, List.forall_mem_cons]
  refine ⟨fun w y u hw hrun => ?_, fun w y u hw hrun => ?_, List.forall_mem_nil _⟩
  · have hcell := found_number hw
    cases (exec_number hcell).symm.trans hrun
    refine ⟨.pass, w, ?_, rfl⟩
    show exec (Fact.equalityReport true (.int 5) (w.store.slot 2 0)) w = _
    rw [Store.slot, Store.slots, hcell]
    exact Fact.exec_equalityReport rfl
  · have hlist := found_list hw
    cases (exec_list hlist).symm.trans hrun
    refine ⟨.pass, { w with store := w.store.put 0 (.list [.int 2, .int 2]) }, ?_, rfl⟩
    show exec ((Fact.pair 3 true none 0).check (.ref 0)) _ = _
    rw [Fact.check, exec_bind, exec_items_list (Store.get?_put_same (Store.lt_size_of_get? hlist))]
    exact Fact.exec_equalityReport rfl

theorem branches_branchParts : Branches branchWorld.store 1 branchEntries branchParts where
  whole := whole_branchWorld
  mapping := rfl
  tree := tree_branchWorld
  hangs := by
    have hview : ∀ t, branchWorld.store.view (.text t) = .atom (.text t) := fun _ => rfl
    have hfound : ∀ t v, branchWorld.store.lookup branchEntries (.atom (.text t)) = some v →
        (Accessor.item t (.text t)).get branchWorld.store (.ref 1) = .ok v := fun t v h =>
      (Store.get_item_iff rfl).mpr ⟨rfl, h⟩
    have hcell : ∀ m : Loc, 1 < m → ¬ branchWorld.store.Reaches (.ref 1) (.object m) := by
      intro m hm h
      rcases reaches_mapping h with heq | heq <;> rw [Place.object.inj heq] at hm <;> exact absurd hm (by decide)
    simp only [branchParts, List.forall_mem_cons]
    refine ⟨.of_leaf whole_branchWorld rfl trivial rfl rfl rfl rfl ?_ ⟨by decide, hcell 2 (by decide)⟩ rfl
        (hfound "a" _ ?_) rfl,
      .of_leaf whole_branchWorld rfl trivial rfl rfl rfl rfl ?_ ⟨by decide, hcell 3 (by decide)⟩ rfl
        (hfound "b" _ ?_) rfl, List.forall_mem_nil _⟩
    · exact List.forall_mem_singleton.mpr rfl
    · simp [branchEntries, branchPart, Store.lookup_cons, hview]
    · exact List.forall_mem_nil _
    · simp [branchEntries, branchPart, Store.lookup_cons, hview]
  sound := sound_branchParts
  unlike := by
    refine List.pairwise_pair.mpr ?_
    show ¬ (Data.atom (.text "a")).alike (.atom (.text "b")) = true ∧
      ¬ (Data.atom (.text "b")).alike (.atom (.text "a")) = true
    simp
  spares := by
    refine List.pairwise_pair.mpr ⟨fun o _ w hw => ?_, fun o _ w hw => ?_⟩
    · exact congrArg (fun r => r.2.store.givenTo o) (exec_number (found_number hw))
    · exact congrArg (fun r => r.2.store.givenTo o) (exec_list (found_list hw))

/-- The number is set, and the list is changed in place. -/
theorem conjunction_in_turn_branches : ∃ u,
    exec ((Fact.all 0 (branchParts.map Part.lens) 1 false).mutate (.ref 1)) branchWorld = (.ok (.ref 1), u) ∧
    Settled branchWorld.store 1 branchEntries branchParts
      [(.int 5, .atom (.int 5)), (.ref 0, .list [.atom (.int 2), .atom (.int 2)])] u ∧
    (Fact.all 0 (branchParts.map Part.lens) 1 false).Judges u (.ref 1) true := by
  have hrun : exec (inTurn 1 branchParts) branchWorld =
      (.ok [(.int 5, .atom (.int 5)), (.ref 0, .list [.atom (.int 2), .atom (.int 2)])],
        (exec (inTurn 1 branchParts) branchWorld).2) := rfl
  obtain ⟨hexec, -, hanswered, -⟩ := conjunction_in_turn branches_branchParts (Int.le_refl 1) hrun
  exact ⟨_, hexec, hanswered _ rfl⟩

end Conform
