import Conform.Proofs.Deciding
import Conform.Proofs.Idle
import Conform.Proofs.Replacing
import Conform.Proofs.TreeFacts

/-!
# Mutation answers what passes

What mutation answers passes the fact, if a check of it reports at all (`Fact.passes_of_mutate`). This is so for every
fact of the stateless algebra, however its parts are combined, negated or focused on, for every value that is a finite
tree, and for every source.

The induction is on the levels (`Fact.Fulfils`). It goes down to a part of the value, to an element, to a side of a
disjunction or to a complement, which is no part of the fact. Each of these is used on a tree that it serves
(`Fact.Suits`), and the verdict on what it answers has to last while the rest of the value is put together again: the
work was done on the objects of that tree and on new ones, and what is written later are other objects.

Verdicts are compared, not reports, since a check of a disjunction may end with a fault on the side that mutation has
not looked at, or find no text for an integer.
-/

namespace Conform

open Act Store

/-! ## Searches -/

namespace Search

variable {accept : Value → Act Bool} {draw : Value → Act Value} {v y : Value} {w u : World}

/-- What a search answers is acceptable at the end. -/
theorem accepted_drawUntil (hquiet : ∀ x, (accept x).Quiet) : ∀ {k : Nat} {v : Value} {w : World},
    exec (drawUntil accept draw k v) w = (.ok (some y), u) → exec (accept y) u = (.ok true, u) := by
  intro k
  induction k with
  | zero =>
    intro v w h
    cases h
  | succ k ih =>
    intro v w h
    obtain ⟨x, t, -, h⟩ := exec_bind_ok h
    obtain ⟨b, _, hb, h⟩ := exec_bind_ok h
    obtain rfl := (hquiet x).eq_of_exec hb
    cases b with
    | true =>
      cases h
      exact hb
    | false => exact ih h

theorem accepted_run (hquiet : ∀ x, (accept x).Quiet) {k : Nat} (h : exec (run accept draw k v) w = (.ok (some y), u)) :
    exec (accept y) u = (.ok true, u) := by
  obtain ⟨b, _, hb, h⟩ := exec_bind_ok h
  obtain rfl := (hquiet v).eq_of_exec hb
  cases b with
  | true =>
    cases h
    exact hb
  | false => exact accepted_drawUntil hquiet h

end Search

namespace Fact

section

variable {w u z : World} {f g n fact : Fact} {fs : List Fact} {ks ls : List Loc} {v x y : Value} {xs : List Value}
  {k : Nat} {c : Loc} {a : Accessor} {noted : Bool}

/-- Whether a fact can be used on a value that is a tree: it serves the tree, in which no object is met twice. -/
structure Suits (w : World) (f : Fact) (v : Value) (ls : List Loc) : Prop where
  whole : w.store.Whole
  serves : f.Serves w.store ls
  tree : w.store.Unfolds [v] ls
  nodup : ls.Nodup

/-- Whether what facts of so many levels make of a tree does not fail them. -/
def Fulfils (k : Nat) : Prop :=
  ∀ {f : Fact} {v y : Value} {w u : World} {ls : List Loc}, f.Suits w v ls →
    exec (mutateWithin k f v) w = (.ok y, u) → f.verdict? u.store y ≠ some false

namespace Suits

/-- Parts of the fact can be used on parts of the tree. -/
theorem part {read : Store → Except Fault Value} (h : f.Suits w v ls) (hpart : Unfolds.Part w.store read v x ls ks)
    (hg : g.Formed) (hnodes : ∀ n ∈ g.everyNode, n ∈ f.everyNode) : g.Suits w x ks where
  whole := h.whole
  serves := h.serves.part hg hnodes hpart.sub.subset
  tree := hpart.tree
  nodup := h.nodup.sublist hpart.sub

theorem of (h : f.Suits w v ls) (hg : g.Formed) (hnodes : ∀ n ∈ g.everyNode, n ∈ f.everyNode) : g.Suits w v ls :=
  ⟨h.whole, h.serves.part hg hnodes (List.Subset.refl ls), h.tree, h.nodup⟩

/-- A world with the same store is as good. -/
theorem congr (h : f.Suits w v ls) (hu : u.store = w.store) : f.Suits u v ls := by
  obtain ⟨hwhole, hserves, htree, hnodup⟩ := h
  rw [← hu] at hwhole hserves htree
  exact ⟨hwhole, hserves, htree, hnodup⟩

theorem worked (h : f.Suits w v ls) (hrun : exec (mutateWithin k f v) w = (.ok y, u)) :
    w.store.Worked ls u.store ∧ y.Within (w.store.grown ls u.store) := h.serves.mutate h.whole h.tree hrun

/-- The cells of the fact hold afterwards what they did. -/
theorem slots (h : f.Suits w v ls) (hrun : exec (mutateWithin k f v) w = (.ok y, u)) (hn : n ∈ f.everyNode) :
    u.store.slots n.cell = w.store.slots n.cell := h.serves.slots (h.worked hrun).1 (List.Subset.refl ls) hn

/-- What a check of a value says is the verdict on it. -/
theorem verdict (h : f.Suits w v ls) {r : Report} (hr : exec (f.check y) u = (.ok r, z)) :
    f.verdict? u.store y = some r.ok := Judges.verdict h.serves.formed h.serves.stateless ⟨r, z, hr, rfl⟩

end Suits

/-! ## Leaves -/

theorem ne_false_of_true {o : Option Bool} (h : o = some true) : o ≠ some false := by
  rw [h]
  exact fun h => by cases h

theorem Suits.different {g : Option Generator} {n : Int} (h : (Fact.equality c false g n).Suits w v ls)
    (hrun : exec (mutateWithin (k + 1) (.equality c false g n) v) w = (.ok y, u)) :
    (Fact.equality c false g n).verdict? u.store y ≠ some false := by
  have hslot : u.store.slot c 0 = w.store.slot c 0 := slot_congr (h.slots hrun (self_mem_everyNode _)) 0
  obtain ⟨x, _, hx, hrun⟩ := exec_bind_ok hrun
  cases hx
  obtain ⟨o, t, ho, hrun⟩ := exec_bind_ok hrun
  cases o with
  | none =>
    obtain ⟨r, _, -, hrun⟩ := exec_bind_ok hrun
    exact absurd (congrArg Prod.fst hrun) giveUp_ne_ok
  | some z =>
    cases hrun
    have haccepted := Search.accepted_run (fun _ => quiet_equal.bind fun _ => quiet_pure) ho
    obtain ⟨b, _, hb, hnot⟩ := exec_bind_ok haccepted
    cases b
    · rw [verdict?, hslot, exec_equal_ok hb]
      exact fun h => by cases h
    · cases hnot

/-- The reference value equals itself. -/
theorem Suits.reference {g : Option Generator} {n : Int} (h : (Fact.equality c true g n).Suits w v ls)
    (hrun : exec (mutateWithin (k + 1) (.equality c true g n) v) w = (.ok y, u)) :
    (Fact.equality c true g n).verdict? u.store y ≠ some false := by
  cases hrun
  have hrefs : (w.store.slot c 0).refs = [] := by
    rw [Store.slot]
    cases hslot : (w.store.slots c)[0]? with
    | none => rfl
    | some x => exact h.serves.refs (self_mem_everyNode _) x (List.mem_of_getElem? hslot)
  have hself := equalWithin?_self (s := w.store) hrefs (h.serves.furnished _ (self_mem_everyNode _)) deepest
  intro hfalse
  rw [verdict?] at hfalse
  obtain ⟨b, hb, hne⟩ := Option.map_eq_some_iff.mp hfalse
  cases b
  · exact hself hb
  · cases hne

/-- An option is one of the options. -/
theorem Suits.option (h : f.Suits w v ls) (hy : y ∈ w.store.slots f.cell) :
    w.store.isIn? y (w.store.slots f.cell) ≠ some false :=
  isIn?_self (h.serves.refs (self_mem_everyNode _) y hy) hy

theorem Suits.membership (h : (Fact.membership c).Suits w v ls)
    (hrun : exec (mutateWithin (k + 1) (.membership c) v) w = (.ok y, u)) :
    (Fact.membership c).verdict? u.store y ≠ some false := by
  obtain ⟨xs, _, hxs, hrun⟩ := exec_bind_ok hrun
  cases hxs
  obtain ⟨found, _, hfound, hrun⟩ := exec_bind_ok hrun
  obtain rfl := quiet_isIn.eq_of_exec hfound
  cases found with
  | true =>
    cases hrun
    exact ne_false_of_true (exec_isIn_ok hfound)
  | false =>
    replace hrun : exec (do
        if (w.store.slots c).isEmpty then (Fact.membership c).giveUp "no options to choose from" none
        Draw.choose (w.store.slots c)) w = (.ok y, u) := hrun
    split at hrun
    · obtain ⟨_, _, hgiveUp, -⟩ := exec_bind_ok hrun
      exact absurd (congrArg Prod.fst hgiveUp) giveUp_ne_ok
    · obtain ⟨hstore, hmem⟩ := Draw.picks_choose w y u rfl hrun
      rw [hstore]
      exact h.option hmem

theorem Suits.range {inside : Bool} (h : (Fact.range c inside).Suits w v ls)
    (hrun : exec (mutateWithin (k + 1) (.range c inside) v) w = (.ok y, u)) :
    (Fact.range c inside).verdict? u.store y ≠ some false := by
  obtain ⟨hlow, hhigh⟩ : IsWholeEnd (w.store.slot c 0) ∧ IsWholeEnd (w.store.slot c 1) :=
    h.serves.furnished _ (self_mem_everyNode _)
  refine ne_false_of_true ?_
  cases inside with
  | true =>
    obtain ⟨hstore, hverdict⟩ := picks_mutateInside hlow hhigh h.tree.isFloat w y u rfl hrun
    rw [hstore, hverdict]
  | false =>
    obtain ⟨hstore, hverdict⟩ := picks_mutateOutside hlow hhigh h.tree.isFloat w y u rfl hrun
    rw [hstore, hverdict]

theorem Suits.brute {name : String} {test : Data → Bool} {g : Option Generator} {n : Int}
    (hrun : exec (mutateWithin (k + 1) (.brute c name test g n) v) w = (.ok y, u)) :
    (Fact.brute c name test g n).verdict? u.store y ≠ some false := by
  obtain ⟨o, t, ho, hrun⟩ := exec_bind_ok hrun
  cases o with
  | none => exact absurd (congrArg Prod.fst hrun) giveUp_ne_ok
  | some z =>
    cases hrun
    have haccepted := Search.accepted_run (fun _ => quiet_view.bind fun _ => quiet_pure) ho
    obtain ⟨d, _, hd, htest⟩ := exec_bind_ok haccepted
    cases hd
    exact ne_false_of_true (congrArg some (Except.ok.inj (congrArg Prod.fst htest)))

theorem Suits.candidate (h : (Fact.choice c none noted).Suits w v ls)
    (hrun : exec (mutateWithin (k + 1) (.choice c none noted) v) w = (.ok y, u)) :
    (Fact.choice c none noted).verdict? u.store y ≠ some false := by
  obtain ⟨p, _, hp, hrun⟩ := exec_bind_ok hrun
  rw [probe, if_neg (by rw [h.serves.stateless]; exact Bool.false_ne_true)] at hp
  cases hp
  obtain ⟨r, _, hr, hrun⟩ := exec_bind_ok hrun
  obtain rfl := (h.serves.quiet v).eq_of_exec hr
  have hverdict := h.verdict hr
  cases hok : r.ok with
  | true =>
    rw [if_pos hok] at hrun
    cases hrun
    exact ne_false_of_true (hverdict.trans (congrArg some hok))
  | false =>
    rw [if_neg (by rw [hok]; exact Bool.false_ne_true)] at hrun
    obtain ⟨xs, _, hxs, hrun⟩ := exec_bind_ok hrun
    cases hxs
    dsimp only at hrun
    split at hrun
    · next x rest hslots =>
      cases hrun
      exact h.option (by rw [cell, hslots]; exact List.mem_cons_self)
    · exact absurd (congrArg Prod.fst hrun) giveUp_ne_ok

/-! ## Combinations -/

/-- What a conjunction answers has been checked by all members at the end. -/
theorem checked_fixpoint {run : Fact → Value → Act Value} {rounds : Int} (hs : fact.stateful = false)
    (hquiet : ∀ v, (checkAll fs 0 v).Quiet) : ∀ {left : Nat} {last : Report} {v : Value} {w : World},
      exec (fixpoint run fact fs rounds left last v) w = (.ok y, u) →
        ∃ rs, exec (checkAll fs 0 y) u = (.ok rs, u) ∧ (Report.combine rs).ok = true := by
  intro left
  induction left with
  | zero => exact fun h => absurd (congrArg Prod.fst h) giveUp_ne_ok
  | succ left ih =>
    intro last v w h
    unfold fixpoint at h
    simp only [hs, Bool.false_eq_true, if_false, pure_bind] at h
    obtain ⟨x, t, -, h⟩ := exec_bind_ok h
    obtain ⟨rs, _, hrs, h⟩ := exec_bind_ok h
    obtain rfl := (hquiet x).eq_of_exec hrs
    split at h
    · next hok =>
      cases h
      exact ⟨rs, hrs, hok⟩
    · obtain ⟨d, _, -, h⟩ := exec_bind_ok h
      obtain ⟨_, _, -, h⟩ := exec_bind_ok h
      exact ih h

theorem Suits.all {n : Int} (h : (Fact.all c fs n noted).Suits w v ls)
    (hrun : exec (mutateWithin (k + 1) (.all c fs n noted) v) w = (.ok y, u)) :
    (Fact.all c fs n noted).verdict? u.store y ≠ some false := by
  obtain ⟨hnoted, hfs⟩ := h.serves.formed
  have hstateless : fs.any stateful = false := hnoted.symm.trans h.serves.stateless
  obtain ⟨rs, hrs, hok⟩ := checked_fixpoint h.serves.stateless (fun v => quiet_checkAll hfs hstateless 0 v) hrun
  obtain ⟨bs, hbs, hall⟩ := judges_checkAll hfs hstateless hrs
  exact ne_false_of_true ((verdictAll?_of_judges hfs hstateless hbs).trans (congrArg some (hall.symm.trans hok)))

theorem picks_boolean {s : Store} : Picks s Draw.boolean fun _ => True := by
  refine Picks.after quiet_get fun w x _ _ => ?_
  split
  · exact picks_pure trivial
  · exact (Draw.picks_fromSource (P := fun _ => True) fun _ => trivial).bind fun _ _ => picks_pure trivial

/-- A side that is satisfied already, or is mutated, is satisfied at the end. -/
theorem Suits.either (ih : Fulfils k) (h : (Fact.either c f g noted).Suits w v ls)
    (hrun : exec (mutateWithin (k + 1) (.either c f g noted) v) w = (.ok y, u)) :
    (Fact.either c f g noted).verdict? u.store y ≠ some false := by
  have hf : f.Suits w v ls := h.of h.serves.formed.2.1 fun n hn => everyNode_of_part List.mem_cons_self hn
  have hg : g.Suits w v ls := h.of h.serves.formed.2.2 fun n hn =>
    everyNode_of_part (List.mem_cons_of_mem _ List.mem_cons_self) hn
  replace hrun : exec (mutateEither (mutateWithin k) (.either c f g noted) f g v) w = (.ok y, u) := hrun
  unfold mutateEither at hrun
  simp only [h.serves.stateless, Bool.false_eq_true, if_false, pure_bind, bind_assoc] at hrun
  obtain ⟨rf, _, hrf, hrun⟩ := exec_bind_ok hrun
  obtain rfl := (hf.serves.quiet v).eq_of_exec hrf
  split at hrun
  · next hok =>
    cases hrun
    exact map₂_or_ne_false (.inl (ne_false_of_true ((hf.verdict hrf).trans (congrArg some hok))))
  obtain ⟨rg, _, hrg, hrun⟩ := exec_bind_ok hrun
  obtain rfl := (hg.serves.quiet v).eq_of_exec hrg
  split at hrun
  · next hok =>
    cases hrun
    exact map₂_or_ne_false (.inr (ne_false_of_true ((hg.verdict hrg).trans (congrArg some hok))))
  obtain ⟨left, t, hleft, hrun⟩ := exec_bind_ok hrun
  obtain ⟨hstore, -⟩ := picks_boolean w left t rfl hleft
  cases left with
  | true => exact map₂_or_ne_false (.inl (ih (hf.congr hstore) hrun))
  | false => exact map₂_or_ne_false (.inr (ih (hg.congr hstore) hrun))

theorem slots_of_node {s t : Store} (h : ∀ n ∈ f.everyNode, t.slots n.cell = s.slots n.cell) :
    ∀ l ∈ f.cells, t.slots l = s.slots l := by
  intro l hl
  rw [← map_cell_nodes] at hl
  obtain ⟨n, hn, rfl⟩ := List.mem_map.mp hl
  exact h n (List.mem_append_left _ hn)

/-- What a complement makes of a value does not pass the fact. -/
theorem Suits.turned (ih : Fulfils k) (h : f.Suits w v ls) (hg : exec f.complement w = (.ok (some g), z))
    (hrun : exec (mutateWithin k g v) z = (.ok y, u)) : f.verdict? u.store y ≠ some true := by
  obtain ⟨hwhole, hext⟩ := h.serves.complement_worked h.whole hg
  obtain ⟨hserves, hopposes⟩ := h.serves.complement h.tree hg
  have htree : z.store.Unfolds [v] ls := h.tree.keep h.whole.owned (fun l hl => by
    obtain ⟨o, ho⟩ := exists_get? (h.tree.lt l hl)
    rw [hext.grows l o ho, ho]) hext.sameGiven
  have hsuits : g.Suits z v ls := ⟨hwhole, hserves, htree, h.nodup⟩
  have hf : f.Suits z v ls :=
    ⟨hwhole, h.serves.keep (fun n hn => hext.slots (h.serves.cells n hn).1) hext.size_le hext.sameGiven, htree, h.nodup⟩
  have hworked := (hsuits.worked hrun).1
  have hend : Opposes u.store f g := hopposes.congr fun l hl => by
    rcases List.mem_append.mp hl with hl | hl
    · exact slots_of_node (fun n hn => hf.serves.slots hworked (List.Subset.refl ls) hn) l hl
    · exact slots_of_node (fun n hn => hsuits.slots hrun hn) l hl
  exact fun htrue => ih hsuits hrun (hend.verdict htrue)

/-- A negation answers what its fact does not pass. -/
theorem Suits.negation {n : Int} (ih : Fulfils k) (h : (Fact.negation c f n noted).Suits w v ls)
    (hrun : exec (mutateWithin (k + 1) (.negation c f n noted) v) w = (.ok y, u)) :
    (Fact.negation c f n noted).verdict? u.store y ≠ some false := by
  have hf : f.Suits w v ls := h.of h.serves.formed.2 fun n hn => .tail _ hn
  have hnot : ∀ {s : Store}, f.verdict? s y ≠ some true → (Fact.negation c f n noted).verdict? s y ≠ some false := by
    intro s hf hfalse
    obtain ⟨b, hb, hnot⟩ := Option.map_eq_some_iff.mp hfalse
    cases b
    · cases hnot
    · exact hf hb
  replace hrun : exec (mutateNegation (mutateWithin k) (.negation c f n noted) f n v) w = (.ok y, u) := hrun
  unfold mutateNegation at hrun
  simp only [h.serves.stateless, Bool.false_eq_true, if_false, pure_bind] at hrun
  obtain ⟨r, _, hr, hrun⟩ := exec_bind_ok hrun
  obtain rfl := (hf.serves.quiet v).eq_of_exec hr
  split at hrun
  · next hok =>
    cases hrun
    refine hnot fun htrue => ?_
    rw [hf.verdict hr] at htrue
    rw [Option.some.inj htrue] at hok
    cases hok
  obtain ⟨o, t, ho, hrun⟩ := exec_bind_ok hrun
  cases o with
  | some g => exact hnot (hf.turned ih ho hrun)
  | none =>
    obtain ⟨o, z, ho, hrun⟩ := exec_bind_ok hrun
    cases o with
    | none =>
      obtain ⟨d, _, -, hrun⟩ := exec_bind_ok hrun
      exact absurd (congrArg Prod.fst hrun) giveUp_ne_ok
    | some x =>
      cases hrun
      have haccepted := Search.accepted_drawUntil (fun x => (hf.serves.quiet x).bind fun _ => quiet_pure) ho
      obtain ⟨r, _, hr, hviolates⟩ := exec_bind_ok haccepted
      refine hnot fun htrue => ?_
      rw [hf.verdict hr] at htrue
      rw [exec_pure, Option.some.inj htrue] at hviolates
      cases hviolates

theorem Suits.labeled {name : String} (ih : Fulfils k) (h : (Fact.labeled c name f noted).Suits w v ls)
    (hrun : exec (mutateWithin (k + 1) (.labeled c name f noted) v) w = (.ok y, u)) :
    (Fact.labeled c name f noted).verdict? u.store y ≠ some false := by
  have hf : f.Suits w v ls := h.of h.serves.formed.2 fun n hn => .tail _ hn
  have hverdict : f.verdict? u.store y ≠ some false := ih hf hrun
  exact hverdict

/-! ## Parts -/

/-- Work on parts of a tree and what it adds are apart from the value that they are parts of. -/
theorem Suits.apart {t s' : Store} (h : g.Suits w v ls) (hroot : ∀ l, v = .ref l → l ∉ ks)
    (hretouches : t.Retouches v s') : ∀ l < t.size, l ∈ ks ∨ w.store.size ≤ l → s'.get? l = t.get? l := by
  refine fun l hlt hgrown => hretouches.other l hlt fun heq => ?_
  subst heq
  exact hgrown.elim (hroot l rfl) fun hle => Nat.not_lt.mpr hle (h.tree.lt l h.tree.root_mem)

/-- A verdict on what parts of a tree have become stays when the value that they are parts of is changed. -/
theorem Suits.retouched {t s' : Store} (h : g.Suits w v ls) (hf : f.Serves w.store ls) (hks : ks ⊆ ls)
    (hroot : ∀ l, v = .ref l → l ∉ ks) (hworked : w.store.Worked ks t) (hretouches : t.Retouches v s')
    (hy : y.Within (w.store.grown ks t)) : f.verdict? s' y = f.verdict? t y := by
  refine hf.verdict?_grown hks hworked (h.apart hroot hretouches) (fun n hn => ?_) hretouches.given hy
  obtain ⟨hlt, hnot⟩ := (hf.worked hworked hks).cells n hn
  refine slots_of_same (hretouches.other _ hlt fun heq => hnot ?_)
  have htree := h.tree
  rw [heq] at htree
  exact htree.root_mem

/-- A part that has been mutated and written back is found, or nothing is, and does not fail. -/
theorem Suits.written {q : Value} (ih : Fulfils k) (h : n.Suits w v ls) (ha : a.Tentative) (hf : f.Formed)
    (hnodes : ∀ m ∈ f.everyNode, m ∈ n.everyNode) (hx : a.get w.store v = .ok x)
    (hpresent : x.isAbsent = false ∨ a.Direct) (hrun : exec (mutateWithin k f x) w = (.ok y, z))
    (hwrite : exec (a.write v y) z = (.ok q, u)) :
    ∃ part, a.get u.store q = .ok part ∧ (part = y ∨ part.isAbsent = true ∧ ¬ a.Direct) ∧
      f.verdict? u.store y ≠ some false := by
  have hset : a.set z.store v y = .ok (q, u.store) := by
    rw [exec_write] at hwrite
    split at hwrite
    · next hset =>
      cases hwrite
      exact hset
    · cases hwrite
  by_cases hvariant : ∃ cls, a = .variant cls
  · -- the part is the value itself, and nothing is written
    obtain ⟨cls, rfl⟩ := hvariant
    have hxv : x = v := by
      cases hx
      cases hinstance : (w.store.view v).isInstance cls with
      | true => rfl
      | false =>
        rw [hinstance] at hpresent
        cases hpresent.resolve_right fun h => h
    obtain ⟨rfl, hstore⟩ := Prod.mk.inj (Except.ok.inj hset)
    rw [← hstore]
    refine ⟨_, rfl, ?_, ih (h.of hf hnodes) (hxv ▸ hrun)⟩
    split
    · exact .inl rfl
    · exact .inr ⟨rfl, fun h => h⟩
  · obtain ⟨ks, hpart⟩ := ha.part (fun cls heq => hvariant ⟨cls, heq⟩) h.tree h.nodup h.whole.owned hx hpresent
    have hsuits : f.Suits w x ks := h.part hpart hf hnodes
    obtain ⟨hworked, hplaces⟩ := hsuits.worked hrun
    have hsame : ∀ l ∈ ls, l ∉ ks → z.store.get? l = w.store.get? l := fun l hl hnot =>
      hworked.same l (h.tree.lt l hl) hnot
    obtain ⟨hretouches, part, hread, hpart'⟩ := ha.stored (s := z.store) (h.tree.within v (List.mem_singleton_self v))
      (by
        rintro o (⟨l, -, heq⟩ | ⟨o', heq, ho⟩)
        · cases heq
        · cases heq
          exact ho.keep hworked.given)
      (by
        rintro l o rfl ho
        rw [hsame l h.tree.root_mem (hpart.root l rfl)] at ho
        exact Accessor.complete_of_unfolds h.tree l o rfl ho)
      (hpart.again z.store hworked.given hsame) hpresent hset
    refine ⟨part, hread, hpart', ?_⟩
    rw [h.retouched (h.serves.part hf hnodes (List.Subset.refl ls)) hpart.sub.subset hpart.root hworked hretouches
      hplaces]
    exact ih hsuits hrun

theorem Suits.lens (ih : Fulfils k) (h : (Fact.lens c a f noted).Suits w v ls)
    (hrun : exec (mutateWithin (k + 1) (.lens c a f noted) v) w = (.ok y, u)) :
    (Fact.lens c a f noted).verdict? u.store y ≠ some false := by
  have ha : a.Direct := h.serves.elementary _ (self_mem_everyNode _)
  obtain ⟨o, _, ho, hrun⟩ := exec_bind_ok hrun
  obtain rfl := quiet_part?.eq_of_exec ho
  rcases exec_part? ho with ⟨x, rfl, hx⟩ | ⟨rfl, -⟩
  · obtain ⟨x', z, hx', hrun⟩ := exec_bind_ok hrun
    obtain ⟨part, hread, hpart, hverdict⟩ := h.written ih ha.tentative h.serves.formed.2
      (fun n hn => .tail _ hn) hx (.inr ha) (exec_mapFault_ok hx') hrun
    obtain rfl := hpart.resolve_right fun hnot => hnot.2 ha
    simp only [verdict?, hread]
    exact hverdict
  · obtain ⟨r, _, -, hrun⟩ := exec_bind_ok hrun
    exact absurd (congrArg Prod.fst hrun) giveUp_ne_ok

theorem Suits.prism (ih : Fulfils k) (h : (Fact.prism c a f noted).Suits w v ls)
    (hrun : exec (mutateWithin (k + 1) (.prism c a f noted) v) w = (.ok y, u)) :
    (Fact.prism c a f noted).verdict? u.store y ≠ some false := by
  have ha : a.Tentative := h.serves.elementary _ (self_mem_everyNode _)
  obtain ⟨o, _, ho, hrun⟩ := exec_bind_ok hrun
  obtain rfl := quiet_part?.eq_of_exec ho
  rcases exec_part? ho with ⟨x, rfl, hx⟩ | ⟨rfl, e, he, hmissing⟩
  · replace hrun : exec (if x.isAbsent then pure v else do
        let y ← Act.mapFault (Fault.under (prismTag a)) (mutateWithin k f x)
        a.write v y) w = (.ok y, u) := hrun
    split at hrun
    · next habsent =>
      cases hrun
      simp only [verdict?, hx, habsent, if_true]
      exact ne_false_of_true rfl
    · next hpresent =>
      obtain ⟨x', z, hx', hrun⟩ := exec_bind_ok hrun
      obtain ⟨part, hread, hpart, hverdict⟩ := h.written ih ha h.serves.formed.2
        (fun n hn => .tail _ hn) hx (.inl (Bool.eq_false_iff.mpr hpresent)) (exec_mapFault_ok hx') hrun
      simp only [verdict?, hread]
      split
      · exact ne_false_of_true rfl
      · next hsome =>
        obtain rfl := hpart.resolve_right fun hnot => hsome hnot.1
        exact hverdict
  · cases hrun
    simp only [verdict?, he, hmissing, if_true]
    exact ne_false_of_true rfl

/-! ## Sequences -/

/-- Elements that are mutated one after the other do not fail, whatever becomes of the others. -/
theorem fulfilled_elements (ih : Fulfils k) : ∀ {xs ys : List Value} {ks : List Loc} {i : Nat} {w : World},
    w.store.Whole → f.Serves w.store ks → w.store.Unfolds xs ks → ks.Nodup →
      exec (mutateElements (mutateWithin k f) i xs) w = (.ok ys, u) → ∀ y ∈ ys, f.verdict? u.store y ≠ some false := by
  intro xs
  induction xs with
  | nil =>
    intro ys ks i w _ _ _ _ hrun
    cases hrun
    exact List.forall_mem_nil _
  | cons x xs ihxs =>
    intro ys ks i w hw hf hxs hnd hrun
    obtain ⟨y, t, hy, hrun⟩ := exec_bind_ok hrun
    obtain ⟨zs, _, hzs, hrun⟩ := exec_bind_ok hrun
    cases hrun
    obtain ⟨ks, ms, rfl, hx, hxs⟩ := hxs.of_cons
    obtain ⟨hks, hms, hdisjoint⟩ := List.nodup_append.mp hnd
    have hapart : ∀ l ∈ ms, l ∉ ks := fun l hl hmem => hdisjoint l hmem l hl rfl
    have hsub : ks ⊆ ks ++ ms := List.subset_append_left ks ms
    have hsuits : f.Suits w x ks := ⟨hw, hf.part hf.formed (fun n hn => hn) hsub, hx, hks⟩
    have hrun' := exec_mapFault_ok hy
    obtain ⟨hworked, hplaces⟩ := hsuits.worked hrun'
    -- the elements to come lie elsewhere, and are the same trees
    have hrest : f.Serves t.store ms :=
      (hf.worked hworked hsub).part hf.formed (fun n hn => hn) (List.subset_append_right ks ms)
    have htrees := hworked.unfolds hw.owned hxs hapart
    obtain ⟨hworked', -⟩ := hrest.mutateElements hworked.whole htrees hzs
    refine List.forall_mem_cons.mpr ⟨?_, ihxs hworked.whole hrest htrees hms hzs⟩
    rw [hf.verdict?_grown hsub hworked (fun l hlt hgrown => ?_)
      (fun n hn => hrest.slots hworked' (List.Subset.refl ms) hn) hworked'.given hplaces]
    · exact ih hsuits hrun'
    · refine hworked'.same l hlt fun hmem => ?_
      exact hgrown.elim (hapart l hmem) fun hle => Nat.not_lt.mpr hle (hxs.lt l hmem)

theorem rebuilt_of_exec {ys : List Value} (h : exec (fact.rebuild v ys) w = (.ok y, u)) :
    w.store.rebuild v ys = .ok (y, u.store) := by
  rw [rebuild, exec_bind, exec_get] at h
  dsimp only at h
  split at h
  · next q s hok =>
    cases h
    exact hok
  · obtain ⟨r, _, -, h⟩ := exec_bind_ok h
    exact absurd (congrArg Prod.fst h) giveUp_ne_ok

theorem Suits.each (ih : Fulfils k) (h : (Fact.each c f noted).Suits w v ls)
    (hrun : exec (mutateWithin (k + 1) (.each c f noted) v) w = (.ok y, u)) :
    (Fact.each c f noted).verdict? u.store y ≠ some false := by
  have hf : f.Serves w.store ls := h.serves.part h.serves.formed.2 (fun n hn => .tail _ hn) (List.Subset.refl ls)
  obtain ⟨xs, _, hxs, hrun⟩ := exec_bind_ok hrun
  obtain rfl := quiet_elements.eq_of_exec hxs
  obtain ⟨ys, t, hys, hrun⟩ := exec_bind_ok hrun
  obtain ⟨ks, htree, hsub, hroot⟩ := h.tree.elements h.nodup (exec_elements hxs)
  have hserves := hf.part hf.formed (fun n hn => hn) hsub.subset
  obtain ⟨hworked, hplaces⟩ := hserves.mutateElements h.whole htree hys
  obtain ⟨hretouches, helements⟩ := h.tree.rebuilt (exec_elements hxs) hworked.whole (fun l heq => by
    subst heq
    exact hworked.same l (h.tree.lt l h.tree.root_mem) (hroot l rfl)) (fun y hy => bound_of_grown (hplaces y hy))
    (rebuilt_of_exec hrun)
  rw [verdict?, helements, Option.bind_some]
  refine every_ne_false fun x hx => ?_
  rw [h.retouched hf hsub.subset hroot hworked hretouches (hplaces x hx)]
  exact fulfilled_elements ih h.whole hserves htree (h.nodup.sublist hsub) hys x hx

/-! ### Pairs and lengths -/

theorem Suits.same {g : Option Generator} {n : Int} (h : (Fact.pair c true g n).Suits w v ls)
    (hrun : exec (mutateWithin (k + 1) (.pair c true g n) v) w = (.ok y, u)) :
    (Fact.pair c true g n).verdict? u.store y ≠ some false := by
  obtain ⟨⟨a, b⟩, _, hp, hrun⟩ := exec_bind_ok hrun
  obtain rfl := quiet_items.eq_of_exec hp
  obtain ⟨ks, htree, -, hroot⟩ := h.tree.elements h.nodup (exec_items hp)
  obtain ⟨hretouches, helements⟩ := withFirst_elements (exec_items hp) hrun
  have hkept : u.store.Unfolds [a, b] ks := htree.keep h.whole.owned
    (fun l hl => hretouches.other l (htree.lt l hl) fun heq => hroot l heq hl) hretouches.given
  intro hfalse
  simp only [verdict?, helements] at hfalse
  obtain ⟨same, hsame, hne⟩ := Option.map_eq_some_iff.mp hfalse
  cases same
  · exact hkept.equal_self b (by simp) deepest hsame
  · cases hne

theorem elements?_of_root {s t : Store} (h : ∀ l, v = .ref l → t.get? l = s.get? l) :
    t.elements? v = s.elements? v := by
  cases v with
  | ref l => simp only [elements?, h l rfl]
  | atom a => cases a <;> rfl
  | _ => rfl

/-- A first item that has been found to differ from the second one still does when it has been put in. -/
theorem Suits.distinct {g : Option Generator} {n : Int} (h : (Fact.pair c false g n).Suits w v ls)
    (hrun : exec (mutateWithin (k + 1) (.pair c false g n) v) w = (.ok y, u)) :
    (Fact.pair c false g n).verdict? u.store y ≠ some false := by
  obtain ⟨⟨a, b⟩, _, hp, hrun⟩ := exec_bind_ok hrun
  obtain rfl := quiet_items.eq_of_exec hp
  obtain ⟨ks, htree, hsub, hroot⟩ := h.tree.elements h.nodup (exec_items hp)
  obtain ⟨o, z, ho, hrun⟩ := exec_bind_ok hrun
  cases o with
  | none =>
    obtain ⟨r, _, -, hrun⟩ := exec_bind_ok hrun
    exact absurd (congrArg Prod.fst hrun) giveUp_ne_ok
  | some x =>
    have hwithin : ∀ x ∈ [a, b], x.Within (Arena.around w.store (w.store.ground ks) False).values := fun x hx =>
      (htree.within x hx).mono subset_around
    have hdraws : Draws (Arena.around w.store (w.store.ground ks) False) g :=
      h.serves.generators _ (self_mem_everyNode _) _ (barren_subset.trans subset_around)
    obtain ⟨hworked, hx, hbound⟩ := Serves.work h.whole htree
      (Arena.runs_search (fun _ _ => Arena.runs_differs)
        (fun _ _ => Arena.runs_drawCandidate hdraws (hwithin b (by simp))) (hwithin a (by simp)))
      (sound_search (fun _ _ _ _ => sound_differs)
        (fun _ m hm _ => sound_drawCandidate (Nat.le_trans (htree.bound b (by simp)) hm)) (htree.bound a (by simp)))
      Arena.thrifty_searchDifferent ho
    have hfirst : z.store.elements? v = some [a, b] := by
      rw [elements?_of_root fun l heq => ?_, exec_items hp]
      subst heq
      exact hworked.same l (h.tree.lt l h.tree.root_mem) (hroot l rfl)
    obtain ⟨hretouches, helements⟩ := withFirst_elements hfirst hrun
    obtain ⟨same, _, hsame, hnot⟩ := exec_bind_ok
      (Search.accepted_run (fun _ => quiet_equal.bind fun _ => quiet_pure) ho)
    have himage : Image ⟨id, id⟩ (w.store.grown ks z.store) True z.store u.store :=
      .of_sameGiven hworked.region hworked.whole.owned (fun l hl => h.apart hroot hretouches l (mem_grown.mp hl).2
        (mem_grown.mp hl).1) hretouches.given
    have hequal : u.store.equal? x b = some same := by
      rw [himage.equal?_same (fun p hp => ⟨hx x rfl p hp, Value.within_upTo.mpr (hbound x rfl) p hp⟩)
        ((htree.within b (by simp)).mono (ground_subset_grown htree.lt hworked.size)), exec_equal_ok hsame]
    simp only [verdict?, helements, hequal]
    cases same
    · exact ne_false_of_true rfl
    · cases hnot

/-- The elements that there are and those that are drawn make up the number asked for. -/
theorem Suits.length {n : Int} {g : Option Generator} (h : (Fact.length c n g).Suits w v ls)
    (hrun : exec (mutateWithin (k + 1) (.length c n g) v) w = (.ok y, u)) :
    (Fact.length c n g).verdict? u.store y ≠ some false := by
  have hn : 0 ≤ n := h.serves.elementary _ (self_mem_everyNode _)
  obtain ⟨o, _, ho, hrun⟩ := exec_bind_ok hrun
  cases ho
  cases hfirst : w.store.firstElements? v n.toNat with
  | none =>
    simp only [hfirst] at hrun
    cases hrun
  | some xs =>
    simp only [hfirst] at hrun
    obtain ⟨more, z, hmore, hrun⟩ := exec_bind_ok hrun
    obtain ⟨zs, hzs, rfl⟩ := elements?_of_first hfirst
    have hbound := h.tree.bound v (List.mem_singleton_self v)
    have hsound : Act.Sound w.store.size ((List.replicate (n.toNat - (zs.take n.toNat).length) ()).mapM
        fun _ => (Fact.length c n g).drawElement c g v) BoundedAll :=
      sound_mapValues fun _ _ j hj => sound_drawElement (Nat.le_trans hbound hj)
    have hadds : (Arena.additions w.store).Runs ((List.replicate (n.toNat - (zs.take n.toNat).length) ()).mapM
        fun _ => (Fact.length c n g).drawElement c g v) fun _ => True :=
      (Arena.runs_mapM fun _ _ => Arena.runs_drawElement Arena.readable_additions draws_additions
        Value.within_univ).mono fun _ _ => trivial
    obtain ⟨⟨hsize, hwhole⟩, hbounded⟩ := hsound w h.whole (Nat.le_refl _)
    have hframe := (hadds w (Arena.holds_additions h.whole.owned)).1.frame
    rw [hmore] at hsize hwhole hbounded hframe
    have hlength : more.length = n.toNat - (zs.take n.toNat).length := by
      obtain ⟨r, z', hinOrder⟩ := exists_inOrder (fun _ => (Fact.length c n g).drawElement c g v)
        (List.replicate (n.toNat - (zs.take n.toNat).length) ()) w
      have hr := hinOrder.exec_mapM.symm.trans hmore
      cases r with
      | error e => cases hr
      | ok ys =>
        obtain rfl : ys = more := by
          cases hr
          rfl
        rw [hinOrder.length_eq rfl, List.length_replicate]
    have helementsBound : ∀ y ∈ zs.take n.toNat ++ more, y.bound ≤ z.store.size := by
      intro y hy
      rcases List.mem_append.mp hy with hy | hy
      · have hzsBound := Value.boundAll_le.mp (elements?_bound h.whole hbound hzs)
        exact Nat.le_trans (hzsBound y (List.mem_of_mem_take hy)) hsize
      · exact Value.boundAll_le.mp (hbounded more rfl) y hy
    obtain ⟨-, helements⟩ := h.tree.rebuilt hzs hwhole (fun l heq => by
      subst heq
      exact hframe.get_old (h.tree.lt l h.tree.root_mem)) helementsBound (rebuilt_of_exec hrun)
    rw [verdict?, helements, Option.map_some, List.length_append, hlength]
    refine ne_false_of_true (congrArg some (beq_iff_eq.mpr ?_))
    rw [List.length_take]
    omega

/-! ## Facts -/

/-- What an elementary fact makes of a tree does not fail the fact. -/
theorem fulfils : ∀ k, Fulfils k := by
  intro k
  induction k with
  | zero =>
    intro f v y w u ls _ hrun
    cases hrun
  | succ k ih =>
    intro f v y w u ls h hrun
    have helementary := h.serves.elementary f (self_mem_everyNode f)
    cases f with
    | always c => exact ne_false_of_true rfl
    | never c reason => exact absurd (congrArg Prod.fst hrun) giveUp_ne_ok
    | equality c equal g n =>
      cases equal with
      | true => exact h.reference hrun
      | false => exact h.different hrun
    | membership c => exact h.membership hrun
    | range c inside => exact h.range hrun
    | pair c equal g n =>
      cases equal with
      | true => exact h.same hrun
      | false => exact h.distinct hrun
    | counter c => exact helementary.elim
    | distinct c g n => exact helementary.elim
    | all c fs n b => exact h.all hrun
    | either c f g b => exact h.either ih hrun
    | negation c f n b => exact h.negation ih hrun
    | lens c a f b => exact h.lens ih hrun
    | prism c a f b => exact h.prism ih hrun
    | each c f b => exact h.each ih hrun
    | length c n g => exact h.length hrun
    | mapped c name tests fs f => exact helementary.elim
    | predicate c name test => exact absurd (congrArg Prod.fst hrun) giveUp_ne_ok
    | brute c name test g n => exact Suits.brute hrun
    | choice c o b =>
      cases o with
      | none => exact h.candidate hrun
      | some f => exact helementary.elim
    | labeled c name f b => exact h.labeled ih hrun
    | foreign c kind => exact helementary.elim

/-- A check of what mutation answers passes, if it reports at all: for every fact of the stateless algebra, whatever is
combined, negated or focused on in it, every finite tree, and every source. A comparison with a NaN is left out. -/
theorem passes_of_mutate {r : Report} (h : f.Suits w v ls) (hrun : exec (f.mutate v) w = (.ok y, u))
    (hcheck : exec (f.check y) u = (.ok r, z)) : r.ok = true := by
  have hverdict := h.verdict hcheck
  cases hok : r.ok with
  | true => rfl
  | false => exact absurd (hverdict.trans (congrArg some hok)) (fulfils f.depth h hrun)

end

/-! ## A document -/

/-- A mapping under `age` that is to hold no minor's age, and under `scores` scores that are to be at most ten. -/
def recordFact : Fact :=
  .all 2 [.lens 3 (.item "age" (.text "age")) (.negation 4 (.range 5 true) 100 false) false,
    .lens 6 (.item "scores" (.text "scores")) (.each 7 (.range 8 true) false) false] 100 false

/-- A list of scores, a mapping with it and an age, and the cells of `recordFact`. -/
def recordWorld : World where
  store := ⟨#[.list [.int 3, .int 50], .mapping [(.text "age", .int 12), (.text "scores", .ref 0)], .slots [],
    .slots [], .slots [], .slots [.int 0, .int 17], .slots [], .slots [], .slots [.null, .int 10]], spelledMarks, []⟩
  source := .tape [7] 0
  log := #[]

theorem serves_recordFact : recordFact.Serves recordWorld.store [1, 0] where
  formed := ⟨rfl, ⟨rfl, ⟨rfl, rfl⟩, trivial⟩, ⟨rfl, rfl, trivial⟩, trivial⟩
  elementary := by
    have htext : ∀ t : String, (Value.text t).places = [] := fun _ => rfl
    simp [recordFact, everyNode, nodes, nodesAll, chosen, chosenAll, Elementary, Accessor.Direct, htext]
  cells := by decide +kernel
  held := by
    have hplaces : ∀ n ∈ recordFact.everyNode, ∀ y ∈ recordWorld.store.slots n.cell, y.places.isEmpty = true := by
      decide +kernel
    intro n hn y hy p hp
    rw [List.isEmpty_iff.mp (hplaces n hn y hy)] at hp
    cases hp
  furnished := by
    simp only [recordFact, everyNode, nodes, nodesAll, chosen, chosenAll, List.append_nil, List.cons_append,
      List.nil_append, List.forall_mem_cons, Furnished, true_and]
    exact ⟨⟨.inr ⟨0, rfl⟩, .inr ⟨17, rfl⟩⟩, ⟨.inl rfl, .inr ⟨10, rfl⟩⟩, List.forall_mem_nil _⟩
  generators := by
    have hnone : ∀ n ∈ recordFact.everyNode, n.generator?.isNone = true := by decide +kernel
    intro n hn A _ x hx
    rw [Option.isNone_iff_eq_none.mp (hnone n hn)] at hx
    cases hx

theorem suits_recordFact : recordFact.Suits recordWorld (.ref 1) [1, 0] where
  whole := Store.Whole.of_bound (by decide) rfl
  serves := serves_recordFact
  tree := by
    have hatom : ∀ {a : Atom} {xs : List Value} {ls : List Loc}, a.IsLeaf → a.owner? = none →
        recordWorld.store.Unfolds xs ls → recordWorld.store.Unfolds (.atom a :: xs) ls := fun hleaf ha h =>
      .atom hleaf (Value.within_atom.mpr fun o ho => by rw [ha] at ho; cases ho) h
    have hscores : recordWorld.store.Unfolds [.ref 0] [0] :=
      .ref (o := .list [.int 3, .int 50]) rfl trivial (hatom trivial rfl (hatom trivial rfl .nil)) .nil
    have hkeys : recordWorld.store.Proper (.mapping [(.text "age", .int 12), (.text "scores", .ref 0)]) :=
      List.pairwise_pair.mpr (by decide +kernel)
    exact .ref rfl hkeys (hatom (a := .text "age") trivial rfl (hatom (a := .int 12) trivial rfl
      (hatom (a := .text "scores") trivial rfl hscores))) .nil
  nodup := by decide

/-- The age is made one of an adult and the score too high one that is not, in the same mapping. -/
theorem passes_of_mutate_record : ∃ u r, exec (recordFact.mutate (.ref 1)) recordWorld = (.ok (.ref 1), u) ∧
    exec (recordFact.check (.ref 1)) u = (.ok r, u) ∧ r.ok = true := by
  have hmutate := exec_of_answers (b := recordFact.mutate (.ref 1)) (w := recordWorld) (l := 1) (by decide +kernel)
  obtain ⟨passed, r, u, hcheck, -⟩ := exists_judges (f := recordFact) (v := .ref 1)
    (w := (exec (recordFact.mutate (.ref 1)) recordWorld).2) (by decide +kernel)
  obtain rfl := (serves_recordFact.quiet (.ref 1)).eq_of_exec hcheck
  exact ⟨_, r, hmutate, hcheck, passes_of_mutate suits_recordFact hmutate hcheck⟩

end Fact

end Conform
