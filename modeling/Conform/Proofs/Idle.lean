import Conform.Proofs.Advancing
import Conform.Proofs.Satisfying
import Conform.Proofs.Verdict

/-!
# Mutating what satisfies a fact

A value that satisfies an ordinary fact is left as it is by mutation: what is answered has equal contents, all else
keeps its contents, and nothing is drawn. The answer need not be the value itself. An equality answers its reference
value, and lenses, prisms and sequences write what their facts answer, so the objects may be other ones; but writes
of equal contents cannot be seen (`Retains`), and the facts that are still to come hold as before (`Fulfilled.keep`).

A lens that reads an optional attribute finds a part where there is none. Writing it would make an entry, so the
lenses that mutation goes through have to find parts that are there (`Fact.Grounded`).
-/

namespace Conform

open Act

/-- What an action on a value leaves, and answers, that has changed nothing that can be seen. -/
structure Idle (w : World) (v : Value) (u : World) (y : Value) : Prop where
  retains : Retains w.store u.store
  agrees : Matches w.store v u.store y
  source : u.source = w.source

/-- Whether an action on a value changes nothing that can be seen if it answers. -/
def Idles (w : World) (v : Value) (a : Act Value) : Prop := ∀ y u, exec a w = (.ok y, u) → Idle w v u y

section

variable {α : Type} {w u t : World} {v x y z : Value} {f : Fact} {a : Accessor}

theorem Idle.refl (hv : v.Settled w.store) : Idle w v w v := ⟨.refl _, hv.refl, rfl⟩

theorem Idle.trans (h : Idle w v u y) (k : Idle u y t z) : Idle w v t z :=
  ⟨h.retains.trans k.retains, h.agrees.trans k.agrees, k.source.trans h.source⟩

theorem idles_pure (hv : v.Settled w.store) : Idles w v (pure v) := by
  rintro _ _ ⟨⟩
  exact .refl hv

theorem idles_misuse {m : Misuse} : Idles w v (misuse m) := nofun

theorem idles_giveUp {reason : String} {last : Option Report} : Idles w v (f.giveUp reason last) :=
  fun _ _ h => (Fact.giveUp_ne_ok (congrArg Prod.fst h)).elim

theorem idles_bind {b : Act α} {g : α → Act Value} (hb : b.Quiet)
    (hg : ∀ x, exec b w = (.ok x, w) → Idles w v (g x)) : Idles w v (b >>= g) := by
  intro y u h
  obtain ⟨x, w', hx, hrest⟩ := exec_bind_ok h
  obtain rfl := hb.eq_of_exec hx
  exact hg x hx y u hrest

theorem Accessor.Present.congr {s t : Store} (hx : Matches s x t y) (h : a.Present x) : a.Present y := by
  cases a with
  | optionalAttr n => exact hx.isAbsent.symm.trans h
  | _ => trivial

/-- Writing back a part of equal contents. -/
theorem Idle.write (h : Idle w x u y) (hs : w.store.Owned) (hv : v.Settled w.store) (ha : a.Fixed w.store w.store)
    (hget : a.get w.store v = .ok x) (hpresent : a.Present x) (hwrite : exec (a.write v y) u = (.ok z, t)) :
    Idle w v t z := by
  have hvalue : Matches w.store v u.store v := h.retains.values v hv
  obtain ⟨hfixed, hfixed'⟩ := Fact.Fixed.keep ha h.retains
  obtain ⟨x', hx', hpart⟩ := hvalue.part hs (h.retains.owned hs) hfixed hget
  -- the part read now and the one to write are both of the contents of the part read before
  have hparts : Matches u.store x' u.store y := hpart.symm.trans h.agrees
  rw [exec_write] at hwrite
  split at hwrite
  · next z' s hset =>
    cases hwrite
    obtain ⟨rfl, hretains⟩ := retains_set hvalue.right hfixed' hx' (hpresent.congr hpart) hparts hset
    exact ⟨h.retains.trans hretains, hvalue.trans (hretains.values _ hvalue.right), h.source⟩
  · cases hwrite

end

namespace Fact

mutual

/-- Whether the lenses that mutating a value goes through find parts that are there. -/
def Grounded (s : Store) : Fact → Value → Prop
  | .all _ fs _ _, v => GroundedAll s fs v
  | .lens _ a f _, v => ∀ x, a.get s v = .ok x → a.Present x ∧ Grounded s f x
  | .prism _ a f _, v => ∀ x, a.get s v = .ok x → x.isAbsent = false → Grounded s f x
  | .each _ f _, v => ∀ xs, s.elements? v = some xs → ∀ x ∈ xs, Grounded s f x
  | .choice _ (some f) _, v | .labeled _ _ f _, v => Grounded s f v
  | _, _ => True

/-- Whether those of several facts do. -/
def GroundedAll (s : Store) : List Fact → Value → Prop
  | [], _ => True
  | f :: fs, v => Grounded s f v ∧ GroundedAll s fs v

end

/-- Whether a value satisfies an ordinary fact, and has the parts that mutation writes. -/
structure Fulfilled (s : Store) (f : Fact) (v : Value) : Prop where
  ordinary : f.Ordinary s
  grounded : f.Grounded s v
  meets : f.Meets s v

section

variable {s t : Store} {w u : World} {f g fact : Fact} {fs : List Fact} {v x y : Value} {c : Loc} {a : Accessor}
  {xs ys : List Value} {b : Bool} {n : Int}

mutual

/-- Values that match have the same parts to be written. -/
theorem Grounded.keep (hk : Retains s t) (hs : s.Owned) : ∀ {f : Fact}, f.Ordinary s → ∀ {v x : Value},
    Matches s v t x → f.Grounded s v → f.Grounded t x
  | .all _ fs _ _, h, v, x, hm, hv => GroundedAll.keep hk hs h.2 hm hv
  | .lens _ a f _, h, v, x, hm, hv => by
    intro z hz
    obtain ⟨y, hy, hzy⟩ := hm.symm.part (hk.owned hs) hs (Fixed.keep h.2.1 hk).1.symm hz
    obtain ⟨hpresent, hpart⟩ := hv y hy
    exact ⟨hpresent.congr hzy.symm, Grounded.keep hk hs h.2.2 hzy.symm hpart⟩
  | .prism _ a f _, h, v, x, hm, hv => by
    intro z hz hpresent
    obtain ⟨y, hy, hzy⟩ := hm.symm.part (hk.owned hs) hs (Fixed.keep h.2.1 hk).1.symm hz
    exact Grounded.keep hk hs h.2.2 hzy.symm (hv y hy (hzy.isAbsent.symm.trans hpresent))
  | .each _ f _, h, v, x, hm, hv => by
    intro zs hzs z hz
    obtain ⟨ys, hys, y, hy, hzy⟩ := hm.symm.element hzs hz
    exact Grounded.keep hk hs h.2 hzy.symm (hv ys hys y hy)
  | .choice _ (some f) _, h, v, x, hm, hv => Grounded.keep hk hs h.2.2 hm hv
  | .labeled _ _ f _, h, v, x, hm, hv => Grounded.keep hk hs h.2 hm hv
  | .always _, _, _, _, _, _ | .equality _ _ _ _, _, _, _, _, _ | .membership _, _, _, _, _, _
  | .range _ _, _, _, _, _, _ | .either _ _ _ _, _, _, _, _, _ | .negation _ _ _ _, _, _, _, _, _
  | .length _ _ _, _, _, _, _, _ | .choice _ none _, _, _, _, _, _ => trivial
  | .never _ _, h, _, _, _, _ | .pair _ _ _ _, h, _, _, _, _ | .counter _, h, _, _, _, _
  | .distinct _ _ _, h, _, _, _, _ | .mapped _ _ _ _ _, h, _, _, _, _ | .predicate _ _ _, h, _, _, _, _
  | .brute _ _ _ _ _, h, _, _, _, _ | .foreign _ _, h, _, _, _, _ => h.elim

theorem GroundedAll.keep (hk : Retains s t) (hs : s.Owned) : ∀ {fs : List Fact}, OrdinaryAll s fs → ∀ {v x : Value},
    Matches s v t x → GroundedAll s fs v → GroundedAll t fs x
  | [], _, _, _, _, _ => trivial
  | _ :: _, h, _, _, hm, hv => ⟨Grounded.keep hk hs h.1 hm hv.1, GroundedAll.keep hk hs h.2 hm hv.2⟩

end

/-- A fact that is fulfilled is so by every value of equal contents. -/
theorem Fulfilled.keep (h : Fulfilled s f v) (hk : Retains s t) (hs : s.Owned) (hm : Matches s v t x) :
    Fulfilled t f x where
  ordinary := h.ordinary.keep hk
  grounded := h.grounded.keep hk hs h.ordinary hm
  meets := (meets_congr hk hs h.ordinary hm).mp h.meets

theorem Fulfilled.check (h : Fulfilled w.store f v) (hs : w.store.Owned) (hv : v.Settled w.store) {r : Report}
    (hr : exec (f.check v) w = (.ok r, u)) : r.ok = true :=
  (Judges.meets ⟨r, u, hr, rfl⟩ hs h.ordinary hv).mpr h.meets

/-- Each member of a conjunction that is fulfilled. -/
theorem Fulfilled.members (h : Fulfilled s (.all c fs n b) v) : ∀ f ∈ fs, Fulfilled s f v := by
  obtain ⟨⟨-, hordinary⟩, hgrounded, hmeets⟩ := h
  replace hgrounded : GroundedAll s fs v := hgrounded
  replace hmeets : MeetsAll s fs v := hmeets
  induction fs with
  | nil => exact nofun
  | cons f fs ih =>
    refine List.forall_mem_cons.mpr ⟨?_, ih hordinary.2 hgrounded.2 hmeets.2⟩
    exact ⟨hordinary.1, hgrounded.1, hmeets.1⟩

/-! ## Sparing -/

theorem idles_mutateDifferent {k : Int} {d : Option Generator} (hv : v.Settled w.store)
    (h : Fulfilled w.store (.equality c false d k) v) : Idles w v (mutateDifferent fact c d k v) := by
  refine idles_bind quiet_ask fun x hx => ?_
  cases hx
  intro y u hrun
  obtain ⟨o, u', ho, hrest⟩ := exec_bind_ok hrun
  obtain ⟨differs, u'', hdiffers, ho⟩ := exec_bind_ok ho
  obtain ⟨same, u₁, hsame, hpure⟩ := exec_bind_ok hdiffers
  obtain rfl := quiet_equal.eq_of_exec hsame
  cases hpure
  have hsame : same = false := by
    rw [Bool.eq_false_iff]
    intro heq
    have hmatches := (Store.equal?_iff hv (settled_slot h.ordinary 0) (exec_equal_ok hsame)).mp heq
    exact Bool.false_ne_true (h.meets.mp hmatches)
  -- the search accepts the value that it starts from
  subst hsame
  cases ho
  cases hrest
  exact .refl hv

theorem idles_mutateMembership (hv : v.Settled w.store) (h : Fulfilled w.store (.membership c) v) :
    Idles w v (mutateMembership fact c v) := by
  refine idles_bind quiet_ask fun xs hxs => idles_bind quiet_isIn fun found hfound => ?_
  cases hxs
  have hmem : found = true := (Store.isIn?_iff hv h.ordinary (exec_isIn_ok hfound)).mpr h.meets
  rw [if_pos hmem]
  exact idles_pure hv

theorem idles_mutateInside (hv : v.Settled w.store) (h : Fulfilled w.store (.range c true) v) :
    Idles w v (mutateInside fact c v) := by
  refine idles_bind quiet_ask fun low _ => idles_bind quiet_ask fun high _ => ?_
  have hrest : Idles w v (do
      if (← checkRange c true v).ok then return v
      let floating ← anyFloat [low, high, v]
      drawBetween (← fillEnds low high floating) floating) := by
    refine idles_bind quiet_checkRange fun r hr => ?_
    rw [if_pos ((ok_of_checkRange hr).trans (beq_iff_eq.mpr h.meets))]
    exact idles_pure hv
  -- an empty range is given up before the value is looked at
  split
  · refine idles_bind quiet_view fun dh _ => idles_bind quiet_view fun dl _ => ?_
    split
    · exact idles_bind quiet_misuse nofun
    · refine idles_bind quiet_ask fun _ _ => idles_bind quiet_written fun _ _ => ?_
      exact idles_bind quiet_giveUp fun _ hgive => (giveUp_ne_ok (congrArg Prod.fst hgive)).elim
    · exact hrest
  · exact hrest

theorem idles_mutateOutside (hv : v.Settled w.store) (h : Fulfilled w.store (.range c false) v) :
    Idles w v (mutateOutside fact c v) := by
  refine idles_bind quiet_checkRange fun r hr => ?_
  rw [if_pos ((ok_of_checkRange hr).trans (beq_iff_eq.mpr h.meets))]
  exact idles_pure hv

/-! ## Parts -/

theorem idles_mutateLens {step : Value → Act Value} (hs : w.store.Owned) (hv : v.Settled w.store)
    (ha : a.Fixed w.store w.store)
    (hstep : ∀ x, a.get w.store v = .ok x → a.Present x ∧ Idles w x (step x)) :
    Idles w v (mutateLens step fact a v) := by
  refine idles_bind quiet_part? fun o ho => ?_
  rcases exec_part? ho with ⟨x, rfl, hget⟩ | ⟨rfl, -⟩
  · obtain ⟨hpresent, hidles⟩ := hstep x hget
    intro z t hrun
    obtain ⟨y, u, hy, hwrite⟩ := exec_bind_ok hrun
    exact (hidles y u (exec_mapFault_ok hy)).write hs hv ha hget hpresent hwrite
  · exact idles_bind quiet_render fun _ _ => idles_giveUp

theorem idles_mutatePrism {step : Value → Act Value} (hs : w.store.Owned) (hv : v.Settled w.store)
    (ha : a.Fixed w.store w.store)
    (hstep : ∀ x, a.get w.store v = .ok x → x.isAbsent = false → Idles w x (step x)) :
    Idles w v (mutatePrism step a v) := by
  refine idles_bind quiet_part? fun o ho => ?_
  rcases exec_part? ho with ⟨x, rfl, hget⟩ | ⟨rfl, -⟩
  · show Idles w v (if x.isAbsent then _ else _)
    split
    · exact idles_pure hv
    · next habsent =>
      have hthere : x.isAbsent = false := Bool.eq_false_iff.mpr habsent
      have hpresent : a.Present x := by
        cases a with
        | optionalAttr n => exact hthere
        | _ => trivial
      intro z t hrun
      obtain ⟨y, u, hy, hwrite⟩ := exec_bind_ok hrun
      exact (hstep x hget hthere y u (exec_mapFault_ok hy)).write hs hv ha hget hpresent hwrite
  · exact idles_pure hv

/-! ## Sequences -/

theorem idles_rebuild (hk : Retains w.store u.store) (hsource : u.source = w.source) (hv : v.Settled w.store)
    (hxs : w.store.elements? v = some xs) (hys : List.Forall₂ (fun x y => Matches w.store x u.store y) xs ys)
    {z : Value} {t : World} (h : exec (fact.rebuild v ys) u = (.ok z, t)) : Idle w v t z := by
  have hvalue : Matches w.store v u.store v := hk.values v hv
  obtain ⟨u', u'', hget, hrest⟩ := exec_bind_ok h
  cases hget
  cases hr : u.store.rebuild v ys with
  | ok r =>
    obtain ⟨z', s⟩ := r
    obtain ⟨hmatches, hretains⟩ := retains_rebuild hvalue hxs hys hr
    simp only [hr] at hrest
    cases hrest
    exact ⟨hk.trans hretains, hvalue.trans hmatches, hsource⟩
  | error e =>
    simp only [hr] at hrest
    obtain ⟨m, u₁, -, hgive⟩ := exec_bind_ok hrest
    exact (giveUp_ne_ok (congrArg Prod.fst hgive)).elim

/-- The elements are answered with equal contents: while one is mutated, the others are kept. -/
theorem matches_mutateElements {step : Value → Act Value} {i : Nat} (hxs : ∀ x ∈ xs, x.Settled w.store)
    (hstep : ∀ x ∈ xs, ∀ u, Retains w.store u.store → Idles u x (step x))
    (h : exec (mutateElements step i xs) w = (.ok ys, u)) :
    Retains w.store u.store ∧ u.source = w.source ∧
      List.Forall₂ (fun x y => Matches w.store x u.store y) xs ys := by
  induction xs generalizing w i ys with
  | nil =>
    cases h
    exact ⟨.refl _, rfl, .nil⟩
  | cons x xs ih =>
    obtain ⟨y, u', hy, hrest⟩ := exec_bind_ok h
    obtain ⟨ys', u'', hys, hpure⟩ := exec_bind_ok hrest
    cases hpure
    have hhead : Idle w x u' y := hstep x List.mem_cons_self w (.refl _) y u' (exec_mapFault_ok hy)
    have hkept : ∀ x' ∈ xs, Matches w.store x' u'.store x' := fun x' hx' =>
      hhead.retains.values x' (hxs x' (List.mem_cons_of_mem _ hx'))
    obtain ⟨hretains, hsource, hall⟩ := ih (fun x' hx' => (hkept x' hx').right)
      (fun x' hx' t ht => hstep x' (List.mem_cons_of_mem _ hx') t (hhead.retains.trans ht)) hys
    refine ⟨hhead.retains.trans hretains, hsource.trans hhead.source, .cons ?_ ?_⟩
    · exact hhead.agrees.trans (hretains.values y hhead.agrees.right)
    · exact Data.forall₂_imp_mem hall fun x' hx' _ hxy => (hkept x' hx').trans hxy

/-- A sequence that has its length already is rebuilt from its own elements. -/
theorem idles_mutateLength {d : Option Generator} (hv : v.Settled w.store)
    (h : Fulfilled w.store (.length c n d) v) : Idles w v (mutateLength fact c n d v) := by
  refine idles_bind quiet_ask fun o ho => ?_
  cases hfirst : w.store.firstElements? v n.toNat with
  | none =>
    rw [exec_ask, hfirst] at ho
    cases ho
    exact idles_misuse
  | some xs =>
    rw [exec_ask, hfirst] at ho
    cases ho
    obtain ⟨ys, hys, rfl⟩ := Store.elements?_of_first hfirst
    have hlength : n.toNat = ys.length := by
      have hmeets : (ys.length : Int) = n := h.meets ys hys
      omega
    rw [hlength, List.take_length]
    intro z u hrun
    obtain ⟨more, u', hmore, hrebuild⟩ := exec_bind_ok hrun
    rw [Nat.sub_self] at hmore
    cases hmore
    have hitems : List.Forall₂ (fun x y => Matches w.store x w.store y) ys (ys ++ []) := by
      rw [List.append_nil]
      exact List.forall₂_same.mpr fun x hx => (settled_elements hv hys x hx).refl
    exact idles_rebuild (.refl _) rfl hv hys hitems hrebuild

/-! ## Combinations -/

/-- Whether running a fact that is fulfilled changes nothing that can be seen. -/
def Sparing (run : Fact → Value → Act Value) : Prop :=
  ∀ {f : Fact} {v : Value} {w : World}, w.store.Owned → v.Settled w.store → Fulfilled w.store f v →
    Idles w v (run f v)

variable {run : Fact → Value → Act Value}

/-- The members of a conjunction hold of what the ones before them have answered. -/
theorem idles_runAll (hrun : Sparing run) (hs : w.store.Owned) (hv : v.Settled w.store)
    (h : ∀ f ∈ fs, Fulfilled w.store f v) : Idles w v (runAll run fs v) := by
  induction fs generalizing w v with
  | nil => exact idles_pure hv
  | cons f fs ih =>
    intro z t hall
    obtain ⟨hf, hfs⟩ := List.forall_mem_cons.mp h
    rw [runAll, List.foldlM_cons] at hall
    obtain ⟨y, u, hy, hrest⟩ := exec_bind_ok hall
    have hstep : Idle w v u y := hrun hs hv hf y u hy
    have hlater : ∀ g ∈ fs, Fulfilled u.store g y := fun g hg => (hfs g hg).keep hstep.retains hs hstep.agrees
    exact hstep.trans (ih (hstep.retains.owned hs) hstep.agrees.right hlater z t hrest)

/-- The first round of a conjunction that is fulfilled ends it. -/
theorem idles_fixpoint (hrun : Sparing run) (hs : w.store.Owned) (hv : v.Settled w.store)
    (h : Fulfilled w.store (.all c fs n b) v) (left : Nat) (last : Report) :
    Idles w v (fixpoint run (.all c fs n b) fs n left last v) := by
  cases left with
  | zero => exact idles_giveUp
  | succ left =>
    have hstateless : (Fact.all c fs n b).stateful = false := h.ordinary.stateless.2
    rw [fixpoint, if_neg (Bool.eq_false_iff.mp hstateless)]
    refine idles_bind quiet_pure fun trial htrial => ?_
    cases htrial
    intro z t hround
    obtain ⟨y, u, hy, hrest⟩ := exec_bind_ok hround
    have hidle : Idle w v u y := idles_runAll hrun hs hv h.members y u hy
    -- the check at the end of the round is of what the members have answered, in the world that they have left
    have hfulfilled : Fulfilled u.store (.all c fs n b) y := h.keep hidle.retains hs hidle.agrees
    rw [if_neg (Bool.eq_false_iff.mp hstateless)] at hrest
    obtain ⟨probes, u', hprobes, hrest⟩ := exec_bind_ok hrest
    cases hprobes
    obtain ⟨rs, u', hrs, hrest⟩ := exec_bind_ok hrest
    obtain rfl := (OrdinaryAll.quiet hfulfilled.ordinary.2 0 y).eq_of_exec hrs
    have hcheck : exec ((Fact.all c fs n b).check y) u = (.ok (.combine rs), u) := by
      rw [Fact.check, exec_bind, hrs]
      rfl
    have hok := hfulfilled.check (hidle.retains.owned hs) hidle.agrees.right hcheck
    rw [if_pos hok, if_neg (Bool.eq_false_iff.mp hstateless)] at hrest
    cases hrest
    exact hidle

theorem idles_mutateEither (hs : w.store.Owned) (hv : v.Settled w.store)
    (h : Fulfilled w.store (.either c f g b) v) : Idles w v (mutateEither run (.either c f g b) f g v) := by
  obtain ⟨⟨rfl, hf, hg⟩, -, hmeets⟩ := h
  -- a side that is not stateful is tried itself
  have htrial : ∀ {p : Fact} {ok : Bool} {u : World}, p.Ordinary w.store →
      exec (do let q ← pure p; return (← q.check v).ok) w = (.ok ok, u) → u = w ∧ (ok = true ↔ p.Meets w.store v) := by
    intro p ok u hp htried
    obtain ⟨q, u', hq, htried⟩ := exec_bind_ok htried
    cases hq
    obtain ⟨r, u', hr, hpure⟩ := exec_bind_ok htried
    cases hpure
    exact ⟨((hp.quiet v).eq_of_exec hr).symm, Judges.meets ⟨r, _, hr, rfl⟩ hs hp hv⟩
  intro y u hrun
  obtain ⟨left, w₁, hrunLeft, hrest⟩ := exec_bind_ok hrun
  obtain ⟨hw₁, hleft⟩ := htrial hf hrunLeft
  subst hw₁
  split at hrest
  · cases hrest
    exact .refl hv
  next hfailed =>
  obtain ⟨right, w₂, hrunRight, hlast⟩ := exec_bind_ok hrest
  obtain ⟨hw₂, hright⟩ := htrial hg hrunRight
  subst hw₂
  have hok : right = true := by
    apply hright.mpr
    rcases hmeets with hmeets | hmeets
    · exact absurd (hleft.mpr hmeets) hfailed
    · exact hmeets
  rw [if_pos hok] at hlast
  cases hlast
  exact .refl hv

theorem idles_mutateNegation (hs : w.store.Owned) (hv : v.Settled w.store)
    (h : Fulfilled w.store (.negation c f n b) v) : Idles w v (mutateNegation run (.negation c f n b) f n v) := by
  obtain ⟨⟨rfl, hf⟩, -, hmeets⟩ := h
  intro y u hrun
  obtain ⟨p, u', hp, hrest⟩ := exec_bind_ok hrun
  have hsame : exec (pure f) w = (.ok p, u') := hp
  cases hsame
  obtain ⟨r, u', hr, hrest⟩ := exec_bind_ok hrest
  obtain rfl := (hf.quiet v).eq_of_exec hr
  have hfailed : r.ok = false := by
    rw [Bool.eq_false_iff]
    exact fun hok => hmeets ((Judges.meets ⟨r, _, hr, rfl⟩ hs hf hv).mp hok)
  rw [hfailed] at hrest
  cases hrest
  exact .refl hv

theorem idles_mutateChoice (hrun : Sparing run) (hs : w.store.Owned) (hv : v.Settled w.store) {o : Option Fact}
    (h : Fulfilled w.store (.choice c o b) v) : Idles w v (mutateChoice run (.choice c o b) c o v) := by
  intro y u hmutate
  obtain ⟨p, u', hp, hrest⟩ := exec_bind_ok hmutate
  rw [exec_probe_stateless h.ordinary.stateless.2] at hp
  cases hp
  obtain ⟨r, u', hr, hrest⟩ := exec_bind_ok hrest
  obtain rfl := (h.ordinary.quiet v).eq_of_exec hr
  rw [if_pos (h.check hs hv hr)] at hrest
  cases o with
  | none =>
    cases hrest
    exact .refl hv
  | some f => exact hrun hs hv ⟨h.ordinary.2.2, h.grounded, h.meets.2⟩ y u hrest

/-! ## Facts -/

/-- Mutating by a fact that is fulfilled changes nothing that can be seen, and draws nothing. -/
theorem sparing_mutateWithin (levels : Nat) : Sparing (mutateWithin levels) := by
  induction levels with
  | zero => exact fun _ _ _ => idles_misuse
  | succ levels ih =>
    intro f v w hs hv h
    cases f with
    | always c => exact idles_pure hv
    | equality c equal d k =>
      cases equal with
      | true =>
        -- the answer is the reference value, which the value matches
        rintro y u ⟨⟩
        exact ⟨.refl _, h.meets.mpr rfl, rfl⟩
      | false => exact idles_mutateDifferent hv h
    | membership c => exact idles_mutateMembership hv h
    | range c inside =>
      cases inside with
      | true => exact idles_mutateInside hv h
      | false => exact idles_mutateOutside hv h
    | all c fs n b => exact idles_fixpoint ih hs hv h n.toNat .pass
    | either c f g b => exact idles_mutateEither hs hv h
    | negation c f n b => exact idles_mutateNegation hs hv h
    | lens c a f b =>
      obtain ⟨⟨-, ha, hf⟩, hgrounded, x, hx, hmeets⟩ := h
      refine idles_mutateLens hs hv ha fun x' hx' => ?_
      cases hx.symm.trans hx'
      obtain ⟨hpresent, hpart⟩ := hgrounded x hx
      exact ⟨hpresent, ih hs (settled_part hv hs ha hx) ⟨hf, hpart, hmeets⟩⟩
    | prism c a f b =>
      obtain ⟨⟨-, ha, hf⟩, hgrounded, hmeets⟩ := h
      refine idles_mutatePrism hs hv ha fun x hx hthere => ?_
      exact ih hs (settled_part hv hs ha hx) ⟨hf, hgrounded x hx hthere, hmeets x hx hthere⟩
    | each c f b =>
      intro z t hrun
      obtain ⟨xs, u, hxs, hrest⟩ := exec_bind_ok hrun
      obtain rfl := quiet_elements.eq_of_exec hxs
      obtain ⟨ys, u, hys, hrebuild⟩ := exec_bind_ok hrest
      have helements := exec_elements hxs
      have hitems := settled_elements hv helements
      have hfulfilled : ∀ x ∈ xs, Fulfilled _ f x := fun x hx =>
        ⟨h.ordinary.2, h.grounded xs helements x hx, h.meets xs helements x hx⟩
      obtain ⟨hretains, hsource, hall⟩ := matches_mutateElements hitems (fun x hx u hu => by
        have hkept := hu.values x (hitems x hx)
        exact ih (hu.owned hs) hkept.right ((hfulfilled x hx).keep hu hs hkept)) hys
      exact idles_rebuild hretains hsource hv helements hall hrebuild
    | length c n d => exact idles_mutateLength hv h
    | choice c o b => exact idles_mutateChoice ih hs hv h
    | labeled c name f b => exact ih hs hv ⟨h.ordinary.2, h.grounded, h.meets⟩
    | never | pair | counter | distinct | mapped | predicate | brute | foreign => exact h.ordinary.elim

/-- Mutating a value that passes the check, be it one that a mutation has answered or not, answers a value of equal
contents and draws nothing. The answer passes the check too, so that mutating it once more changes as little. -/
theorem mutate_of_passes (hs : w.store.Owned) (hf : f.Ordinary w.store) (hv : v.Settled w.store)
    (hg : f.Grounded w.store v) {r : Report} {w' : World} (hcheck : exec (f.check v) w = (.ok r, w'))
    (hr : r.ok = true) (hmutate : exec (f.mutate v) w' = (.ok y, u)) :
    ((u.store.view y).equal (w.store.view v) = true ∧ (u.store.view y).equal (u.store.view v) = true ∧
      u.source = w.source) ∧
    (∀ r' t, exec (f.check y) u = (.ok r', t) → r'.ok = true) ∧
    ∀ z t, exec (f.mutate y) u = (.ok z, t) →
      (t.store.view z).equal (u.store.view y) = true ∧ t.source = u.source := by
  obtain rfl := (hf.quiet v).eq_of_exec hcheck
  have hfulfilled : Fulfilled w.store f v := ⟨hf, hg, (Judges.meets ⟨r, w, hcheck, rfl⟩ hs hf hv).mp hr⟩
  have hidle : Idle w v u y := sparing_mutateWithin f.depth hs hv hfulfilled y u hmutate
  have hagain : Fulfilled u.store f y := hfulfilled.keep hidle.retains hs hidle.agrees
  have howned := hidle.retains.owned hs
  have hboth : Matches u.store y u.store v := hidle.agrees.symm.trans (hidle.retains.values v hv)
  refine ⟨⟨hidle.agrees.symm.view.equal, hboth.view.equal, hidle.source⟩, ?_, ?_⟩
  · exact fun r' t hr' => hagain.check howned hidle.agrees.right hr'
  · intro z t hz
    have hnext : Idle u y t z := sparing_mutateWithin f.depth howned hidle.agrees.right hagain z t hz
    exact ⟨hnext.agrees.symm.view.equal, hnext.source⟩

/-- Checks of ordinary facts pass where running them says so. -/
theorem Ordinary.passes (h : f.Ordinary w.store)
    (hok : (match (exec (f.check v) w).1 with | .ok r => r.ok | .error _ => false) = true) :
    ∃ r, exec (f.check v) w = (.ok r, w) ∧ r.ok = true := by
  have hquiet := (h.quiet v).exec_eq w
  split at hok
  · next r hr =>
    rw [hr] at hquiet
    exact ⟨r, hquiet, hok⟩
  · cases hok

/-- Actions answer an object where running them says so. -/
theorem exec_of_answers {b : Act Value} {l : Loc}
    (h : (match (exec b w).1 with | .ok (.ref m) => m == l | _ => false) = true) :
    exec b w = (.ok (.ref l), (exec b w).2) := by
  split at h
  · next m hm =>
    rw [← eq_of_beq h, ← hm]
  · cases h

end

/-- An entry that is to equal a list. -/
def entryFact : Fact := .lens 3 (.item "x" (.text "x")) (.equality 4 true none 100) false

/-- A mapping with such an entry, and the cells of `entryFact`. The list to equal is another object. -/
def entryWorld : World where
  store := ⟨#[.mapping [(.text "x", .ref 1)], .list [.int 1], .list [.int 1], .slots [], .slots [.ref 2]],
    spelledMarks, []⟩
  source := .tape [0] 0
  log := #[]

/-- The list to equal is put into the entry, which has the contents that it had. -/
theorem mutate_of_passes_shared :
    ∃ u, exec (entryFact.mutate (.ref 0)) entryWorld = (.ok (.ref 0), u) ∧
      (u.store.view (.ref 0)).equal (entryWorld.store.view (.ref 0)) = true ∧ u.source = entryWorld.source := by
  have hone : (Value.int 1).Settled entryWorld.store := .of_atom (a := .int 1) trivial
  have hlist : ∀ l, entryWorld.store.get? l = some (.list [.int 1]) → (Value.ref l).Settled entryWorld.store :=
    fun l hl => (Matches.of_list hl hl (.cons hone.refl .nil)).left
  have hmapping : (Value.ref 0).Settled entryWorld.store := by
    obtain ⟨d, hd, hstored⟩ := hlist 1 rfl
    refine ⟨.mapping [(.atom (.text "x"), d)], .mapping ⟨List.nodup_singleton _, ?_⟩ ?_, ?_⟩
    · exact List.forall_mem_singleton.mpr ⟨"x", rfl⟩
    · exact List.forall_mem_singleton.mpr hd
    · exact ⟨0, _, rfl, rfl, ⟨rfl, hstored⟩, trivial⟩
  have hordinary : entryFact.Ordinary entryWorld.store := by
    refine ⟨rfl, .inl ⟨_, rfl⟩, fun x hx => ?_⟩
    obtain rfl := List.mem_singleton.mp hx
    exact hlist 2 rfl
  have hgrounded : entryFact.Grounded entryWorld.store (.ref 0) := fun _ _ => ⟨trivial, trivial⟩
  obtain ⟨r, hcheck, hr⟩ := hordinary.passes (v := .ref 0) (by decide +kernel)
  have hmutate := exec_of_answers (b := entryFact.mutate (.ref 0)) (w := entryWorld) (l := 0) (by decide +kernel)
  obtain ⟨⟨hequal, -, hsource⟩, -⟩ := mutate_of_passes (by rintro e ⟨⟩) hordinary hmapping hgrounded hcheck hr hmutate
  exact ⟨_, hmutate, hequal, hsource⟩

/-- An entry that need not be there, of which nothing is asked. -/
def vacantFact : Fact := .lens 1 (.optionalAttr "x") (.always 2) false

/-- A mapping with an empty entry, and the cells of `vacantFact`. -/
def vacantWorld : World where
  store := ⟨#[.mapping [(.text "x", .null)], .slots [], .slots []], spelledMarks, []⟩
  source := .tape [0] 0
  log := #[]

/-- What a lens reads where an optional attribute is missing is no empty value, and is written as an entry. -/
theorem mutate_vacant :
    vacantWorld.store.Owned ∧ vacantFact.Ordinary vacantWorld.store ∧ (Value.ref 0).Settled vacantWorld.store ∧
      (∃ r, exec (vacantFact.check (.ref 0)) vacantWorld = (.ok r, vacantWorld) ∧ r.ok = true) ∧
      ∃ u, exec (vacantFact.mutate (.ref 0)) vacantWorld = (.ok (.ref 0), u) ∧
        (u.store.view (.ref 0)).equal (vacantWorld.store.view (.ref 0)) = false := by
  have hordinary : vacantFact.Ordinary vacantWorld.store := ⟨rfl, trivial, trivial⟩
  have hsettled : (Value.ref 0).Settled vacantWorld.store := by
    refine ⟨.mapping [(.atom (.text "x"), .atom .null)], .mapping ⟨List.nodup_singleton _, ?_⟩ ?_, ?_⟩
    · exact List.forall_mem_singleton.mpr ⟨"x", rfl⟩
    · exact List.forall_mem_singleton.mpr (.atom (a := .null) trivial)
    · exact ⟨0, _, rfl, rfl, ⟨rfl, rfl⟩, trivial⟩
  have hmutate := exec_of_answers (b := vacantFact.mutate (.ref 0)) (w := vacantWorld) (l := 0) (by decide +kernel)
  refine ⟨?_, hordinary, hsettled, hordinary.passes (by decide +kernel), _, hmutate, by decide +kernel⟩
  rintro e ⟨⟩

end Fact

end Conform
