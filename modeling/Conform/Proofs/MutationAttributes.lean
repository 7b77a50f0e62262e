import Conform.Proofs.Elementary
import Conform.Proofs.Refilling

/-!
# Mutation that gives no attributes

Classes and members of enumerations can be given attributes, and members are shared by all values that hold them. A
fact gives none where there are none to begin with if its lenses and prisms store parts only where they have read some
(`Fact.Overwrites`): what is read of a class that takes no attributes, or of a member that has been given none, belongs
to the class and cannot be set. So values that have only such atoms in common are apart (`Arena.careful_mutateWithin`).
Lenses on optional attributes store where nothing was, and are left out.
-/

namespace Conform

open Act
open Conform.Fact

/-! ## Attributes that have been given -/

namespace Store

/-- Whether classes and enumerations have the attributes in the second store that they were given in the first. -/
def SameGiven (s t : Store) : Prop := ∀ a name, t.given? a name = s.given? a name

/-- Whether an owner of attributes is an enumeration that has been given none. -/
def Barren (s : Store) (o : Owner) : Prop :=
  (∃ cls, o = .enumeration cls) ∧ ∀ a name, a.owner? = some o → s.given? a name = none

variable {s t u : Store} {o : Owner} {v x q part : Value} {name : String} {R : Set Place} {xs : List Value}

theorem SameGiven.refl (s : Store) : s.SameGiven s := fun _ _ => rfl

theorem SameGiven.symm (h : s.SameGiven t) : t.SameGiven s := fun a name => (h a name).symm

theorem SameGiven.of_given (h : t.given = s.given) : s.SameGiven t := fun a name => by rw [given?, given?, h]

theorem Extends.sameGiven (h : s.Extends t) : s.SameGiven t := .of_given h.given

theorem Barren.keep (h : s.Barren o) (hst : s.SameGiven t) : t.Barren o :=
  ⟨h.1, fun a name ha => (hst a name).trans (h.2 a name ha)⟩

/-- New items give no attributes. -/
theorem given_rebuild (h : s.rebuild v xs = .ok (q, t)) : t.given = s.given := by
  have hall : s.Closed Set.univ := fun _ _ _ _ => trivial
  rcases rebuild_cases hall Value.within_univ (fun _ _ => Value.within_univ) h with
    ⟨-, l, -, rfl⟩ | ⟨-, rfl⟩ | ⟨es, -, -, rfl⟩ <;> rfl

end Store

namespace Accessor

open Store

variable {s t u : Store} {v x q part : Value} {name : String} {R : Set Place}

/-- What an atom has that has been given nothing cannot be set. -/
theorem setAtomAttribute_barren {a : Atom} (ha : (Value.atom a).Within R)
    (hR : ∀ o, Place.attributes o ∈ R → s.Barren o) (hget : getAttribute s (.atom a) name = .ok x) :
    setAtomAttribute t a name part ≠ .ok (q, u) := by
  intro hset
  replace hget : atomAttribute? s a name = some x := eq_some_of_found hget
  -- what has an owner among the given ones takes attributes of an enumeration alone, and has got none
  have hfixed : ∀ cls, a.owner? = some (.enumeration cls) → (fixedAttribute? a name).isSome = true := by
    intro cls howner
    have hgiven := (hR _ (Value.within_atom.mp ha _ howner)).2 a name howner
    cases hfixed : fixedAttribute? a name with
    | some y => rfl
    | none =>
      simp only [atomAttribute?, hfixed, hgiven, Option.or_none, Option.none_or] at hget
      cases a with
      | enumeration cls' | member cls' i => cases hget
      | sealed cls' =>
        rw [Atom.owner?] at howner
        split at howner <;> cases howner
      | _ => cases howner
  unfold setAtomAttribute at hset
  split at hset
  · next cls =>
    split at hset
    · next hopen =>
      have howner : (Atom.sealed cls).owner? = some (.sealed cls) := by rw [Atom.owner?, if_pos hopen]
      obtain ⟨⟨cls', heq⟩, -⟩ := hR _ (Value.within_atom.mp ha _ howner)
      cases heq
    · cases hset
  · next cls =>
    rw [if_pos (hfixed cls rfl)] at hset
    cases hset
  · next cls i =>
    rw [if_pos (hfixed cls rfl)] at hset
    cases hset
  · cases hset

/-- An attribute that has been read of a value without given attributes is set without giving any. -/
theorem given_setAttribute (hv : v.Within R) (hR : ∀ o, Place.attributes o ∈ R → s.Barren o)
    (hget : getAttribute s v name = .ok x) (hset : setAttribute t v name part = .ok (q, u)) : u.given = t.given := by
  unfold setAttribute at hset
  split at hset
  · split at hset
    · cases hset
      rfl
    · split at hset <;> cases hset <;> rfl
    · cases hset
  · split at hset
    · split at hset <;> cases hset
      rfl
    · cases hset
  · split at hset <;> cases hset
    rfl
  · exact absurd hset (setAtomAttribute_barren hv hR hget)
  · cases hset
  · cases hset

theorem given_setItem {key : Value} (hset : setItem t v key part = .ok (q, u)) : u.given = t.given := by
  unfold setItem at hset
  split at hset
  · next cls xs =>
    cases hys : replace xs key part <;> rw [hys] at hset <;> cases hset
    rfl
  · split at hset
    · next xs _ =>
      cases hys : replace xs key part <;> rw [hys] at hset <;> cases hset
      rfl
    · split at hset <;> cases hset
      rfl
    · cases hset
  · cases hset

/-- Writing a part that has been read gives no attributes. -/
theorem given_set {a : Accessor} (ha : a.Tentative) (hv : v.Within R)
    (hR : ∀ o, Place.attributes o ∈ R → s.Barren o) (hget : a.get s v = .ok x)
    (hpresent : x.isAbsent = false ∨ a.Direct) (hset : a.set t v part = .ok (q, u)) : u.given = t.given := by
  cases a with
  | attr n => exact given_setAttribute hv hR hget hset
  | item shown key => exact given_setItem hset
  | optionalAttr n =>
    have hpresent := hpresent.resolve_right id
    simp only [get, getOptional] at hget
    split at hget
    · next y hy => exact given_setAttribute hv hR hy hset
    · cases hget
      cases hpresent
  | variant cls =>
    cases hset
    rfl
  | custom n get set => exact ha.elim

end Accessor

/-! ## Facts that give none -/

namespace Fact

/-- Whether a node stores nothing but in place of a part that it has read. -/
def Overwrites : Fact → Prop
  | .lens _ a _ _ => a.Direct
  | .prism _ a _ _ => a.Tentative
  | .foreign _ _ => False
  | _ => True

/-- Whether a fact can be run in an arena, and its nodes store nothing but in place of what they have read. -/
structure Frugal (A : Arena) (f : Fact) : Prop where
  fits : f.Fits A false
  formed : f.Formed
  overwrites : ∀ n ∈ f.everyNode, n.Overwrites

/-- The same of several facts. -/
structure FrugalAll (A : Arena) (fs : List Fact) : Prop where
  fits : FitsAll A false fs
  formed : FormedAll fs
  overwrites : ∀ n ∈ everyNodeAll fs, n.Overwrites

section

variable {A : Arena} {s t : Store} {f g n m : Fact} {fs : List Fact}

theorem Elementary.overwrites (h : n.Elementary) : n.Overwrites := by
  cases n with
  | lens c a f b | prism c a f b => exact h
  | foreign c kind => exact h.elim
  | _ => trivial

theorem Turned.overwrites (h : Turned n m) (hn : n.Overwrites) : m.Overwrites := by
  cases h with
  | lens => exact hn
  | _ => trivial

theorem overwrites_move {k : Loc → Loc} (h : n.Overwrites) : (n.move k).Overwrites := by
  cases n with
  | choice c f b => cases f <;> trivial
  | lens c a f b | prism c a f b => exact h
  | foreign c kind => exact h.elim
  | _ => trivial

/-- The nodes of a complement store only where those of the fact do. -/
theorem Reverses.overwrites (h : Reverses s t f g) (hf : ∀ n ∈ f.everyNode, n.Overwrites) :
    ∀ n ∈ g.everyNode, n.Overwrites := by
  intro n hn
  rcases h.nodes n hn with hn | ⟨m, hm, hturned, -⟩
  · exact hf n hn
  · exact hturned.overwrites (hf m hm)

theorem Frugal.below (h : f.Frugal A) (hfits : g.Fits A false) (hformed : g.Formed)
    (hnodes : ∀ n ∈ g.everyNode, n ∈ f.everyNode) : g.Frugal A :=
  ⟨hfits, hformed, fun n hn => h.overwrites n (hnodes n hn)⟩

theorem FrugalAll.head (h : FrugalAll A (f :: fs)) : f.Frugal A :=
  ⟨h.fits.1, h.formed.1, fun n hn => h.overwrites n (everyNodeAll_cons.mpr (.inl hn))⟩

theorem FrugalAll.tail (h : FrugalAll A (f :: fs)) : FrugalAll A fs :=
  ⟨h.fits.2, h.formed.2, fun n hn => h.overwrites n (everyNodeAll_cons.mpr (.inr hn))⟩

theorem overwrites_moveAll {k : Loc → Loc} (h : ∀ n ∈ everyNodeAll fs, n.Overwrites) :
    ∀ n ∈ everyNodeAll (moveAll k fs), n.Overwrites := by
  intro n hn
  rcases mem_everyNodeAll_move hn with ⟨n', hn', rfl⟩ | hn
  · exact overwrites_move (h n' (List.mem_append_left _ hn'))
  · exact h n (List.mem_append_right _ hn)

end

end Fact

/-! ## Thrifty actions -/

namespace Arena

variable {α β : Type} {A : Arena} {P : α → Prop}

/-- Whether nothing among the values of an arena has been given attributes, or takes any but as an enumeration. -/
def Poor (A : Arena) (s : Store) : Prop := ∀ o, Place.attributes o ∈ A.values → s.Barren o

/-- Whether an action gives no attributes where none are given. -/
def Thrifty (A : Arena) (a : Act α) : Prop :=
  ∀ w : World, A.Holds w.store → A.Poor w.store → (exec a w).2.store.given = w.store.given

/-- Whether an action gives no attributes and answers a value of the arena. -/
structure Careful (A : Arena) (a : Act Value) : Prop where
  thrifty : A.Thrifty a
  runs : A.Runs a fun y => y.Within A.values

theorem Poor.keep {s t : Store} (h : A.Poor s) (hgiven : t.given = s.given) : A.Poor t := fun o ho =>
  (h o ho).keep (.of_given hgiven)

theorem thrifty_of_quiet {a : Act α} (h : a.Quiet) : A.Thrifty a := fun w _ _ => by rw [h w]

/-- What only adds objects gives no attributes. -/
theorem thrifty_of_additions {a : Act α} (h : ∀ s, (additions s).Runs a P) : A.Thrifty a := by
  intro w hw _
  obtain ⟨hholds, -, -⟩ := h w.store w (holds_additions hw.owned)
  refine hholds.frame.ungiven ?_
  rintro o ⟨l, hl, -⟩
  cases hl

theorem thrifty_of_values {a : Act Value} (h : ∀ s, (additions s).Runs a fun x => x.Within (additions s).values) :
    A.Thrifty a :=
  thrifty_of_additions fun s => (h s).mono fun _ _ => trivial

theorem Thrifty.bind {a : Act α} {f : α → Act β} (ha : A.Thrifty a) (hruns : A.Runs a P)
    (hf : ∀ x w u, A.Holds w.store → A.Poor w.store → exec a w = (.ok x, u) → u.store.given = w.store.given →
      A.Holds u.store → P x → (exec (f x) u).2.store.given = u.store.given) : A.Thrifty (a >>= f) := by
  intro w hw hpoor
  obtain ⟨hholds, hok, -⟩ := hruns w hw
  have hgiven := ha w hw hpoor
  rw [exec_bind]
  rcases hrun : exec a w with ⟨e | x, u⟩
  · rw [hrun] at hgiven
    exact hgiven
  · rw [hrun] at hgiven hok hholds
    exact (hf x w u hw hpoor hrun hgiven hholds (hok x rfl)).trans hgiven

/-- What comes next is thrifty by itself. -/
theorem Thrifty.andThen {a : Act α} {f : α → Act β} (ha : A.Thrifty a) (hruns : A.Runs a P)
    (hf : ∀ x, P x → A.Thrifty (f x)) : A.Thrifty (a >>= f) :=
  ha.bind hruns fun x _ u _ hpoor _ hgiven hholds hx => hf x hx u hholds (hpoor.keep hgiven)

/-- What is only looked at before changes nothing. -/
theorem Thrifty.after {a : Act α} {f : α → Act β} (hquiet : a.Quiet) (hf : ∀ x, A.Thrifty (f x)) :
    A.Thrifty (a >>= f) := by
  intro w hw hpoor
  rw [hquiet.exec_bind]
  split
  · next x _ => exact hf x w hw hpoor
  · rfl

theorem Thrifty.under {a : Act α} {segment : String} (ha : A.Thrifty a) :
    A.Thrifty (mapFault (Fault.under segment) a) := by
  intro w hw hpoor
  have hgiven := ha w hw hpoor
  rw [exec_mapFault]
  split
  · next x u hrun => rwa [hrun] at hgiven
  · next e u hrun => rwa [hrun] at hgiven

theorem thrifty_giveUp {f : Fact} {reason : String} {last : Option Report} :
    A.Thrifty (f.giveUp reason last : Act α) :=
  thrifty_of_quiet (quiet_described.bind fun _ => quiet_throw)

theorem thrifty_of_ungiving {a : Act α} (h : Ungiving a) : A.Thrifty a := fun w _ _ => h w

/-- A fault that is looked at gives nothing. -/
theorem Thrifty.attempt {a : Act α} (ha : A.Thrifty a) : A.Thrifty (Act.attempt a) := fun w hw hpoor => by
  rw [exec_attempt]
  exact ha w hw hpoor

/-! ## Leaves -/

section

variable {fact f : Fact} {v : Value} {xs : List Value} {c : Loc} {g : Option Generator} {n : Int}

theorem readable_additions {s : Store} : (additions s).Readable c := fun _ _ _ _ => Value.within_univ

theorem thrifty_withFirst {a b : Value} : A.Thrifty (withFirst v a b) := by
  intro w _ _
  cases v with
  | ref l =>
    simp only [withFirst, exec_bind, exec_ask]
    split <;> rfl
  | _ => rfl

theorem thrifty_rebuild : A.Thrifty (fact.rebuild v xs) := by
  intro w _ _
  have hquiet : ∀ o, Quiet (do fact.giveUp (← written o) none : Act Value) := fun o =>
    quiet_written.bind fun _ => quiet_described.bind fun _ => quiet_throw
  unfold Fact.rebuild
  rw [exec_bind, exec_get]
  dsimp only
  cases hrebuilt : w.store.rebuild v xs with
  | ok p => exact Store.given_rebuild hrebuilt
  | error reason =>
    dsimp only
    rw [hquiet reason w]

theorem thrifty_drawCandidate {x : Value} : A.Thrifty (fact.drawCandidate g x) :=
  thrifty_of_values fun _ => runs_drawCandidate draws_additions Value.within_univ

theorem thrifty_drawUntil {accept : Value → Act Bool} {draw : Value → Act Value}
    (haccept : ∀ x, x.Within A.values → A.Thrifty (accept x) ∧ A.Runs (accept x) fun _ => True)
    (hdraw : ∀ x, x.Within A.values → A.Thrifty (draw x) ∧ A.Runs (draw x) fun y => y.Within A.values) :
    ∀ {k : Nat} {v : Value}, v.Within A.values → A.Thrifty (Search.drawUntil accept draw k v) := by
  intro k
  induction k with
  | zero => exact fun _ => thrifty_of_quiet quiet_pure
  | succ k ih =>
    intro v hv
    refine (hdraw v hv).1.andThen (hdraw v hv).2 fun x hx => ?_
    refine (haccept x hx).1.andThen (haccept x hx).2 fun ok _ => ?_
    split
    · exact thrifty_of_quiet quiet_pure
    · exact ih hx

theorem thrifty_search {accept : Value → Act Bool} {draw : Value → Act Value} {k : Nat}
    (haccept : ∀ x, x.Within A.values → A.Thrifty (accept x) ∧ A.Runs (accept x) fun _ => True)
    (hdraw : ∀ x, x.Within A.values → A.Thrifty (draw x) ∧ A.Runs (draw x) fun y => y.Within A.values)
    (hv : v.Within A.values) : A.Thrifty (Search.run accept draw k v) := by
  refine (haccept v hv).1.andThen (haccept v hv).2 fun ok _ => ?_
  split
  · exact thrifty_of_quiet quiet_pure
  · exact thrifty_drawUntil haccept hdraw hv

/-- Searching for a value that differs gives no attributes. -/
theorem thrifty_searchDifferent {a b : Value} : A.Thrifty (Search.run (fun w => do return !(← Act.equal w b))
    (fun _ => fact.drawCandidate g b) (budget n) a) :=
  thrifty_of_additions (P := fun _ => True) fun _ => (runs_search (fun _ _ => runs_differs)
    (fun _ _ => runs_drawCandidate draws_additions Value.within_univ) Value.within_univ).mono fun _ _ => trivial

theorem thrifty_mutatePair {equal : Bool} (hg : Draws A g) (hv : v.Within A.values) :
    A.Thrifty (mutatePair fact equal g n v) := by
  refine (thrifty_of_quiet quiet_items).andThen (runs_items hv) fun p hp => ?_
  obtain ⟨a, b⟩ := p
  dsimp only
  split
  · exact thrifty_withFirst
  · refine thrifty_searchDifferent.andThen (P := fun _ => True) ?_ fun o _ => ?_
    · exact (runs_search (fun _ _ => runs_differs) (fun _ _ => runs_drawCandidate hg hp.2) hp.1).mono fun _ _ => trivial
    · split
      · exact thrifty_withFirst
      · exact thrifty_of_quiet (quiet_render.bind fun _ => quiet_described.bind fun _ => quiet_throw)

theorem thrifty_mutateDistinct (hc : A.Free c) (hg : Draws A g) (hv : v.Within A.values) :
    A.Thrifty (mutateDistinct fact c g n v) := by
  have hunseen : ∀ x, Quiet (do return !(← Act.isIn x (← seen c)) : Act Bool) := fun x =>
    quiet_ask.bind fun _ => quiet_isIn.bind fun _ => quiet_pure
  have hruns : ∀ x : Value, A.Runs (do return !(← Act.isIn x (← seen c))) fun _ => True := fun x =>
    (runs_seen hc).bind fun _ _ => runs_isIn.bind fun _ _ => runs_pure trivial
  have hdraw : ∀ x : Value, x.Within A.values → A.Runs (fact.drawCandidate g x) fun y => y.Within A.values :=
    fun _ hx => runs_drawCandidate hg hx
  have hsearch : A.Thrifty (Search.run (fun x => do return !(← Act.isIn x (← seen c))) (fact.drawCandidate g)
      (budget n) v) :=
    thrifty_search (fun x _ => ⟨thrifty_of_quiet (hunseen x), hruns x⟩)
      (fun x hx => ⟨thrifty_drawCandidate, hdraw x hx⟩) hv
  refine hsearch.andThen (runs_search (fun x _ => hruns x) hdraw hv) fun o _ => ?_
  split
  · exact thrifty_of_ungiving (ungiving_remember.bind fun _ => quiet_pure.ungiving)
  · exact thrifty_giveUp

theorem thrifty_mutateLength {size : Int} (hc : A.Readable c) (hg : Draws A g) (hv : v.Within A.values) :
    A.Thrifty (fact.mutateLength c size g v) := by
  refine Thrifty.after quiet_ask fun o => ?_
  split
  · exact thrifty_of_quiet quiet_misuse
  · next xs =>
    have hdraw : ∀ s, (additions s).Runs (fact.drawElement c g v) fun _ => True := fun s =>
      (runs_drawElement readable_additions draws_additions Value.within_univ).mono fun _ _ => trivial
    refine (thrifty_of_additions fun s => runs_mapM fun _ _ => hdraw s).andThen
      (runs_mapM fun _ _ => runs_drawElement hc hg hv) fun more _ => thrifty_rebuild

end

/-! ## Combinations -/

theorem ungiving_emptyCell : Ungiving emptyCell := fun _ => rfl

theorem ungiving_twinCell {c : Loc} : Ungiving (twinCell c) := fun _ => rfl

theorem ungiving_relabel {name : String} {f : Fact} : Ungiving (relabel name f) := by
  refine ungiving_emptyCell.bind fun c => ?_
  split <;> exact quiet_pure.ungiving

/-- Making a complement gives no attributes. -/
theorem ungiving_complement : ∀ f : Fact, Ungiving f.complement
  | .always _ | .never _ _ | .pair _ _ _ _ => ungiving_emptyCell.bind fun _ => quiet_pure.ungiving
  | .equality _ _ _ _ | .range _ _ => ungiving_twinCell.bind fun _ => quiet_pure.ungiving
  | .negation _ _ _ _ => quiet_pure.ungiving
  | .lens _ _ f _ => by
    refine (ungiving_complement f).bind fun o => ?_
    split
    · exact ungiving_emptyCell.bind fun _ => quiet_pure.ungiving
    · exact quiet_pure.ungiving
  | .labeled _ _ f _ => by
    refine (ungiving_complement f).bind fun o => ?_
    split
    · exact ungiving_relabel.bind fun _ => quiet_pure.ungiving
    · exact quiet_pure.ungiving
  | .foreign _ kind => by
    unfold complement
    split
    · exact fun _ => rfl
    · exact quiet_pure.ungiving
  | .membership _ | .counter _ | .distinct _ _ _ | .all _ _ _ _ | .either _ _ _ _ | .prism _ _ _ _ | .each _ _ _
  | .length _ _ _ | .mapped _ _ _ _ _ | .predicate _ _ _ | .brute _ _ _ _ _ | .choice _ _ _ => by
    unfold complement
    exact quiet_pure.ungiving

section

variable {fact f g : Fact} {fs : List Fact} {v : Value} {xs : List Value} {n : Int} {a : Accessor}
  {run : Fact → Value → Act Value} {step : Value → Act Value}

theorem thrifty_check (h : f.Formed) (v : Value) : A.Thrifty (f.check v) := thrifty_of_ungiving (given_check h v)

theorem frugalAll_copyAll (hA : A.Copyable) (h : FrugalAll A fs) :
    A.Runs (copyAll fs) fun gs => FrugalAll A gs ∧ ∀ c ∈ cellsAll gs, A.Free c := by
  have hcopies : ∀ w gs u, exec (copyAll fs) w = (.ok gs, u) →
      FormedAll gs ∧ ∀ n ∈ everyNodeAll gs, n.Overwrites := fun w gs u hrun => by
    rw [exec_copyAll] at hrun
    cases hrun
    exact ⟨h.formed.move, overwrites_moveAll h.overwrites⟩
  exact ((runs_copyAll hA h.fits.copied).answers hcopies).mono fun gs hgs => ⟨⟨hgs.1.1, hgs.2.1, hgs.2.2⟩, hgs.1.2⟩

theorem frugal_copy (hA : A.Copyable) (h : f.Frugal A) :
    A.Runs f.copy fun g => g.Frugal A ∧ ∀ c ∈ g.cells, A.Free c := by
  have hnodes : ∀ k, ∀ n ∈ (f.move k).everyNode, n.Overwrites := fun k n hn => by
    have hsingle : ∀ n ∈ everyNodeAll [f], n.Overwrites := fun n hn => h.overwrites n (by
      simpa [everyNodeAll, nodesAll, chosenAll, everyNode] using hn)
    have hall := overwrites_moveAll (k := k) hsingle
    exact hall n (by simpa [moveAll, everyNodeAll, nodesAll, chosenAll, everyNode] using hn)
  have hcopies : ∀ w g u, exec f.copy w = (.ok g, u) → g.Formed ∧ ∀ n ∈ g.everyNode, n.Overwrites := by
    rintro w g u ⟨⟩
    exact ⟨h.formed.move, hnodes _⟩
  exact ((runs_copy hA h.fits.copied).answers hcopies).mono fun g hg => ⟨⟨hg.1.1, hg.2.1, hg.2.2⟩, hg.1.2⟩

/-- A copy of a fact that advances, or the fact itself, serves as well as the fact. -/
theorem frugal_probe (hA : A.Copies f.stateful) (h : f.Frugal A) :
    A.Runs f.probe fun g => g.Frugal A ∧ (f.stateful = true → ∀ c ∈ g.cells, A.Free c) := by
  unfold probe
  split
  · next hs => exact (frugal_copy (hA hs) h).mono fun g hg => ⟨hg.1, fun _ => hg.2⟩
  · next hs => exact runs_pure ⟨h, fun hstate => absurd hstate hs⟩

/-- What is written has been read before, so it gives no attributes. -/
theorem given_write {w u : World} {x y : Value} (ha : a.Tentative) (hv : v.Within A.values) (hpoor : A.Poor w.store)
    (hget : a.get w.store v = .ok x) (hpresent : x.isAbsent = false ∨ a.Direct) :
    (exec (a.write v y) u).2.store.given = u.store.given := by
  rw [exec_write]
  cases hset : a.set u.store v y with
  | ok p => exact Accessor.given_set ha hv hpoor hget hpresent hset
  | error e => rfl

theorem thrifty_mutateLens (ha : a.Direct) (hfits : a.Fits A) (hv : v.Within A.values)
    (hstep : ∀ x, x.Within A.values → A.Careful (step x)) : A.Thrifty (mutateLens step fact a v) := by
  refine (thrifty_of_quiet quiet_part?).bind (runs_part? hfits hv) fun o w u hw hpoor hrun hgiven hholds ho => ?_
  obtain rfl := quiet_part?.eq_of_exec hrun
  split
  · exact thrifty_of_quiet (quiet_render.bind fun _ => quiet_described.bind fun _ => quiet_throw) w hw hpoor
  · next x =>
    rcases exec_part? hrun with ⟨x', heq, hx⟩ | ⟨hnone, -⟩
    · cases heq
      have hstep := hstep x (ho x rfl)
      refine hstep.thrifty.under.bind hstep.runs.under (fun y w' u' _ _ _ _ _ _ => ?_) w hw hpoor
      exact given_write ha.tentative hv hpoor hx (.inr ha)
    · cases hnone

theorem thrifty_mutatePrism (ha : a.Tentative) (hfits : a.Fits A) (hv : v.Within A.values)
    (hstep : ∀ x, x.Within A.values → A.Careful (step x)) : A.Thrifty (mutatePrism step a v) := by
  refine (thrifty_of_quiet quiet_part?).bind (runs_part? hfits hv) fun o w u hw hpoor hrun hgiven hholds ho => ?_
  obtain rfl := quiet_part?.eq_of_exec hrun
  split
  · rfl
  · next x =>
    rcases exec_part? hrun with ⟨x', heq, hx⟩ | ⟨hnone, -⟩
    · cases heq
      split
      · rfl
      · next hpresent =>
        have hstep := hstep x (ho x rfl)
        refine hstep.thrifty.under.bind hstep.runs.under (fun y w' u' _ _ _ _ _ _ => ?_) w hw hpoor
        exact given_write ha hv hpoor hx (.inl (Bool.eq_false_iff.mpr hpresent))
    · cases hnone

theorem thrifty_mutateElements (hstep : ∀ x, x.Within A.values → A.Careful (step x)) :
    ∀ {xs : List Value} {i : Nat}, (∀ x ∈ xs, x.Within A.values) → A.Thrifty (mutateElements step i xs) := by
  intro xs
  induction xs with
  | nil => exact fun _ => thrifty_of_quiet quiet_pure
  | cons x xs ih =>
    intro i h
    have hx := hstep x (h x (by simp))
    refine hx.thrifty.under.andThen hx.runs.under fun y _ => ?_
    intro w hw hpoor
    have hrest := ih (i := i + 1) (fun z hz => h z (by simp [hz])) w hw hpoor
    rw [exec_bind]
    rcases hrun : exec (mutateElements step (i + 1) xs) w with ⟨e | ys, u⟩ <;> rw [hrun] at hrest <;> exact hrest

/-- Whether running facts is careful. -/
def Spares (A : Arena) (run : Fact → Value → Act Value) : Prop :=
  ∀ f v, f.Frugal A → v.Within A.values → A.Careful (run f v)

theorem careful_runAll (hrun : A.Spares run) (h : FrugalAll A fs) :
    ∀ {v : Value}, v.Within A.values → A.Careful (runAll run fs v) := by
  induction fs with
  | nil => exact fun hv => ⟨thrifty_of_quiet quiet_pure, runs_pure hv⟩
  | cons f fs ih =>
    intro v hv
    have hhead : A.Careful (run f v) := hrun f v h.head hv
    have htail : ∀ {x : Value}, x.Within A.values → A.Careful (runAll run fs x) := ih h.tail
    rw [runAll, List.foldlM_cons]
    exact ⟨hhead.thrifty.andThen hhead.runs fun x hx => (htail hx).thrifty,
      hhead.runs.bind fun x hx => (htail hx).runs⟩

/-- What a round works on, and what it checks: copies of the members of a conjunction that advances, or else
themselves. -/
theorem frugal_trial (hcopies : A.Copies fact.stateful) (h : FrugalAll A fs)
    (hfree : fact.stateful = true → ∀ c ∈ cellsAll fs, A.Free c) :
    A.Thrifty (if fact.stateful then copyAll fs else pure fs) ∧
    A.Runs (if fact.stateful then copyAll fs else pure fs) fun gs =>
      FrugalAll A gs ∧ (fact.stateful = true → ∀ c ∈ cellsAll gs, A.Free c) := by
  split
  · next hs =>
    exact ⟨thrifty_of_ungiving ungiving_copyAll, (frugalAll_copyAll (hcopies hs) h).mono fun gs hgs =>
      ⟨hgs.1, fun _ => hgs.2⟩⟩
  · exact ⟨thrifty_of_quiet quiet_pure, runs_pure ⟨h, hfree⟩⟩

theorem thrifty_fixpoint {rounds : Int} (hrun : A.Spares run) (hcopies : A.Copies fact.stateful)
    (h : FrugalAll A fs) (hfree : fact.stateful = true → ∀ c ∈ cellsAll fs, A.Free c) :
    ∀ {left : Nat} {last : Report} {v : Value}, v.Within A.values →
      A.Thrifty (fixpoint run fact fs rounds left last v) := by
  intro left
  induction left with
  | zero => exact fun _ => thrifty_giveUp
  | succ left ih =>
    intro last v hv
    obtain ⟨hthrifty, hruns⟩ := frugal_trial hcopies h hfree
    have hround : ∀ trial probes : List Fact, FrugalAll A probes → ∀ x : Value, x.Within A.values → A.Thrifty (do
        let last := Report.combine (← checkAll probes 0 x)
        if last.ok then
          if fact.stateful then commitCells (cellsAll fs) (cellsAll trial)
          return x
        Act.log .debug "factual.combinators"
          ((← fact.described) ++ ": round " ++ toString (rounds - left) ++ "/" ++ toString rounds ++
            " left " ++ toString last.size ++ " violation(s)")
        fixpoint run fact fs rounds left last x) := by
      intro trial probes hprobes x hx
      refine (thrifty_of_ungiving (given_checkAll hprobes.formed 0 x)).andThen (runs_checkAll hprobes.fits hx)
        fun rs _ => ?_
      dsimp only
      split
      · split
        · exact thrifty_of_ungiving (ungiving_commitCells.bind fun _ => quiet_pure.ungiving)
        · exact thrifty_of_quiet quiet_pure
      · refine Thrifty.after quiet_described fun d => ?_
        exact Thrifty.andThen (P := fun _ => True) (fun _ _ _ => .refl _) runs_log fun _ _ => ih hx
    rw [fixpoint]
    by_cases hs : fact.stateful = true
    · simp only [hs, if_true] at hthrifty hruns hround ⊢
      refine hthrifty.andThen hruns fun trial htrial => ?_
      have hall := careful_runAll hrun htrial.1 hv
      refine hall.thrifty.andThen hall.runs fun x hx => hthrifty.andThen hruns fun probes hprobes => ?_
      exact hround trial probes hprobes.1 x hx
    · simp only [hs] at hround ⊢
      have hall := careful_runAll hrun h hv
      exact hall.thrifty.andThen hall.runs fun x hx => hround fs fs h x hx

theorem thrifty_mutateEither (hcopies : A.Copies fact.stateful) (hf : f.Frugal A) (hg : g.Frugal A)
    (hrunf : A.Thrifty (run f v)) (hrung : A.Thrifty (run g v)) (hv : v.Within A.values) :
    A.Thrifty (mutateEither run fact f g v) := by
  -- asking a fact, or a copy of it, whether it is satisfied
  have hsatisfies : ∀ k : Fact, k.Frugal A → A.Thrifty (do
      let p ← if fact.stateful then k.copy else pure k
      return (← p.check v).ok) ∧ A.Runs (do
      let p ← if fact.stateful then k.copy else pure k
      return (← p.check v).ok) fun _ => True := by
    intro k hk
    have hcheck : ∀ p : Fact, p.Frugal A →
        A.Thrifty (do return (← p.check v).ok) ∧ A.Runs (do return (← p.check v).ok) fun _ => True := fun p hp =>
      ⟨thrifty_of_ungiving ((given_check hp.formed v).bind fun _ => quiet_pure.ungiving),
        (runs_check hp.fits hv).bind fun _ _ => runs_pure trivial⟩
    split
    · next hs =>
      have hcopy := frugal_copy (hcopies hs) hk
      exact ⟨(thrifty_of_ungiving ungiving_copy).andThen hcopy fun p hp => (hcheck p hp.1).1,
        hcopy.bind fun p hp => (hcheck p hp.1).2⟩
    · exact hcheck k hk
  refine (hsatisfies f hf).1.andThen (hsatisfies f hf).2 fun x _ => ?_
  split
  · exact thrifty_of_quiet quiet_pure
  · refine (hsatisfies g hg).1.andThen (hsatisfies g hg).2 fun y _ => ?_
    split
    · exact thrifty_of_quiet quiet_pure
    · have hchoice : ∀ s, (additions s).Runs Draw.boolean fun _ => True := fun s => runs_boolean
      refine (thrifty_of_additions hchoice).andThen (P := fun _ => True) runs_boolean fun b _ => ?_
      split
      · exact hrunf
      · exact hrung

theorem thrifty_scan (hcopies : A.Copies f.stateful) (hf : f.Frugal A) :
    ∀ {xs : List Value} {k : Nat}, (∀ x ∈ xs, x.Within A.values) → A.Thrifty (f.scan k xs) := by
  intro xs
  induction xs with
  | nil => exact fun _ => thrifty_giveUp
  | cons x xs ih =>
    intro k hxs
    refine (thrifty_of_ungiving ungiving_probe).andThen (frugal_probe hcopies hf) fun p hp => ?_
    refine (thrifty_check hp.1.formed x).andThen (runs_check hp.1.fits (hxs x (by simp))) fun r _ => ?_
    split
    · refine Thrifty.after quiet_described fun d => ?_
      exact thrifty_of_ungiving (Ungiving.bind (fun _ => rfl) fun _ => quiet_pure.ungiving)
    · exact ih fun z hz => hxs z (by simp [hz])

/-- Choosing a candidate only looks, and then the further fact is run, if there is one. -/
theorem thrifty_mutateChoice {c : Loc} {o : Option Fact} {b : Bool} (hrun : A.Spares run)
    (h : (Fact.choice c o b).Frugal A) (hv : v.Within A.values) :
    A.Thrifty (mutateChoice run (.choice c o b) c o v) := by
  have hcopies : A.Copies b := by
    cases o with
    | none => exact h.fits.2
    | some g => exact h.fits.2.1
  have hreadable : A.Readable c := by
    cases o with
    | none => exact h.fits.1 rfl
    | some g => exact h.fits.1 rfl
  have hfurther : ∀ g, o = some g → g.Frugal A ∧ A.Copies g.stateful := by
    rintro g rfl
    exact ⟨h.below h.fits.2.2.1 h.formed.2 fun n hn => everyNode_of_part List.mem_cons_self hn, h.fits.2.2.2⟩
  have hslots : A.Runs (Act.ask (·.slots c)) fun vs => ∀ x ∈ vs, x.Within A.values :=
    runs_ask fun s hs => hreadable s hs
  refine (thrifty_of_ungiving ungiving_probe).andThen (frugal_probe hcopies h) fun p hp => ?_
  refine (thrifty_check hp.1.formed v).andThen (runs_check hp.1.fits hv) fun r _ => ?_
  split
  · split
    · next g => exact (hrun g v (hfurther g rfl).1 hv).thrifty
    · exact thrifty_of_quiet quiet_pure
  · refine (thrifty_of_quiet quiet_ask).andThen hslots fun vs hvs => ?_
    split
    · next g =>
      obtain ⟨hg, hcopies⟩ := hfurther g rfl
      exact (thrifty_scan hcopies hg hvs).andThen (runs_scan hcopies hg.fits hvs) fun x hx =>
        (hrun g x hg hx).thrifty
    · split
      · exact thrifty_of_quiet quiet_pure
      · exact thrifty_giveUp

theorem thrifty_mutateNegation (hA : A.Mutable) (hrun : A.Spares run) (hs : fact.stateful = false)
    (hf : f.Frugal A) (hv : v.Within A.values) : A.Thrifty (mutateNegation run fact f n v) := by
  have hviolates : ∀ x, A.Thrifty (do return !(← f.check x).ok : Act Bool) := fun x =>
    thrifty_of_ungiving ((given_check hf.formed x).bind fun _ => quiet_pure.ungiving)
  unfold mutateNegation
  simp only [hs, Bool.false_eq_true, if_false, pure_bind]
  refine (thrifty_check hf.formed v).andThen (runs_check hf.fits hv) fun r _ => ?_
  split
  · exact thrifty_of_quiet quiet_pure
  · have hcomplement : A.Thrifty f.complement := thrifty_of_ungiving (ungiving_complement f)
    refine hcomplement.bind (runs_complement hA hf.fits) fun o w u hw hpoor hcomplement hgiven hholds ho => ?_
    split
    · next g =>
      have hg := (founds_turned hf.formed w _ u rfl hcomplement).2 g rfl
      exact (hrun g v ⟨ho g rfl, hg.formed, hg.overwrites hf.overwrites⟩ hv).thrifty u hholds (hpoor.keep hgiven)
    · have hdraw : ∀ s, (additions s).Runs (fact.drawLike v) fun _ => True := fun s =>
        (runs_drawLike Value.within_univ).mono fun _ _ => trivial
      have haccept : ∀ x, x.Within A.values → A.Runs (do return !(← f.check x).ok) fun _ => True := fun x hx =>
        (runs_check hf.fits hx).bind fun _ _ => runs_pure trivial
      have hsearch : A.Thrifty (Search.drawUntil (fun w => do return !(← f.check w).ok) (fun _ => fact.drawLike v)
          (budget n) v) :=
        thrifty_drawUntil (fun x hx => ⟨hviolates x, haccept x hx⟩)
          (fun x _ => ⟨thrifty_of_additions hdraw, runs_drawLike hv⟩) hv
      have hfound := runs_drawUntil (k := budget n) haccept (fun _ _ => runs_drawLike (f := fact) hv) hv
      refine hsearch.andThen hfound (fun o _ => ?_) u hholds (hpoor.keep hgiven)
      split
      · exact thrifty_of_quiet quiet_pure
      · exact thrifty_of_quiet (quiet_described.bind fun _ => quiet_described.bind fun _ => quiet_throw)

/-- The fact that is chosen from a value is one of those to choose from. -/
theorem frugal_pick {d : Data} : ∀ {tests : List (Data → Bool)} {fs : List Fact}, FrugalAll A fs → f.Frugal A →
    (pick d f tests fs).Frugal A := by
  intro tests
  induction tests with
  | nil => exact fun _ hf => hf
  | cons test tests ih =>
    intro fs h hf
    cases fs with
    | nil => exact hf
    | cons g gs =>
      rw [pick]
      split
      · exact h.head
      · exact ih h.tail hf

/-- Facts that store only where they have read give no attributes where none are given. -/
theorem careful_mutateWithin (hA : A.Mutable) (k : Nat) : A.Spares (mutateWithin k) := by
  intro f v h hv
  refine ⟨?_, runs_mutateWithin hA k f v h.fits hv⟩
  induction k generalizing f v with
  | zero => exact thrifty_of_quiet quiet_misuse
  | succ k ih =>
    have hrun : A.Spares (mutateWithin k) := fun f v hf hv => ⟨ih f v hf hv, runs_mutateWithin hA k f v hf.fits hv⟩
    have hnode := h.overwrites f (self_mem_everyNode f)
    obtain ⟨hfits, hf, -⟩ := id h
    cases f with
    | always c => exact thrifty_of_quiet quiet_pure
    | never c reason => exact thrifty_giveUp
    | equality c equal g n =>
      cases equal with
      | true => exact thrifty_of_quiet quiet_ask
      | false =>
        exact thrifty_of_values fun _ => runs_mutateDifferent readable_additions draws_additions Value.within_univ
    | membership c => exact thrifty_of_values fun _ => runs_mutateMembership readable_additions Value.within_univ
    | range c inside =>
      cases inside with
      | true => exact thrifty_of_values fun _ => runs_mutateInside readable_additions Value.within_univ
      | false => exact thrifty_of_values fun _ => runs_mutateOutside readable_additions Value.within_univ
    | pair c equal g n => exact thrifty_mutatePair hfits hv
    | counter c => exact thrifty_of_ungiving ungiving_takeNext
    | distinct c g n => exact thrifty_mutateDistinct (hfits.1 rfl) hfits.2 hv
    | all c fs n b =>
      have hmembers : FrugalAll A fs := ⟨hfits.1, hf.2, fun n hn => h.overwrites n (everyNode_of_parts hn)⟩
      refine thrifty_fixpoint hrun ?_ hmembers ?_ hv
      · exact hfits.2.1
      · exact fun hb => hfits.2.2 hb rfl
    | either c f g b =>
      have hl : f.Frugal A := h.below hfits.1 hf.2.1 fun n hn => everyNode_of_part List.mem_cons_self hn
      have hr : g.Frugal A := h.below hfits.2.1 hf.2.2 fun n hn =>
        everyNode_of_part (List.mem_cons_of_mem _ List.mem_cons_self) hn
      exact thrifty_mutateEither hfits.2.2 hl hr (ih f v hl hv) (ih g v hr hv) hv
    | negation c f n b =>
      exact thrifty_mutateNegation hA hrun hf.1.1 (h.below hfits.1 hf.2 fun n hn => .tail _ hn) hv
    | lens c a f b =>
      exact thrifty_mutateLens hnode hfits.1 hv fun x hx =>
        hrun f x (h.below hfits.2 hf.2 fun n hn => .tail _ hn) hx
    | prism c a f b =>
      exact thrifty_mutatePrism hnode hfits.1 hv fun x hx =>
        hrun f x (h.below hfits.2 hf.2 fun n hn => .tail _ hn) hx
    | each c f b =>
      have hpart : ∀ x, x.Within A.values → A.Careful (mutateWithin k f x) := fun x hx =>
        hrun f x (h.below hfits hf.2 fun n hn => .tail _ hn) hx
      refine (thrifty_of_quiet quiet_elements).andThen (runs_elements hv) fun xs hxs => ?_
      have helements := runs_mutateElements (i := 0) (fun x hx => (hpart x hx).runs) hxs
      exact (thrifty_mutateElements hpart hxs).andThen helements fun ys _ => thrifty_rebuild
    | length c n g => exact thrifty_mutateLength (hfits.1 rfl) hfits.2 hv
    | mapped c name tests fs f =>
      have hfs : FrugalAll A fs := ⟨hfits.1, hf.2.1, fun n hn => h.overwrites n (everyNode_of_picked hn)⟩
      have hlast : f.Frugal A := h.below hfits.2 hf.2.2 fun n hn => everyNode_of_last hn
      exact Thrifty.after quiet_view fun d => (ih _ v (frugal_pick hfs hlast) hv).under
    | predicate c name test => exact thrifty_giveUp
    | brute c name test g n =>
      exact thrifty_of_values fun _ => runs_mutateBrute draws_additions Value.within_univ
    | choice c o b => exact thrifty_mutateChoice hrun h hv
    | labeled c name f b => exact ih f v (h.below hfits hf.2 fun n hn => .tail _ hn) hv
    | foreign c kind => exact hnode.elim

end

end Arena

end Conform
