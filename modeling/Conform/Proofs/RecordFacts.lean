import Conform.Proofs.DrawnMappings
import Conform.Proofs.SatisfyNotes

/-!
# Records built in turn

A record-like fact is a conjunction of lenses under different texts to counters, distinct facts and facts that do not
advance, with labels anywhere (`Fact.Recordlike`).
-/

namespace Conform

open Act Draw

namespace Accessor

/-- What is read from a mapping is the value under the key. -/
theorem get_entry_iff {a : Accessor} {b : Atom} {s : Store} {l : Loc} {es : List (Value × Value)} {x : Value}
    (ha : a.key? = some b) (hes : s.get? l = some (.mapping es)) :
    a.get s (.ref l) = .ok x ↔ s.lookup es (.atom b) = some x := by
  cases a with
  | attr n =>
    cases ha
    simp only [get, getAttribute, hes, found_eq_ok]
  | item shown key =>
    cases key with
    | atom c =>
      cases ha
      simp only [get, getItem, hes]
      show foundUnder s (.atom b) (s.lookup es (.atom b)) = .ok x ↔ _
      have hhashable : (s.view (.atom b)).unhashable?.isSome = false := rfl
      simp only [foundUnder, hhashable]
      cases s.lookup es (.atom b) <;> simp
    | _ => cases ha
  | _ => cases ha

end Accessor

namespace Fact

/-! ## Record-like facts -/

/-- Whether a fact is, labels apart, a counter, a distinct fact or one that does not advance. -/
inductive Columnar : Fact → Prop
  | counter {c : Loc} : Columnar (.counter c)
  | distinct {c : Loc} {n : Int} : Columnar (.distinct c none n)
  | still {f : Fact} : f.stateful = false → Columnar f
  | labeled {c : Loc} {name : String} {f : Fact} {b : Bool} : Columnar f → Columnar (.labeled c name f b)

/-- Whether a fact is, labels apart, a lens to such a fact. -/
inductive Entrywise : Fact → Prop
  | lens {c : Loc} {a : Accessor} {f : Fact} {b : Bool} : Columnar f → Entrywise (.lens c a f b)
  | labeled {c : Loc} {name : String} {f : Fact} {b : Bool} : Entrywise f → Entrywise (.labeled c name f b)

/-- Whether a fact is, labels apart, a conjunction of such lenses under different texts. -/
inductive Recordlike : Fact → Prop
  | all {c : Loc} {fs : List Fact} {n : Int} {b : Bool} : Apiece fs → (∀ f ∈ fs, Entrywise f) →
    Recordlike (.all c fs n b)
  | labeled {c : Loc} {name : String} {f : Fact} {b : Bool} : Recordlike f → Recordlike (.labeled c name f b)

variable {ns : List Fact} {f n : Fact} {fs : List Fact} {s t : Store} {X : Set Loc} {v x y : Value} {c l m : Loc}
  {es es' : List (Value × Value)}

theorem stateful_of_piecewise : ∀ {f : Fact}, f.Formed → f.piecewise = true → f.stateful = true
  | .labeled _ _ f _, hf, hp => hf.1.trans (stateful_of_piecewise (f := f) hf.2 hp)
  | .lens _ _ _ _, hf, hp => hf.1.trans ((Bool.and_eq_true _ _).mp hp).1
  | .prism _ _ _ _, hf, hp | .each _ _ _, hf, hp => hf.1.trans hp
  | .all _ _ _ _, _, hp => ((Bool.and_eq_true _ _).mp hp).1
  | .counter _, _, _ | .distinct _ _ _, _, _ => rfl
  | .choice _ _ _, _, hp | .always _, _, hp | .never _ _, _, hp | .predicate _ _ _, _, hp | .pair _ _ _ _, _, hp
  | .brute _ _ _ _ _, _, hp | .membership _, _, hp | .range _ _, _, hp | .equality _ _ _ _, _, hp
  | .length _ _ _, _, hp | .mapped _ _ _ _ _, _, hp | .foreign _ _, _, hp | .either _ _ _ _, _, hp
  | .negation _ _ _ _, _, hp => by simp [piecewise] at hp

/-! ### Columns -/

/-- A column that advances is followed piece by piece. -/
theorem Columnar.piecewise_eq (h : f.Columnar) (hf : f.Formed) : f.piecewise = f.stateful := by
  induction h with
  | counter | distinct => rfl
  | @still f hstill =>
    rw [hstill]
    cases hp : f.piecewise with
    | false => rfl
    | true => rw [stateful_of_piecewise hf hp] at hstill; cases hstill
  | labeled _ ih =>
    obtain ⟨hb, hf⟩ := hf
    rw [piecewise, ih hf, ← hb]
    rfl

theorem Columnar.tracked (h : f.Columnar) (hf : f.Formed) (hs : f.stateful = true) : f.Tracked := by
  induction h with
  | counter => exact .counter
  | distinct => exact .distinct fun _ hr => by cases hr
  | still hstill =>
    rw [hs] at hstill
    cases hstill
  | labeled _ ih =>
    obtain ⟨hb, hf⟩ := hf
    exact .labeled (ih hf (hb.symm.trans hs))

/-- No object leads to what a column sees but the one it is found in. -/
theorem Columnar.trail_eq (h : f.Columnar) (hf : f.Formed) : trail s f.piecewise [f] v = ∅ := by
  induction h with
  | counter => exact leaf_counter.trail_eq (p := true)
  | distinct => exact leaf_distinct.trail_eq
  | still hstill => rw [(Columnar.still hstill).piecewise_eq hf, hstill, trail_false]
  | labeled _ ih =>
    have htrail := ih hf.2
    rw [trail, pathAll_singleton] at htrail ⊢
    rwa [piecewise, path]

theorem Columnar.laid (h : f.Columnar) (hf : f.Formed) (hs : f.stateful = true)
    (hv : ∀ n ∈ f.nodes, n.kind? = some .memory → ∀ x ∈ f.watched s n.cell v, x.Immutable) : f.Laid s X v := by
  induction h with
  | counter => trivial
  | @distinct d k =>
    rw [Laid]
    exact hv (.distinct d none k) (List.mem_singleton_self _) rfl v (by simp [watched, cell])
  | still hstill =>
    rw [hs] at hstill
    cases hstill
  | labeled _ ih =>
    obtain ⟨hb, hf⟩ := hf
    rw [Laid]
    refine ih hf (hb.symm.trans hs) fun n hn hk x hx => hv n ?_ hk x (by rwa [watched])
    rw [nodes]
    exact List.mem_cons_of_mem _ hn

theorem Columnar.watched_cases (h : f.Columnar) (hf : f.Formed) :
    (∀ s v, f.watched s c v = [v]) ∨ ∀ s v, f.watched s c v = [] := by
  induction h with
  | @counter d | @distinct d =>
    simp only [watched]
    by_cases hd : d = c
    · exact .inl fun s v => if_pos hd
    · exact .inr fun s v => if_neg hd
  | still hstill =>
    refine .inr fun s v => ?_
    rw [← watchedAll_singleton]
    exact noticed_of_stateless (p := true) hf hstill
  | labeled _ ih =>
    simp only [watched]
    exact ih hf.2

/-- Whether a leaf sees a value does not depend on the value. -/
theorem Columnar.noticed_cases (h : f.Columnar) (hf : f.Formed) :
    (∀ s v, noticed s f.piecewise c [f] v = [v]) ∨ ∀ s v, noticed s f.piecewise c [f] v = [] := by
  cases hp : f.piecewise with
  | false => exact .inr fun s v => noticed_of_stateless hf (h.piecewise_eq hf ▸ hp)
  | true =>
    simp only [noticed, if_true, watchedAll_singleton]
    exact h.watched_cases hf

/-! ### Entries -/

/-- What a mapping with the same keys has under one of them. -/
theorem lookup_like {R : Value → Value → Prop} {b : Atom}
    (h : List.Forall₂ (fun e e' => e.1 = e'.1 ∧ R e.2 e'.2) es es') (hy : t.lookup es' (.atom b) = some y) :
    ∃ x, s.lookup es (.atom b) = some x ∧ R x y := by
  induction h with
  | nil => cases hy
  | @cons e e' _ _ he _ ih =>
    obtain ⟨hkey, hR⟩ := he
    rw [Store.lookup_cons, ← hkey, Store.alike_atom e.1 s t] at hy
    rw [Store.lookup_cons]
    by_cases hlike : (s.view e.1).alike (.atom b) = true
    · rw [if_pos hlike] at hy ⊢
      cases hy
      exact ⟨_, rfl, hR⟩
    · rw [if_neg hlike] at hy ⊢
      exact ih hy

theorem Entrywise.tracked (h : f.Entrywise) (hf : f.Formed) (hkey : f.key?.isSome) : f.Tracked := by
  induction h with
  | @lens d a g b hcolumn =>
    obtain ⟨name, hname⟩ := Option.isSome_iff_exists.mp hkey
    have hpiecewise := hcolumn.piecewise_eq hf.2
    refine .lens (by rw [lens_key? hname]; rfl) (fun hp => hcolumn.tracked hf.2 (hpiecewise ▸ hp)) fun hp => ?_
    exact .still (hpiecewise ▸ hp)
  | labeled _ ih => exact .labeled (ih hf.2 hkey)

theorem Entrywise.path_subset (h : f.Entrywise) (hf : f.Formed) : f.path s (.ref l) ⊆ {l} := by
  induction h with
  | lens hcolumn =>
    intro k hk
    rcases Over.lens.mem_path.mp hk with hk | ⟨x, -, hk⟩
    · cases hk
      rfl
    · rw [hcolumn.trail_eq hf.2] at hk
      cases hk
  | labeled _ ih =>
    rw [path]
    exact ih hf.2

theorem Entrywise.laid (h : f.Entrywise) (hf : f.Formed) (hkey : f.key?.isSome) (hopens : Opens s X (.ref l))
    (hes : s.get? l = some (.mapping es)) (hclear : ∀ e ∈ es, e.2.Clear X s.size)
    (hv : ∀ n ∈ f.nodes, n.kind? = some .memory → ∀ x ∈ f.watched s n.cell (.ref l), x.Immutable) :
    f.Laid s X (.ref l) := by
  induction h with
  | @lens d a g b hcolumn =>
    refine Over.lens.laid_iff.mpr ⟨⟨hopens, trivial⟩, fun x hx => ⟨rests_singleton.mpr ⟨fun hp => ?_, fun _ => ?_⟩,
      fun k _ hk => by rw [hcolumn.trail_eq hf.2] at hk; exact hk⟩,
      List.pairwise_of_forall fun y z k hk => by rw [hcolumn.trail_eq hf.2] at hk; cases hk⟩
    · refine hcolumn.laid hf.2 (hcolumn.piecewise_eq hf.2 ▸ hp) fun n hn hk z hz => ?_
      refine hv n (by rw [nodes]; exact List.mem_cons_of_mem _ hn) hk z ?_
      rw [Over.lens.watched_eq]
      refine List.mem_flatMap.mpr ⟨x, hx, ?_⟩
      rwa [noticed, if_pos hp, watchedAll_singleton]
    · obtain ⟨name, hname⟩ := Option.isSome_iff_exists.mp hkey
      rw [pieces, Option.mem_toList, used?_eq_some] at hx
      have hlookup := (Accessor.get_entry_iff (lens_key? hname) hes).mp hx.1
      obtain ⟨e, he, rfl⟩ := Option.map_eq_some_iff.mp hlookup
      exact hclear e (List.mem_of_find?_eq_some he)
  | labeled _ ih =>
    rw [Laid]
    refine ih hf.2 hkey fun n hn hk x hx => hv n ?_ hk x (by rwa [watched])
    rw [nodes]
    exact List.mem_cons_of_mem _ hn

/-- What a leaf sees of a mapping with the same keys is like what it sees of the other. -/
theorem Entrywise.watched_like {R : Value → Value → Prop} (h : f.Entrywise) (hf : f.Formed) (hkey : f.key?.isSome)
    (hes : s.get? l = some (.mapping es)) (hes' : t.get? m = some (.mapping es'))
    (hlike : List.Forall₂ (fun e e' => e.1 = e'.1 ∧ R e.2 e'.2) es es') :
    ∀ y ∈ f.watched t c (.ref m), ∃ x ∈ f.watched s c (.ref l), R x y := by
  induction h with
  | @lens d a g b hcolumn =>
    obtain ⟨name, hname⟩ := Option.isSome_iff_exists.mp hkey
    have hatom := lens_key? hname
    intro y hy
    rw [Over.lens.watched_eq] at hy ⊢
    obtain ⟨z, hz, hy⟩ := List.mem_flatMap.mp hy
    rw [pieces, Option.mem_toList, used?_eq_some, Accessor.get_entry_iff hatom hes'] at hz
    obtain ⟨x, hx, hR⟩ := lookup_like hlike hz.1
    have hpiece : x ∈ (Fact.lens d a g b).pieces s (.ref l) := by
      rw [pieces, Option.mem_toList, used?_eq_some, Accessor.get_entry_iff hatom hes]
      exact ⟨hx, fun ho => by cases ho⟩
    rcases hcolumn.noticed_cases (c := c) hf.2 with hsees | hsees
    · rw [hsees, List.mem_singleton] at hy
      exact ⟨x, List.mem_flatMap.mpr ⟨x, hpiece, by rw [hsees]; exact List.mem_singleton_self x⟩, hy ▸ hR⟩
    · rw [hsees] at hy
      cases hy
  | labeled _ ih =>
    simp only [watched]
    exact ih hf.2 hkey

/-! ### Records -/

section

variable (h : ∀ f ∈ fs, f.Entrywise) (hf : FormedAll fs) (hkeys : ∀ f ∈ fs, f.key?.isSome)

include h hf

theorem pathAll_entries_subset : pathAll s fs (.ref l) ⊆ {l} := by
  induction fs with
  | nil => exact fun _ hk => hk.elim
  | cons f fs ih =>
    rintro k (hk | hk)
    · exact (h f (by simp)).path_subset hf.1 hk
    · exact ih (fun g hg => h g (by simp [hg])) hf.2 hk

include hkeys

theorem tracked_entries : ∀ f ∈ fs, f.Tracked := by
  induction fs with
  | nil => exact List.forall_mem_nil _
  | cons f fs ih =>
    refine List.forall_mem_cons.mpr ⟨(h f (by simp)).tracked hf.1 (hkeys f (by simp)), ?_⟩
    exact ih (fun g hg => h g (by simp [hg])) hf.2 fun g hg => hkeys g (by simp [hg])

theorem laidAll_entries (hopens : Opens s X (.ref l)) (hes : s.get? l = some (.mapping es))
    (hclear : ∀ e ∈ es, e.2.Clear X s.size)
    (hv : ∀ n ∈ nodesAll fs, n.kind? = some .memory → ∀ x ∈ watchedAll s n.cell fs (.ref l), x.Immutable) :
    LaidAll s X fs (.ref l) := by
  induction fs with
  | nil => trivial
  | cons f fs ih =>
    rw [LaidAll]
    refine ⟨(h f (by simp)).laid hf.1 (hkeys f (by simp)) hopens hes hclear fun n hn hk x hx => ?_,
      ih (fun g hg => h g (by simp [hg])) hf.2 (fun g hg => hkeys g (by simp [hg])) fun n hn hk x hx => ?_,
      fun k hk _ => ?_⟩
    · exact hv n (List.mem_append_left _ hn) hk x (List.mem_append_left _ hx)
    · exact hv n (List.mem_append_right _ hn) hk x (List.mem_append_right _ hx)
    · rw [(h f (by simp)).path_subset hf.1 hk]

theorem watchedAll_like {R : Value → Value → Prop} (hes : s.get? l = some (.mapping es))
    (hes' : t.get? m = some (.mapping es')) (hlike : List.Forall₂ (fun e e' => e.1 = e'.1 ∧ R e.2 e'.2) es es') :
    ∀ y ∈ watchedAll t c fs (.ref m), ∃ x ∈ watchedAll s c fs (.ref l), R x y := by
  induction fs with
  | nil => exact fun y hy => absurd hy List.not_mem_nil
  | cons f fs ih =>
    intro y hy
    rw [watchedAll] at hy ⊢
    rcases List.mem_append.mp hy with hy | hy
    · obtain ⟨x, hx, hR⟩ := (h f (by simp)).watched_like hf.1 (hkeys f (by simp)) hes hes' hlike y hy
      exact ⟨x, List.mem_append_left _ hx, hR⟩
    · obtain ⟨x, hx, hR⟩ := ih (fun g hg => h g (by simp [hg])) hf.2 (fun g hg => hkeys g (by simp [hg])) y hy
      exact ⟨x, List.mem_append_right _ hx, hR⟩

end

namespace Recordlike

theorem tracked (h : f.Recordlike) (hf : f.Formed) (hs : f.stateful = true) : f.Tracked := by
  induction h with
  | all hapiece hentries =>
    cases hs
    exact .all hapiece (tracked_entries hentries hf.2 hapiece.some)
  | labeled _ ih =>
    obtain ⟨hb, hf⟩ := hf
    exact .labeled (ih hf (hb.symm.trans hs))

theorem path_subset (h : f.Recordlike) (hf : f.Formed) : f.path s (.ref l) ⊆ {l} := by
  induction h with
  | all hapiece hentries =>
    rw [path]
    exact pathAll_entries_subset hentries hf.2
  | labeled _ ih =>
    rw [path]
    exact ih hf.2

/-- A guarded mapping is laid out for a record-like fact if its values are clear, and those that distinct facts see are
immutable. -/
theorem laid (h : f.Recordlike) (hf : f.Formed) (hl : l ∈ X) (hes : s.get? l = some (.mapping es))
    (hclear : ∀ e ∈ es, e.2.Clear X s.size)
    (hv : ∀ n ∈ f.nodes, n.kind? = some .memory → ∀ x ∈ f.watched s n.cell (.ref l), x.Immutable) :
    f.Laid s X (.ref l) := by
  have hopens : Opens s X (.ref l) := by
    refine opens_ref hl fun o ho => ?_
    rw [hes] at ho
    cases ho
    trivial
  induction h with
  | all hapiece hentries =>
    rw [Laid]
    refine ⟨⟨l, rfl⟩, laidAll_entries hentries hf.2 hapiece.some hopens hes hclear fun n hn hk x hx => ?_⟩
    refine hv n ?_ hk x (by rwa [watched])
    rw [nodes]
    exact List.mem_cons_of_mem _ hn
  | labeled _ ih =>
    rw [Laid]
    refine ih hf.2 fun n hn hk x hx => hv n ?_ hk x (by rwa [watched])
    rw [nodes]
    exact List.mem_cons_of_mem _ hn

theorem watched_like {R : Value → Value → Prop} (h : f.Recordlike) (hf : f.Formed) (hes : s.get? l = some (.mapping es))
    (hes' : t.get? m = some (.mapping es')) (hlike : List.Forall₂ (fun e e' => e.1 = e'.1 ∧ R e.2 e'.2) es es') :
    ∀ y ∈ f.watched t c (.ref m), ∃ x ∈ f.watched s c (.ref l), R x y := by
  induction h with
  | all hapiece hentries =>
    simp only [watched]
    exact watchedAll_like hentries hf.2 hapiece.some hes hes' hlike
  | labeled _ ih =>
    simp only [watched]
    exact ih hf.2

end Recordlike

end Fact

end Conform
