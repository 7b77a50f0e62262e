import Conform.Fact.Mutate
import Conform.Proofs.Copying
import Conform.Proofs.Drawing
import Conform.Proofs.Parts

/-!
# Facts in an arena

A fact fits an arena if its reference values lie among the values of the arena and the cells of its
stateful parts may be written to. A copy of a fact fits any arena that takes copies: all that matters
then are the generators, the accessors and the facts chosen from the value, which are not copied.
-/

namespace Conform

namespace Arena

/-- Whether all that the slots of a cell ever hold lies among the values. -/
def Readable (A : Arena) (c : Loc) : Prop := ∀ s, A.Holds s → ∀ v ∈ s.slots c, v.Within A.values

/-- Whether an arena takes copies of what is stateful. -/
def Copies (A : Arena) (stateful : Bool) : Prop := stateful = true → A.Copyable

variable {A : Arena} {c : Loc}

theorem Free.readable (h : A.Free c) : A.Readable c := fun _ hs => hs.slots_within h.2

/-- What is not written to keeps its slots, so they only have to lie among the values at the start. -/
theorem readable_of_start (hc : Place.object c ∉ A.writable)
    (h : ∀ v ∈ A.start.slots c, v.Within A.values) : A.Readable c := by
  intro s hs
  rw [hs.slots_start hc]
  exact h

end Arena

namespace Fact

/-- Whether the recipes of an optional generator fit an arena. -/
def Draws (A : Arena) (g : Option Generator) : Prop := ∀ x ∈ g, x.Fits A

mutual

/-- Whether a fact can be used in an arena. If it is to be copied first, its own cells do not matter,
except those of facts chosen from the value, which are not copied. -/
def Fits (A : Arena) : (copied : Bool) → Fact → Prop
  | _, .always _ | _, .never _ _ | _, .predicate _ _ _ => True
  | _, .pair _ _ g _ | _, .brute _ _ _ g _ => Draws A g
  | copied, .membership c | copied, .range c _ => copied = false → A.Readable c
  | copied, .equality c _ g _ | copied, .length c _ g => (copied = false → A.Readable c) ∧ Draws A g
  | copied, .counter c => copied = false → A.Free c
  | copied, .distinct c g _ => (copied = false → A.Free c) ∧ Draws A g
  | copied, .all _ fs _ b =>
    FitsAll A copied fs ∧ A.Copies b ∧ (b = true → copied = false → ∀ c ∈ cellsAll fs, A.Free c)
  | copied, .either _ f g b => Fits A copied f ∧ Fits A copied g ∧ A.Copies b
  | copied, .negation _ f _ b => Fits A copied f ∧ A.Copies b
  | copied, .lens _ a f _ | copied, .prism _ a f _ => a.Fits A ∧ Fits A copied f
  | copied, .each _ f _ | copied, .labeled _ _ f _ => Fits A copied f
  | _, .mapped _ _ _ fs f => FitsAll A false fs ∧ Fits A false f
  | copied, .choice c none b => (copied = false → A.Readable c) ∧ A.Copies b
  | copied, .choice c (some f) b =>
    (copied = false → A.Readable c) ∧ A.Copies b ∧ Fits A copied f ∧ A.Copies f.stateful
  | _, .foreign _ _ => False

/-- Whether several facts can be used in an arena. -/
def FitsAll (A : Arena) : (copied : Bool) → List Fact → Prop
  | _, [] => True
  | copied, f :: fs => Fits A copied f ∧ FitsAll A copied fs

end

variable {A : Arena}

mutual

/-- A fact that can be used as it is can be used after copying it. -/
theorem Fits.copied : ∀ {f : Fact}, f.Fits A false → f.Fits A true
  | .always _, h | .never _ _, h | .predicate _ _ _, h | .pair _ _ _ _, h | .brute _ _ _ _ _, h => h
  | .membership _, _ | .range _ _, _ | .counter _, _ => nofun
  | .equality _ _ _ _, h | .length _ _ _, h | .distinct _ _ _, h => ⟨nofun, h.2⟩
  | .all _ _ _ _, h => ⟨FitsAll.copied h.1, h.2.1, fun _ => nofun⟩
  | .either _ _ _ _, h => ⟨Fits.copied h.1, Fits.copied h.2.1, h.2.2⟩
  | .negation _ _ _ _, h => ⟨Fits.copied h.1, h.2⟩
  | .lens _ _ _ _, h | .prism _ _ _ _, h => ⟨h.1, Fits.copied h.2⟩
  | .each _ f _, h | .labeled _ _ f _, h => Fits.copied (f := f) h
  | .mapped _ _ _ _ _, h => h
  | .choice _ none _, h => ⟨nofun, h.2⟩
  | .choice _ (some _) _, h => ⟨nofun, h.2.1, Fits.copied h.2.2.1, h.2.2.2⟩

theorem FitsAll.copied : ∀ {fs : List Fact}, FitsAll A false fs → FitsAll A true fs
  | [], h => h
  | _ :: _, h => ⟨Fits.copied h.1, FitsAll.copied h.2⟩

end

/-- A fact that can be used as it is can be probed. -/
theorem Fits.probed {f : Fact} (h : f.Fits A false) : f.Fits A f.stateful := by
  cases f.stateful with
  | false => exact h
  | true => exact h.copied

mutual

theorem cells_move (m : Loc → Loc) : ∀ f : Fact, (f.move m).cells = f.cells.map m
  | .always _ | .never _ _ | .predicate _ _ _ | .pair _ _ _ _ | .brute _ _ _ _ _ | .membership _
  | .range _ _ | .counter _ | .equality _ _ _ _ | .length _ _ _ | .distinct _ _ _ | .choice _ none _
  | .mapped _ _ _ _ _ | .foreign _ _ => rfl
  | .all _ fs _ _ => by simp [move, cells, cellsAll_move m fs]
  | .either _ f g _ => by simp [move, cells, cells_move m f, cells_move m g]
  | .negation _ f _ _ | .lens _ _ f _ | .prism _ _ f _ | .each _ f _ | .labeled _ _ f _
  | .choice _ (some f) _ => by simp [move, cells, cells_move m f]

theorem cellsAll_move (m : Loc → Loc) : ∀ fs : List Fact, cellsAll (moveAll m fs) = (cellsAll fs).map m
  | [] => rfl
  | f :: fs => by simp [moveAll, cellsAll, cells_move m f, cellsAll_move m fs]

end

mutual

/-- Where a fact is moved to depends on its cells only. -/
theorem move_congr {m k : Loc → Loc} : ∀ {f : Fact}, (∀ c ∈ f.cells, m c = k c) → f.move m = f.move k
  | .always c, h | .never c _, h | .predicate c _ _, h | .pair c _ _ _, h | .brute c _ _ _ _, h
  | .membership c, h | .range c _, h | .counter c, h | .equality c _ _ _, h | .length c _ _, h
  | .distinct c _ _, h | .choice c none _, h | .mapped c _ _ _ _, h | .foreign c _, h => by
    simp only [move, h c (List.mem_singleton.mpr rfl)]
  | .all c fs _ _, h => by
    have hfs : moveAll m fs = moveAll k fs := moveAll_congr fun d hd => h d (List.mem_cons_of_mem _ hd)
    simp only [move, h c (by simp [cells]), hfs]
  | .either c f g _, h => by
    have hf := move_congr (f := f) fun d hd => h d (List.mem_cons_of_mem _ (List.mem_append_left _ hd))
    have hg := move_congr (f := g) fun d hd => h d (List.mem_cons_of_mem _ (List.mem_append_right _ hd))
    simp only [move, h c (by simp [cells]), hf, hg]
  | .negation c f _ _, h | .lens c _ f _, h | .prism c _ f _, h | .each c f _, h | .labeled c _ f _, h
  | .choice c (some f) _, h => by
    have hf := move_congr (f := f) fun d hd => h d (List.mem_cons_of_mem _ hd)
    simp only [move, h c (by simp [cells]), hf]

theorem moveAll_congr {m k : Loc → Loc} : ∀ {fs : List Fact}, (∀ c ∈ cellsAll fs, m c = k c) →
    moveAll m fs = moveAll k fs
  | [], _ => rfl
  | f :: fs, h => by
    have hf := move_congr (f := f) fun c hc => h c (List.mem_append_left _ hc)
    have hfs : moveAll m fs = moveAll k fs := moveAll_congr fun c hc => h c (List.mem_append_right _ hc)
    simp only [moveAll, hf, hfs]

end

theorem stateful_move (m : Loc → Loc) (f : Fact) : (f.move m).stateful = f.stateful := by
  cases f with
  | choice c f b => cases f <;> rfl
  | _ => rfl

theorem label?_move (m : Loc → Loc) (f : Fact) : (f.move m).label? = f.label? := by
  cases f with
  | choice c f b => cases f <;> rfl
  | _ => rfl

mutual

/-- A copy whose cells are free can be used. -/
theorem Fits.move {m : Loc → Loc} : ∀ {f : Fact}, f.Fits A true → (∀ c ∈ f.cells, A.Free (m c)) →
    (f.move m).Fits A false
  | .always _, h, _ | .never _ _, h, _ | .predicate _ _ _, h, _ | .pair _ _ _ _, h, _
  | .brute _ _ _ _ _, h, _ | .mapped _ _ _ _ _, h, _ => h
  | .membership c, _, hc | .range c _, _, hc => fun _ => (hc c (by simp [cells, cell])).readable
  | .counter c, _, hc => fun _ => hc c (by simp [cells, cell])
  | .equality c _ _ _, h, hc | .length c _ _, h, hc =>
    ⟨fun _ => (hc c (by simp [cells, cell])).readable, h.2⟩
  | .distinct c _ _, h, hc => ⟨fun _ => hc c (by simp [cells, cell]), h.2⟩
  | .all _ fs _ _, h, hc => by
    refine ⟨FitsAll.move h.1 fun c h => hc c (by simp [cells, h]), h.2.1, fun _ _ c hmem => ?_⟩
    rw [cellsAll_move] at hmem
    obtain ⟨d, hd, rfl⟩ := List.mem_map.mp hmem
    exact hc d (by simp [cells, hd])
  | .either _ _ _ _, h, hc =>
    ⟨Fits.move h.1 fun c h => hc c (by simp [cells, h]),
      Fits.move h.2.1 fun c h => hc c (by simp [cells, h]), h.2.2⟩
  | .negation _ _ _ _, h, hc => ⟨Fits.move h.1 fun c h => hc c (by simp [cells, h]), h.2⟩
  | .lens _ _ _ _, h, hc | .prism _ _ _ _, h, hc =>
    ⟨h.1, Fits.move h.2 fun c h => hc c (by simp [cells, h])⟩
  | .each _ f _, h, hc | .labeled _ _ f _, h, hc =>
    Fits.move (f := f) h fun c h => hc c (by simp [cells, h])
  | .choice c none _, h, hc => ⟨fun _ => (hc c (by simp [cells, cell])).readable, h.2⟩
  | .choice c (some f) _, h, hc => by
    refine ⟨fun _ => (hc c (by simp [cells])).readable, h.2.1,
      Fits.move h.2.2.1 fun c h => hc c (by simp [cells, h]), ?_⟩
    rw [stateful_move]
    exact h.2.2.2

theorem FitsAll.move {m : Loc → Loc} : ∀ {fs : List Fact}, FitsAll A true fs →
    (∀ c ∈ cellsAll fs, A.Free (m c)) → FitsAll A false (moveAll m fs)
  | [], _, _ => trivial
  | _ :: _, h, hc =>
    ⟨Fits.move h.1 fun c h => hc c (by simp [cellsAll, h]),
      FitsAll.move h.2 fun c h => hc c (by simp [cellsAll, h])⟩

end

theorem FitsAll.mem {copied : Bool} : ∀ {fs : List Fact}, FitsAll A copied fs →
    ∀ f ∈ fs, f.Fits A copied
  | [], _, _, h => nomatch h
  | f :: fs, hfs, g, hg => by
    rcases List.mem_cons.mp hg with rfl | hg
    · exact hfs.1
    · exact FitsAll.mem hfs.2 g hg

end Fact

namespace Arena

open Conform.Fact

variable {A : Arena}

/-! ## Copies -/

theorem runs_copyAll {fs : List Fact} (hA : A.Copyable) (h : FitsAll A true fs) :
    A.Runs (copyAll fs) fun gs => FitsAll A false gs ∧ ∀ c ∈ cellsAll gs, A.Free c := by
  have hcopy : A.Runs (Act.onStore fun s => s.copy (cellsAll fs)) fun r =>
      ∀ c ∈ cellsAll fs, A.Free (r.place c) := by
    intro w hw
    refine ⟨hw.copy hA, ?_, nofun, id⟩
    rintro r ⟨⟩ c hc
    exact hw.copy_place hc
  refine hcopy.bind fun r hr => runs_pure ⟨h.move hr, fun c hc => ?_⟩
  rw [cellsAll_move] at hc
  obtain ⟨d, hd, rfl⟩ := List.mem_map.mp hc
  exact hr d hd

theorem runs_copy {f : Fact} (hA : A.Copyable) (h : f.Fits A true) :
    A.Runs f.copy fun g => g.Fits A false ∧ ∀ c ∈ g.cells, A.Free c := by
  have hcopy : A.Runs (Act.onStore fun s => s.copy f.cells) fun r =>
      ∀ c ∈ f.cells, A.Free (r.place c) := by
    intro w hw
    refine ⟨hw.copy hA, ?_, nofun, id⟩
    rintro r ⟨⟩ c hc
    exact hw.copy_place hc
  refine hcopy.bind fun r hr => runs_pure ⟨h.move hr, fun c hc => ?_⟩
  rw [cells_move] at hc
  obtain ⟨d, hd, rfl⟩ := List.mem_map.mp hc
  exact hr d hd

/-- A probe of a fact that fits after copying, if it is copied, can be used, and its cells are free if it is
a copy. -/
theorem runs_probe {f : Fact} (hA : A.Copies f.stateful) (h : f.Fits A f.stateful) :
    A.Runs f.probe fun g => g.Fits A false ∧ (f.stateful = true → ∀ c ∈ g.cells, A.Free c) := by
  unfold probe
  split
  · next hf => exact (runs_copy (hA hf) (hf ▸ h)).mono fun g hg => ⟨hg.1, fun _ => hg.2⟩
  · next hf =>
    rw [Bool.not_eq_true] at hf
    exact runs_pure ⟨hf ▸ h, fun hs => absurd (hf.symm.trans hs) (by decide)⟩

theorem runs_commitCells : ∀ {targets sources : List Loc}, A.Mutable →
    (∀ c ∈ targets, A.Free c) → (∀ c ∈ sources, A.Free c) →
    A.Runs (commitCells targets sources) fun _ => True := by
  intro targets sources hA htargets hsources
  -- the induction is on the pairs, of which only their membership in the two lists matters
  have hpairs : ∀ ps : List (Loc × Loc), (∀ p ∈ ps, A.Free p.1 ∧ A.Free p.2) →
      A.Runs (ps.forM fun p => do Act.put p.1 (.slots (← Act.ask (·.slots p.2)))) fun _ => True := by
    intro ps
    induction ps with
    | nil =>
      intro _
      exact runs_pure trivial
    | cons p ps ih =>
      intro h
      obtain ⟨htarget, hsource⟩ := h p (by simp)
      have hslots : A.Runs (Act.ask (·.slots p.2)) fun vs => ∀ v ∈ vs, v.Within A.values :=
        runs_ask fun s hs => hs.slots_within hsource.2
      refine Runs.bind (P := fun _ => True) ?_ fun _ _ => ih fun q hq => h q (by simp [hq])
      refine hslots.bind fun vs hvs => runs_put htarget.1 (Object.within_slots.mpr hvs) ?_
      rintro us ⟨⟩ m hm
      exact hA (Value.within_ref.mp (hvs _ hm))
  refine hpairs _ fun p hp => ?_
  have hmem := List.of_mem_zip (a := p.1) (b := p.2) hp
  exact ⟨htargets _ hmem.1, hsources _ hmem.2⟩

end Arena

end Conform
