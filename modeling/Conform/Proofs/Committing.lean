import Conform.Proofs.Adopting
import Conform.Proofs.Mirror.Mutating

/-!
# Trial and commit

A copy of a fact is a trial: it can be checked and mutated with without a trace in the fact, and the fact
can adopt the state that the copy has come to. `snapshot_commits` says so of every fact that hides no facts,
its parts shared or not, and of any series of uses. What is done with the copy changes no object that the
fact leads to. After the commit the tree is what it was, its cells hold what those of the copy hold, and from
then on the fact answers as the copy would have answered.

The copy and the fact are compared twice, both times as mirrors of each other: while the copy is used, the
copy mirrors itself, and what is no place of its values stays as it was; after the commit the cells of the
copy mirror those of the fact.

Members of enumerations, enumerations and classes that take attributes are shared with a copy, and so are
the attributes given to them (`member_shared`). What they lead to is no part of the fact here.
-/

namespace Conform

open Act

/-- Whether reading and storing a part goes by what values lead to, once a set of places is among those of
the values. -/
def Accessor.Oblivious (U : Set Place) (a : Accessor) : Prop := ∀ M : Mirroring, U ⊆ M.values → a.Mirrors M

theorem Accessor.oblivious_item {U : Set Place} {shown : String} {key : Value} (h : key.Within U) :
    (Accessor.item shown key).Oblivious U := fun _ hU => h.mono hU

/-! ## Series of uses -/

/-- A use of a fact: a value is checked, or it is mutated. -/
inductive Use
  | check (value : Value)
  | mutate (value : Value)

/-- The value that a use is on. -/
def Use.value : Use → Value
  | .check v | .mutate v => v

/-- What a use answers. -/
inductive Answer
  | report (r : Report)
  | value (v : Value)

namespace Fact

/-- Uses a fact, and answers what that ends with. -/
def use (f : Fact) : Use → Act (Except Fault Answer)
  | .check v => do return (← attempt (f.check v)).map .report
  | .mutate v => do return (← attempt (f.mutate v)).map .value

/-- Uses a fact again and again, whatever the uses end with. -/
def uses (f : Fact) (us : List Use) : Act (List (Except Fault Answer)) := us.mapM f.use

theorem exec_use_ok (f : Fact) (u : Use) (w : World) : ∃ a w', exec (f.use u) w = (.ok a, w') := by
  cases u with
  | check v => exact ⟨_, _, by rw [use, exec_after (exec_attempt ..), exec_pure]⟩
  | mutate v => exact ⟨_, _, by rw [use, exec_after (exec_attempt ..), exec_pure]⟩

theorem exec_uses_ok (f : Fact) (us : List Use) : ∀ w : World, ∃ as w', exec (f.uses us) w = (.ok as, w') := by
  induction us with
  | nil => exact fun w => ⟨[], w, rfl⟩
  | cons u us ih =>
    intro w
    obtain ⟨a, w', ha⟩ := f.exec_use_ok u w
    obtain ⟨as, w'', has⟩ := ih w'
    rw [uses] at has
    refine ⟨a :: as, w'', ?_⟩
    rw [uses, List.mapM_cons, exec_after ha, exec_after has, exec_pure]

end Fact

namespace Mirroring

variable {M : Mirroring} {α : Type} {p : α → Prop} {f : Fact} {us : List Use}

theorem agrees_attempt {a b : Act α} (h : M.Agrees a b p) :
    M.Agrees (attempt a) (attempt b) fun _ => True := by
  intro w u hw
  have hended := h w u hw
  rw [exec_attempt, exec_attempt]
  revert hended
  generalize exec a w = r
  generalize exec b u = r'
  rintro (⟨⟨rfl, -⟩, hw'⟩ | hw')
  · exact .ok ⟨rfl, trivial⟩ hw'
  · exact .ok ⟨rfl, trivial⟩ hw'

/-- A fact over the cells of a mirroring and the same fact where these stand are used in step. -/
theorem agrees_uses (hf : f.Lodged M) (hus : ∀ u ∈ us, u.value.Within M.values) :
    M.Agrees ((f.move M.place).uses us) (f.uses us) fun _ => True := by
  refine (agrees_mapM (p := fun _ => True) fun u hu => ?_).mono fun _ _ h => ⟨h.1, trivial⟩
  have hv := hus u hu
  cases u with
  | check v => exact (agrees_attempt (agrees_check hf hv)).bind fun _ _ => agrees_pure trivial
  | mutate v => exact (agrees_attempt (agrees_mutate hf hv)).bind fun _ _ => agrees_pure trivial

end Mirroring

namespace Fact

/-- A fact without hidden facts is lodged where its cells are. -/
theorem Lodged.of_nodes {M : Mirroring} : ∀ f : Fact, (∀ n ∈ f.nodes, n.Overt ∧ n.cell ∈ M.cells ∧
    ∀ a, n.accessor? = some a → a.Mirrors M) → f.Lodged M := by
  refine parts_induction fun f ih h => ?_
  have hself := h f (self_mem_nodes f)
  have hpart (p : Fact) (hp : p ∈ f.parts) : p.Lodged M := ih p hp fun n hn => h n (mem_nodes_of_part hp hn)
  cases f with
  | all c fs n b =>
    have hall : ∀ gs : List Fact, (∀ g ∈ gs, g.Lodged M) → LodgedAll M gs := by
      intro gs
      induction gs with
      | nil => exact fun _ => trivial
      | cons g gs ih => exact fun hgs => ⟨hgs g (by simp), ih fun g' hg' => hgs g' (by simp [hg'])⟩
    exact ⟨hself.2.1, hall fs hpart⟩
  | either c f g b => exact ⟨hself.2.1, hpart f (by simp [parts]), hpart g (by simp [parts])⟩
  | negation c f n b => exact ⟨hself.2.1, hpart f (by simp [parts])⟩
  | each c f b => exact ⟨hself.2.1, hpart f (by simp [parts])⟩
  | labeled c name f b => exact ⟨hself.2.1, hpart f (by simp [parts])⟩
  | lens c a f b => exact ⟨hself.2.1, hself.2.2 a rfl, hpart f (by simp [parts])⟩
  | prism c a f b => exact ⟨hself.2.1, hself.2.2 a rfl, hpart f (by simp [parts])⟩
  | choice c f b =>
    cases f with
    | none => exact hself.2.1
    | some f => exact ⟨hself.2.1, hpart f (by simp [parts])⟩
  | mapped c name tests fs f => exact hself.1.elim
  | foreign c kind => exact hself.1.elim
  | _ => exact hself.2.1

/-! ## Facts by themselves -/

/-- Whether a fact, and all that it leads to, is apart from a region of values. No fact is hidden in it, a
cell is that of one fact only, however often the fact occurs, and nothing refers to a cell. -/
structure Secluded (s : Store) (U : Set Place) (f : Fact) : Prop where
  whole : s.Whole
  region : s.Region U
  attributes : ∀ o, Place.attributes o ∈ U
  overt : ∀ n ∈ f.nodes, n.Overt
  same : ∀ n ∈ f.nodes, ∀ k ∈ f.nodes, n.cell = k.cell → n = k
  slotted : ∀ n ∈ f.nodes, ∃ xs, s.get? n.cell = some (.slots xs)
  accessors : ∀ n ∈ f.nodes, ∀ a, n.accessor? = some a → a.Oblivious U
  outside : ∀ l ∈ s.reachable f.cells, Place.object l ∉ U
  unnamed : ∀ l o, s.get? l = some o → ∀ c ∈ o.refs, c ∉ f.cells

/-- The places that values may lie in while a copy of a fact is used: those of a region, and where there was
nothing before, but not the cells of the copy. -/
def trialPlaces (s : Store) (U : Set Place) (g : Fact) : Set Place :=
  {p | p ∈ U ∨ ∃ l, p = .object l ∧ s.size ≤ l ∧ l ∉ g.cells}

/-- The places that values may lie in afterwards: all but the cells of the fact and of the copy. -/
def laterPlaces (f g : Fact) : Set Place := {p | ∀ l, p = .object l → l ∉ f.cells ∧ l ∉ g.cells}

@[simp] theorem object_mem_laterPlaces {f g : Fact} {l : Loc} :
    Place.object l ∈ laterPlaces f g ↔ l ∉ f.cells ∧ l ∉ g.cells := by
  simp [laterPlaces]

theorem object_mem_trialPlaces {s : Store} {U : Set Place} {g : Fact} {l : Loc} :
    Place.object l ∈ trialPlaces s U g ↔ Place.object l ∈ U ∨ s.size ≤ l ∧ l ∉ g.cells := by
  simp [trialPlaces]

namespace Secluded

variable {s : Store} {U : Set Place} {f : Fact}

/-- Where the cells of a fact are put by a copy of it. -/
abbrev put (s : Store) (f : Fact) : Loc → Loc := (s.copy f.cells).1.place

/-- The copy of a fact. -/
abbrev twin (s : Store) (f : Fact) : Fact := f.move (put s f)

/-- A store with the copy of a fact in it. -/
abbrev copied (s : Store) (f : Fact) : Store := (s.copy f.cells).2

theorem slots_cell (h : Secluded s U f) {c : Loc} (hc : c ∈ f.cells) : ∃ xs, s.get? c = some (.slots xs) := by
  obtain ⟨n, hn, rfl⟩ := mem_cells.mp hc
  exact h.slotted n hn

theorem cell_lt (h : Secluded s U f) {c : Loc} (hc : c ∈ f.cells) : c < s.size := by
  obtain ⟨xs, hget⟩ := h.slots_cell hc
  exact Store.lt_size_of_get? hget

theorem cell_mem (h : Secluded s U f) {c : Loc} (hc : c ∈ f.cells) : c ∈ s.reachable f.cells :=
  Store.mem_reachable_root hc (h.cell_lt hc)

theorem cell_outside (h : Secluded s U f) {c : Loc} (hc : c ∈ f.cells) : Place.object c ∉ U :=
  h.outside c (h.cell_mem hc)

theorem put_inj (h : Secluded s U f) {c d : Loc} (hc : c ∈ f.cells) (hd : d ∈ f.cells)
    (heq : put s f c = put s f d) : c = d :=
  Store.copy_place_inj (h.cell_mem hc) (h.cell_mem hd) heq

theorem mem_twin {d : Loc} : d ∈ (twin s f).cells ↔ ∃ c ∈ f.cells, put s f c = d := by
  rw [cells_move, List.mem_map]

theorem size_le_twin (h : Secluded s U f) {d : Loc} (hd : d ∈ (twin s f).cells) : s.size ≤ d := by
  obtain ⟨c, hc, rfl⟩ := mem_twin.mp hd
  exact Store.size_le_copy_place (h.cell_mem hc)

theorem slots_twin (h : Secluded s U f) {d : Loc} (hd : d ∈ (twin s f).cells) :
    ∃ xs, (copied s f).get? d = some (.slots xs) := by
  obtain ⟨c, hc, rfl⟩ := mem_twin.mp hd
  obtain ⟨xs, hget⟩ := h.slots_cell hc
  exact ⟨_, by rw [Store.get?_copy_place (h.cell_mem hc), hget, Option.map_some, Object.move]⟩

theorem not_mem_twin (h : Secluded s U f) {l : Loc} (hl : l < s.size) : l ∉ (twin s f).cells := fun hmem =>
  Nat.not_lt.mpr (h.size_le_twin hmem) hl

/-- Values of the trial are values that may be used afterwards. -/
theorem trialPlaces_subset (h : Secluded s U f) : trialPlaces s U (twin s f) ⊆ laterPlaces f (twin s f) := by
  rintro p hp l rfl
  rcases object_mem_trialPlaces.mp hp with hU | ⟨hl, hcell⟩
  · exact ⟨fun hc => h.cell_outside hc hU, h.not_mem_twin (h.region.bounded l hU)⟩
  · exact ⟨fun hc => Nat.not_lt.mpr hl (h.cell_lt hc), hcell⟩

/-- What a copy adds to a store names values of the trial only. -/
theorem added_within (h : Secluded s U f) {l : Loc} {o : Object} (hl : s.size ≤ l)
    (ho : (copied s f).get? l = some o) : o.Within (trialPlaces s U (twin s f)) := by
  obtain ⟨k, hk, o', ho', rfl⟩ := Store.exists_of_size_le hl ho
  refine Object.within_move (fun r hr => ?_) fun o _ => .inl (h.attributes o)
  -- what is referred to has been copied too, and it is no cell, since nothing refers to one
  have hmem := Store.reachable_closed hk ho' hr (h.whole.ref_lt ho' hr)
  refine object_mem_trialPlaces.mpr (.inr ⟨Store.size_le_copy_place hmem, fun hcell => ?_⟩)
  obtain ⟨c, hc, heq⟩ := mem_twin.mp hcell
  have hrc := Store.copy_place_inj (h.cell_mem hc) hmem heq
  exact h.unnamed k o' ho' r hr (hrc ▸ hc)

/-! ## The trial -/

/-- The copy mirrors itself while it is used. -/
def trial (h : Secluded s U f) : Mirroring where
  place := id
  cells := {l | Place.object l ∈ U ∨ s.size ≤ l}
  values := trialPlaces s U (twin s f)
  start := copied s f
  attributes := fun o => .inl (h.attributes o)
  own := fun _ hl => ⟨(object_mem_trialPlaces.mp hl).imp id And.left, rfl⟩
  inj := fun _ _ _ _ heq => heq

theorem mem_trial_cells (h : Secluded s U f) {l : Loc} :
    l ∈ h.trial.cells ↔ Place.object l ∈ U ∨ s.size ≤ l :=
  Iff.rfl

/-- A new object that is no place of values is a cell of the copy. -/
theorem mem_twin_of_not_mem (h : Secluded s U f) {l : Loc} (hl : l ∈ h.trial.cells)
    (hv : Place.object l ∉ h.trial.values) : l ∈ (twin s f).cells := by
  by_contra hcell
  refine hv (object_mem_trialPlaces.mpr ?_)
  exact (h.mem_trial_cells.mp hl).imp id fun hle => ⟨hle, hcell⟩

theorem trial_holds (h : Secluded s U f) : h.trial.Holds (copied s f) (copied s f) where
  size := rfl
  marks := rfl
  given := rfl
  get := fun _ _ => rfl
  held := by
    intro c hc o ho
    by_cases hle : s.size ≤ c
    · exact h.added_within hle ho
    · have hU := (h.mem_trial_cells.mp hc).resolve_right hle
      rw [Store.get?_copy_of_lt (Nat.not_le.mp hle)] at ho
      exact (h.region.closed.object hU ho).mono fun p hp => .inl hp
  slotted := by
    intro c hc hv o ho
    obtain ⟨xs, hget⟩ := h.slots_twin (h.mem_twin_of_not_mem hc hv)
    rw [hget] at ho
    cases ho
    exact ⟨xs, rfl⟩
  named := by
    intro e he
    obtain ⟨o, ho⟩ := Option.isSome_iff_exists.mp (h.whole.owned e he)
    exact fun p hp => .inl (h.region.closed _ (h.attributes o) p ⟨e.1, e.2.1, e.2.2, ho, he, hp⟩)
  fresh := by
    intro l hl
    refine object_mem_trialPlaces.mpr (.inr ⟨?_, fun hcell => ?_⟩)
    · rw [Store.size_copy] at hl
      exact Nat.le_trans (Nat.le_add_right _ _) hl
    · obtain ⟨xs, hget⟩ := h.slots_twin hcell
      exact Nat.not_lt.mpr hl (Store.lt_size_of_get? hget)
  owned := h.whole.owned
  frame := fun _ _ => rfl

theorem lodged_trial (h : Secluded s U f) : (twin s f).Lodged h.trial := by
  refine Lodged.of_nodes _ fun n hn => ?_
  rw [nodes_move] at hn
  obtain ⟨k, hk, rfl⟩ := List.mem_map.mp hn
  rw [accessor?_move, cell_move]
  refine ⟨(h.overt k hk).move, .inr ?_, fun a ha => h.accessors k hk a ha _ fun p hp => .inl hp⟩
  exact Store.size_le_copy_place (h.cell_mem (mem_cells.mpr ⟨k, hk, rfl⟩))

/-- What a store is left with by uses of the copy. -/
theorem exec_trial (h : Secluded s U f) {w : World} {us : List Use} (hw : w.store = copied s f)
    (hus : ∀ u ∈ us, u.value.Within (trialPlaces s U (twin s f))) :
    h.trial.Holds (exec ((twin s f).uses us) w).2.store (exec ((twin s f).uses us) w).2.store := by
  have hagrees := Mirroring.agrees_uses h.lodged_trial hus
  have hplace : (twin s f).move h.trial.place = twin s f := move_id _
  rw [hplace] at hagrees
  have hended := hagrees w w ⟨by rw [hw]; exact h.trial_holds, rfl, rfl⟩
  revert hended
  generalize exec ((twin s f).uses us) w = r
  intro hended
  cases hended with
  | ok _ hmirrors => exact hmirrors.store
  | error hmirrors => exact hmirrors.store

variable {t : Store}

/-- What the fact leads to is as it was. -/
theorem trial_frame (h : Secluded s U f) (ht : h.trial.Holds t t) {l : Loc} (hl : l < s.size)
    (hU : Place.object l ∉ U) : t.get? l = s.get? l := by
  have hcell : l ∉ h.trial.cells := fun hmem =>
    (h.mem_trial_cells.mp hmem).elim hU fun hle => Nat.not_lt.mpr hle hl
  rw [ht.frame l hcell]
  exact Store.get?_copy_of_lt hl

theorem trial_slots (h : Secluded s U f) (ht : h.trial.Holds t t) {d : Loc} (hd : d ∈ (twin s f).cells) :
    t.get? d = some (.slots (t.slots d)) := by
  have hvalue : Place.object d ∉ h.trial.values := fun hmem =>
    (h.trialPlaces_subset hmem d rfl).2 hd
  have hlt : d < t.size := by
    by_contra hge
    exact hvalue (ht.fresh d (Nat.not_lt.mp hge))
  obtain ⟨o, ho⟩ := Store.exists_get? hlt
  obtain ⟨xs, rfl⟩ := ht.slotted d (.inr (h.size_le_twin hd)) hvalue o ho
  rw [ho, Store.slots_of_get? ho]

/-- Objects other than the cells of the fact name no cell after the trial. -/
theorem trial_within (h : Secluded s U f) (ht : h.trial.Holds t t) {l : Loc} {o : Object} (ho : t.get? l = some o) :
    o.Within (laterPlaces f (twin s f)) := by
  by_cases hcell : l ∈ h.trial.cells
  · exact (ht.held l hcell o ho).mono h.trialPlaces_subset
  · have hlt : l < s.size := Nat.not_le.mp fun hle => hcell (.inr hle)
    rw [h.trial_frame ht hlt fun hU => hcell (.inl hU)] at ho
    rintro _ hp r rfl
    have hr := (Object.object_mem_places o).mp hp
    exact ⟨h.unnamed l o ho r hr, h.not_mem_twin (h.whole.ref_lt ho hr)⟩

/-! ## The commit -/

theorem movable (h : Secluded s U f) : Movable (put s f) f.nodes where
  overt := h.overt
  same := h.same
  apart := by
    intro n hn k hk heq
    have hle := Store.size_le_copy_place (h.cell_mem (mem_cells.mpr ⟨n, hn, rfl⟩))
    exact Nat.not_lt.mpr (heq ▸ hle) (h.cell_lt (mem_cells.mpr ⟨k, hk, rfl⟩))

/-- After the commit the cells of the copy mirror those of the fact. -/
def commit (h : Secluded s U f) (start : Store) : Mirroring where
  place := fun c => if c ∈ f.cells then put s f c else c
  cells := {l | l ∉ (twin s f).cells}
  values := laterPlaces f (twin s f)
  start := start
  attributes := nofun
  own := fun l hl => ⟨(hl l rfl).2, if_neg (hl l rfl).1⟩
  inj := by
    intro c d hc hd heq
    split at heq <;> split at heq
    · next hcf hdf => exact h.put_inj hcf hdf heq
    · next hcf _ => exact absurd (mem_twin.mpr ⟨c, hcf, heq⟩) hd
    · next _ hdf => exact absurd (mem_twin.mpr ⟨d, hdf, heq.symm⟩) hc
    · exact heq

theorem move_commit (h : Secluded s U f) (start : Store) : f.move (h.commit start).place = twin s f :=
  move_congr fun _ hc => if_pos hc

theorem lodged_commit (h : Secluded s U f) (start : Store) : f.Lodged (h.commit start) := by
  refine Lodged.of_nodes f fun n hn => ⟨h.overt n hn, ?_, fun a ha => h.accessors n hn a ha _ ?_⟩
  · exact h.not_mem_twin (h.cell_lt (mem_cells.mpr ⟨n, hn, rfl⟩))
  · exact Set.Subset.trans (fun p hp => .inl hp) h.trialPlaces_subset

theorem commit_holds (h : Secluded s U f) {w u : World} (hw : h.trial.Holds w.store w.store)
    (hu : Adopted (put s f) {c | c ∈ f.cells} w u) : (h.commit u.store).Holds w.store u.store where
  size := hu.size.symm
  marks := hu.marks.symm
  given := hu.given.symm
  get := by
    intro c hc
    by_cases hcf : c ∈ f.cells
    · have hplace : (h.commit u.store).place c = put s f c := if_pos hcf
      rw [hplace, hu.taken c hcf]
      exact h.trial_slots hw (mem_twin.mpr ⟨c, hcf, rfl⟩)
    · have hplace : (h.commit u.store).place c = c := if_neg hcf
      rw [hplace, hu.others c hcf]
  held := by
    intro c hc o ho
    by_cases hcf : c ∈ f.cells
    · rw [hu.taken c hcf] at ho
      cases ho
      have hslots := h.trial_slots hw (mem_twin.mpr ⟨c, hcf, rfl⟩)
      exact h.trial_within hw hslots
    · rw [hu.others c hcf] at ho
      exact h.trial_within hw ho
  slotted := by
    intro c hc hv o ho
    have hcf : c ∈ f.cells := by
      by_contra hcf
      refine hv ?_
      rintro _ ⟨⟩
      exact ⟨hcf, hc⟩
    rw [hu.taken c hcf] at ho
    cases ho
    exact ⟨_, rfl⟩
  named := by
    intro e he
    rw [hu.given] at he
    exact (hw.named e he).mono h.trialPlaces_subset
  fresh := by
    intro l hl
    rw [hu.size] at hl
    exact h.trialPlaces_subset (hw.fresh l hl)
  owned := by
    intro e he
    rw [hu.given] at he
    exact hw.owned e he
  frame := fun _ _ => rfl

end Secluded

/-! ## Results -/

/-- Whether two worlds are the same but for what a fact and its copy hold, which the fact holds in the first
and the copy in the second. -/
structure Carried (m : Loc → Loc) (f : Fact) (w u : World) : Prop where
  source : w.source = u.source
  log : w.log = u.log
  size : w.store.size = u.store.size
  given : w.store.given = u.store.given
  slots : ∀ c ∈ f.cells, w.store.slots c = u.store.slots (m c)
  get : ∀ l, l ∉ f.cells → l ∉ (f.move m).cells → w.store.get? l = u.store.get? l

/-- **A copy is a faithful trial.** A copy of a fact is used in any way, and then the fact adopts its state.
Meanwhile nothing has changed that the fact leads to; afterwards it is the tree that it was, its cells hold
what those of the copy hold, and it answers to any further uses as the copy would have, with the same effects. -/
theorem snapshot_commits {f : Fact} {U : Set Place} {w : World} (h : Secluded w.store U f) :
    ∃ (m : Loc → Loc) (w₁ : World), exec f.copy w = (.ok (f.move m), w₁) ∧
      (∀ c ∈ f.cells, ∀ d ∈ f.cells, m c = m d → c = d) ∧
      ∀ us : List Use, (∀ u ∈ us, u.value.Within (trialPlaces w.store U (f.move m))) →
        ∃ answers w₂, exec ((f.move m).uses us) w₁ = (.ok answers, w₂) ∧
          (∀ l ∈ w.store.reachable f.cells, w₂.store.get? l = w.store.get? l) ∧
          ∃ edits w₃, exec (f.adopt (f.move m)) w₂ = (.ok edits, w₃) ∧ f.edited edits = f ∧
            Carried m f w₃ w₂ ∧
            ∀ later : List Use, (∀ u ∈ later, u.value.Within (laterPlaces f (f.move m))) →
              (exec (f.uses later) w₃).1 = (exec ((f.move m).uses later) w₂).1 ∧
                Carried m f (exec (f.uses later) w₃).2 (exec ((f.move m).uses later) w₂).2 := by
  refine ⟨Secluded.put w.store f, { w with store := Secluded.copied w.store f }, rfl,
    fun c hc d hd => h.put_inj hc hd, fun us hus => ?_⟩
  have hholds := h.exec_trial (w := { w with store := Secluded.copied w.store f }) rfl hus
  obtain ⟨answers, w₂, hexec⟩ := exec_uses_ok (Secluded.twin w.store f) us
    { w with store := Secluded.copied w.store f }
  rw [hexec] at hholds
  refine ⟨answers, w₂, hexec, fun l hl => ?_, ?_⟩
  · exact h.trial_frame hholds (Store.lt_of_mem_reachable hl) (h.outside l hl)
  -- the trial has left the cells of the fact alone, so they are there to take over what the copy holds
  obtain ⟨edits, w₃, hadopt, hedited, hadopted⟩ := exec_adopt (w := w₂) h.movable fun n hn => by
    have hmem : n.cell ∈ f.cells := mem_cells.mpr ⟨n, hn, rfl⟩
    obtain ⟨xs, hget⟩ := h.slotted n hn
    rw [← h.trial_frame hholds (h.cell_lt hmem) (h.cell_outside hmem)] at hget
    exact Store.lt_size_of_get? hget
  have hcarried : ∀ {x y : World}, (h.commit w₃.store).Mirrors x y → Carried (Secluded.put w.store f) f y x := by
    intro x y hxy
    refine ⟨hxy.source.symm, hxy.log.symm, hxy.store.size.symm, hxy.store.given.symm, fun c hc => ?_,
      fun l hf hg => ?_⟩
    · have hplace : (h.commit w₃.store).place c = Secluded.put w.store f c := if_pos hc
      rw [← hplace, hxy.store.slots_eq (h.not_mem_twin (h.cell_lt hc))]
    · have hplace : (h.commit w₃.store).place l = l := if_neg hf
      have hget := hxy.store.get l hg
      rw [hplace] at hget
      exact hget.symm
  have hmirrors : (h.commit w₃.store).Mirrors w₂ w₃ :=
    ⟨h.commit_holds hholds hadopted, hadopted.source.symm, hadopted.log.symm⟩
  refine ⟨edits, w₃, hadopt, hedited, hcarried hmirrors, fun later hlater => ?_⟩
  have hended := Mirroring.agrees_uses (h.lodged_commit w₃.store) hlater w₂ w₃ hmirrors
  rw [h.move_commit] at hended
  revert hended
  generalize exec ((Secluded.twin w.store f).uses later) w₂ = r
  generalize exec (f.uses later) w₃ = r'
  rintro (⟨⟨rfl, -⟩, hxy⟩ | hxy)
  · exact ⟨rfl, hcarried hxy⟩
  · exact ⟨rfl, hcarried hxy⟩

/-! ## A counter in two positions -/

/-- A fact that counts the items of a mapping, and once more what has not been seen, with one counter. -/
def tallyFact : Fact :=
  .all 4 [.lens 3 (.item "k" (.text "k")) (.counter 0) true, .either 5 (.counter 0) (.distinct 1 none 3) true] 5 true

/-- A world with the cells of that fact, the list of what has been seen and a mapping. -/
def tallyWorld : World where
  store := ⟨#[.slots [.int 0, .int 0], .slots [.ref 2], .list [], .slots [], .slots [], .slots [],
    .mapping [(.text "k", .int 0)]], spelledMarks, []⟩
  source := .tape [0] 0
  log := #[]

/-- The mapping, and all attributes. -/
def tallyValues : Set Place := {p | p = .object 6 ∨ ∃ o, p = .attributes o}

theorem secluded_tally : Secluded tallyWorld.store tallyValues tallyFact where
  whole := Store.Whole.of_bound (by decide) rfl
  region := by
    refine ⟨?_, ?_⟩
    · rintro _ (rfl | ⟨o, rfl⟩) q hq
      · obtain ⟨o, ho, hq⟩ := hq
        cases ho
        cases hq
      · obtain ⟨a, name, v, -, hmem, -⟩ := hq
        cases hmem
    · rintro l (hl | ⟨o, ho⟩)
      · cases hl
        decide
      · cases ho
  attributes := fun o => .inr ⟨o, rfl⟩
  overt := by simp [tallyFact, nodes, nodesAll, Overt]
  same := by simp [tallyFact, nodes, nodesAll, cell]
  slotted := by simp [tallyFact, nodes, nodesAll, cell, tallyWorld, Store.get?]
  accessors := by
    intro n hn a ha
    simp only [tallyFact, nodes, nodesAll, List.mem_cons, List.mem_append, List.not_mem_nil, or_false] at hn
    rcases hn with rfl | (rfl | rfl) | rfl | rfl | rfl <;> cases ha
    exact Accessor.oblivious_item Value.within_text
  outside := by
    have hreach : ∀ l ∈ tallyWorld.store.reachable tallyFact.cells, l ≠ 6 := by decide
    rintro l hl (heq | ⟨o, heq⟩)
    · cases heq
      exact hreach 6 hl rfl
    · cases heq
  unnamed := by
    have hrefs : ∀ o ∈ tallyWorld.store.objects.toList, ∀ c ∈ o.refs, c ∉ tallyFact.cells := by decide
    exact fun l o ho => hrefs o (Array.mem_toList_iff.mpr (Array.mem_of_getElem? ho))

/-- The uses of a copy, before the fact adopts its state. -/
def tallyUses : List Use := [.check (.ref 6), .mutate (.ref 6), .check (.int 3)]

/-- The uses of the fact afterwards. -/
def tallyLater : List Use := [.check (.int 3), .mutate (.int 3)]

theorem snapshot_commits_tally : Secluded tallyWorld.store tallyValues tallyFact ∧
    ∃ (m : Loc → Loc) (w₁ w₂ w₃ : World) (answers : List (Except Fault Answer)) (edits : Edits),
      exec tallyFact.copy tallyWorld = (.ok (tallyFact.move m), w₁) ∧
        exec ((tallyFact.move m).uses tallyUses) w₁ = (.ok answers, w₂) ∧
        (∀ l ∈ tallyWorld.store.reachable tallyFact.cells, w₂.store.get? l = tallyWorld.store.get? l) ∧
        exec (tallyFact.adopt (tallyFact.move m)) w₂ = (.ok edits, w₃) ∧ tallyFact.edited edits = tallyFact ∧
        Carried m tallyFact w₃ w₂ ∧
        (exec (tallyFact.uses tallyLater) w₃).1 = (exec ((tallyFact.move m).uses tallyLater) w₂).1 := by
  obtain ⟨m, w₁, hcopy, -, huses⟩ := snapshot_commits secluded_tally
  have hvalues : ∀ u ∈ tallyUses, u.value.Within (trialPlaces tallyWorld.store tallyValues (tallyFact.move m)) := by
    have hmapping : Place.object 6 ∈ trialPlaces tallyWorld.store tallyValues (tallyFact.move m) := .inl (.inl rfl)
    simpa [tallyUses, Use.value] using hmapping
  have hlater : ∀ u ∈ tallyLater, u.value.Within (laterPlaces tallyFact (tallyFact.move m)) := by
    simp [tallyLater, Use.value]
  obtain ⟨answers, w₂, huse, hframe, edits, w₃, hadopt, hedited, hcarried, hagree⟩ := huses tallyUses hvalues
  exact ⟨secluded_tally, m, w₁, w₂, w₃, answers, edits, hcopy, huse, hframe, hadopt, hedited, hcarried,
    (hagree tallyLater hlater).1⟩

/-! ## What a copy shares -/

/-- An enumeration, of which a member is in the reference value of a fact. -/
def colour : EnumClass := ⟨"Colour", false, [("RED", .text "red")]⟩

/-- A fact of the member that it has an attribute of a certain value. -/
def memberFact : Fact :=
  .all 2 [.equality 0 true none 0, .lens 3 (.optionalAttr "x") (.equality 1 true none 0) false] 5 false

/-- A world with the cells of that fact. -/
def memberWorld : World where
  store := ⟨#[.slots [.atom (.member colour 0)], .slots [.text "t"], .slots [], .slots []], spelledMarks, []⟩
  source := .tape [0] 0
  log := #[]

/-- A member of an enumeration is shared with a copy. So mutating with a copy may give an attribute to the
reference value of a fact, which then passes a check that it has failed. -/
theorem member_shared : ∃ g w₁ v w₂, exec memberFact.copy memberWorld = (.ok g, w₁) ∧
    exec (g.mutate (.int 0)) w₁ = (.ok v, w₂) ∧
    memberWorld.store.slot 0 0 = .atom (.member colour 0) ∧
    Accessor.getOptional memberWorld.store (.atom (.member colour 0)) "x" = .ok .absent ∧
    Accessor.getOptional w₂.store (.atom (.member colour 0)) "x" = .ok (.text "t") ∧
    (exec (memberFact.check (.atom (.member colour 0))) memberWorld).1.map Report.ok = .ok false ∧
    (exec (memberFact.check (.atom (.member colour 0))) w₂).1.map Report.ok = .ok true :=
  ⟨_, _, _, _, rfl, rfl, rfl, rfl, rfl, rfl, rfl⟩

end Fact

end Conform
