import Conform.Fact.Adopt
import Conform.Proofs.Levels

/-!
# Adopting the state of a copy

A fact that hides no facts and whose nodes are told apart by their cells adopts the state of a copy of it
(`exec_adopt`): every part is updated where it is, however often the walk comes upon it, and the tree is
what it was. All that changes is that the cells of the fact hold what those of the copy hold.
-/

namespace Conform

open Act

namespace Fact

variable {m : Loc → Loc} {f p n : Fact} {N : List Fact} {edits : Edits}

/-- Whether a node hides no facts: it does not choose them from the value, and it is not brought from
outside. -/
def Overt : Fact → Prop
  | .mapped _ _ _ _ _ | .foreign _ _ => False
  | _ => True

theorem Overt.move (h : n.Overt) : (n.move m).Overt := by
  cases n with
  | choice c f b => cases f <;> trivial
  | mapped c name tests fs f => exact h.elim
  | foreign c kind => exact h.elim
  | _ => trivial

/-! ## Parts -/

theorem mem_cells {f : Fact} {c : Loc} : c ∈ f.cells ↔ ∃ n ∈ f.nodes, n.cell = c := by
  rw [← map_cell_nodes, List.mem_map]

theorem depth_lt_of_part : ∀ {f : Fact}, p ∈ f.parts → p.depth < f.depth
  | .all _ _ _ _, hp => Nat.lt_succ_of_le (depth_le_depths hp)
  | .either _ _ _ _, hp => by
    simp only [parts, List.mem_cons, List.not_mem_nil, or_false] at hp
    rcases hp with rfl | rfl
    · exact Nat.lt_succ_of_le (Nat.le_max_left _ _)
    · exact Nat.lt_succ_of_le (Nat.le_max_right _ _)
  | .negation _ _ _ _, hp | .lens _ _ _ _, hp | .prism _ _ _ _, hp | .each _ _ _, hp
  | .labeled _ _ _ _, hp | .choice _ (some _) _, hp => List.mem_singleton.mp hp ▸ Nat.lt_succ_self _
  | .always _, hp | .never _ _, hp | .predicate _ _ _, hp | .pair _ _ _ _, hp | .brute _ _ _ _ _, hp
  | .membership _, hp | .range _ _, hp | .counter _, hp | .equality _ _ _ _, hp | .length _ _ _, hp
  | .distinct _ _ _, hp | .choice _ none _, hp | .mapped _ _ _ _ _, hp | .foreign _ _, hp =>
    absurd hp List.not_mem_nil

/-- What holds of a fact if it holds of its parts holds of every fact. -/
theorem parts_induction {P : Fact → Prop} (h : ∀ f, (∀ p ∈ f.parts, P p) → P f) (f : Fact) : P f := by
  have hdepth : ∀ (k : Nat) (f : Fact), f.depth < k → P f := by
    intro k
    induction k with
    | zero =>
      intro f hf
      exact absurd hf (Nat.not_lt_zero _)
    | succ k ih =>
      intro f hf
      exact h f fun p hp => ih p (Nat.lt_of_lt_of_le (depth_lt_of_part hp) (Nat.le_of_lt_succ hf))
  exact hdepth (f.depth + 1) f (Nat.lt_succ_self _)

theorem depth_le_of_mem_nodes : ∀ f : Fact, n ∈ f.nodes → n.depth ≤ f.depth := by
  refine parts_induction fun f ih hn => ?_
  rw [nodes_eq] at hn
  rcases List.mem_cons.mp hn with rfl | hn
  · exact Nat.le_refl _
  · obtain ⟨p, hp, hn⟩ := mem_nodesAll hn
    exact Nat.le_trans (ih p hp hn) (Nat.le_of_lt (depth_lt_of_part hp))

theorem className_move (f : Fact) : (f.move m).className = f.className := by
  cases f with
  | choice c f b => cases f <;> rfl
  | _ => rfl

theorem moveAll_eq_map (fs : List Fact) : moveAll m fs = fs.map (move m) := by
  induction fs with
  | nil => rfl
  | cons f fs ih => rw [moveAll, ih, List.map_cons]

/-! ## Trees that edits leave alone -/

theorem mapParts_eq {g : Fact → Fact} : ∀ {f : Fact}, f.Overt → (∀ p ∈ f.parts, g p = p) → mapParts g f = f
  | .always _, _, _ | .never _ _, _, _ | .predicate _ _ _, _, _ | .pair _ _ _ _, _, _
  | .brute _ _ _ _ _, _, _ | .membership _, _, _ | .range _ _, _, _ | .counter _, _, _
  | .equality _ _ _ _, _, _ | .length _ _ _, _, _ | .distinct _ _ _, _, _ | .choice _ none _, _, _ => rfl
  | .all _ fs _ _, _, h => by
    have hfs : fs.map g = fs := (List.map_congr_left h).trans (List.map_id _)
    rw [mapParts, hfs]
  | .either _ f f' _, _, h => by simp only [mapParts, h f (by simp [parts]), h f' (by simp [parts])]
  | .negation _ f _ _, _, h | .lens _ _ f _, _, h | .prism _ _ f _, _, h | .each _ f _, _, h
  | .labeled _ _ f _, _, h | .choice _ (some f) _, _, h => by
    simp only [mapParts, Option.map_some, h f (by simp [parts])]
  | .mapped _ _ _ _ _, hf, _ | .foreign _ _, hf, _ => hf.elim

/-- Whether edits say of every node of a fact what it is already. -/
def Confirmed (edits : Edits) (f : Fact) : Prop := ∀ n ∈ f.nodes, ∀ k, edits.lookup n.cell = some k → k = n

theorem Confirmed.part (h : Confirmed edits f) (hp : p ∈ f.parts) : Confirmed edits p := fun n hn =>
  h n (mem_nodes_of_part hp hn)

theorem Confirmed.self (h : Confirmed edits f) : (edits.lookup f.cell).getD f = f := by
  cases hk : edits.lookup f.cell with
  | none => rfl
  | some k => exact h f (self_mem_nodes f) k hk

theorem editedWithin_eq (levels : Nat) : ∀ f : Fact, (∀ n ∈ f.nodes, n.Overt) → Confirmed edits f →
    editedWithin edits levels f = f := by
  induction levels with
  | zero =>
    intro f _ _
    rfl
  | succ levels ih =>
    intro f hovert h
    rw [editedWithin, h.self]
    refine mapParts_eq (hovert f (self_mem_nodes f)) fun p hp => ih p (fun n hn => ?_) (h.part hp)
    exact hovert n (mem_nodes_of_part hp hn)

theorem edited_eq (hovert : ∀ n ∈ f.nodes, n.Overt) (h : Confirmed edits f) : f.edited edits = f :=
  editedWithin_eq _ f hovert h

/-- Nodes that are told apart by their cells are no parts of themselves. -/
theorem reenters_eq (hsame : ∀ n ∈ N, ∀ k ∈ N, n.cell = k.cell → n = k) (levels : Nat) :
    ∀ (path : List Loc) (f : Fact), (∀ n ∈ f.nodes, n ∈ N) → Confirmed edits f →
      (∀ n ∈ f.nodes, n.cell ∉ path) → reenters edits levels path f = false := by
  induction levels with
  | zero =>
    intro path f _ _ _
    rfl
  | succ levels ih =>
    intro path f hN h hpath
    have hself := hpath f (self_mem_nodes f)
    rw [reenters, h.self, Bool.or_eq_false_iff, List.any_eq_false]
    refine ⟨by simpa using hself, fun p hp => ?_⟩
    rw [ih _ p (fun n hn => hN n (mem_nodes_of_part hp hn)) (h.part hp)]
    · exact Bool.false_ne_true
    · intro n hn hmem
      have hnf := mem_nodes_of_part hp hn
      rcases List.mem_cons.mp hmem with heq | hmem
      · -- a part has fewer levels than the whole
        have hle := depth_le_of_mem_nodes p hn
        rw [hsame n (hN n hnf) f (hN f (self_mem_nodes f)) heq] at hle
        exact Nat.not_lt.mpr hle (depth_lt_of_part hp)
      · exact hpath n hnf hmem

/-! ## A node and its copy -/

theorem zip_moveAll (fs : List Fact) : fs.zip (moveAll m fs) = fs.map fun p => (p, p.move m) := by
  induction fs with
  | nil => rfl
  | cons f fs ih => rw [moveAll, List.zip_cons_cons, ih, List.map_cons]

theorem all_className (fs : List Fact) :
    ((fs.zip (moveAll m fs)).all fun p => p.1.className == p.2.className) = true := by
  rw [zip_moveAll, List.all_map, List.all_eq_true]
  intro p _
  rw [Function.comp_apply, className_move, beq_self_eq_true]

theorem length_moveAll (fs : List Fact) : (moveAll m fs).length = fs.length := by
  rw [moveAll_eq_map, List.length_map]

theorem partPairs_move (f : Fact) : partPairs f (f.move m) = f.parts.map fun p => (p, p.move m) := by
  cases f with
  | all c fs n b =>
    simp only [move, partPairs, parts, length_moveAll, all_className, beq_self_eq_true, Bool.and_self, if_true]
    exact zip_moveAll fs
  | choice c f b => cases f <;> rfl
  | _ => rfl

theorem merge_move {part : Fact → Fact → Fact} : ∀ {f : Fact}, (∀ p ∈ f.parts, part p (p.move m) = p) →
    merge part f (f.move m) = f
  | .always _, _ | .never _ _, _ | .predicate _ _ _, _ | .pair _ _ _ _, _ | .brute _ _ _ _ _, _
  | .membership _, _ | .range _ _, _ | .counter _, _ | .equality _ _ _ _, _ | .length _ _ _, _
  | .distinct _ _ _, _ | .choice _ none _, _ | .mapped _ _ _ _ _, _ | .foreign _ _, _
  | .all _ [] _ _, _ => rfl
  | .all _ (g :: gs) _ _, h => by
    have hparts : ((g :: gs).zip (moveAll m (g :: gs))).map (fun p => part p.1 p.2) = g :: gs := by
      rw [zip_moveAll, List.map_map]
      exact (List.map_congr_left h).trans (List.map_id _)
    simp only [move, merge, cell, length_moveAll, all_className, beq_self_eq_true, List.isEmpty_cons,
      Bool.not_false, Bool.and_self, if_true, hparts]
  | .either _ f f' _, h => by simp only [move, merge, cell, h f (by simp [parts]), h f' (by simp [parts])]
  | .negation _ f _ _, h | .lens _ _ f _, h | .prism _ _ f _, h | .each _ f _, h | .labeled _ _ f _, h
  | .choice _ (some f) _, h => by simp only [move, merge, cell, h f (by simp [parts])]

end Fact

/-! ## What is taken over -/

/-- Whether a world has come of another by giving some cells what the cells hold that they are moved to. -/
structure Adopted (m : Loc → Loc) (cs : Set Loc) (w u : World) : Prop where
  source : u.source = w.source
  log : u.log = w.log
  size : u.store.size = w.store.size
  marks : u.store.marks = w.store.marks
  given : u.store.given = w.store.given
  taken : ∀ c ∈ cs, u.store.get? c = some (.slots (w.store.slots (m c)))
  others : ∀ l, l ∉ cs → u.store.get? l = w.store.get? l

namespace Adopted

variable {m : Loc → Loc} {cs ds : Set Loc} {w u x : World}

theorem refl (m : Loc → Loc) (w : World) : Adopted m ∅ w w :=
  ⟨rfl, rfl, rfl, rfl, rfl, nofun, fun _ _ => rfl⟩

theorem trans (h : Adopted m cs w u) (h' : Adopted m ds u x) (hm : ∀ d ∈ ds, m d ∉ cs) :
    Adopted m (cs ∪ ds) w x where
  source := h'.source.trans h.source
  log := h'.log.trans h.log
  size := h'.size.trans h.size
  marks := h'.marks.trans h.marks
  given := h'.given.trans h.given
  taken := by
    intro c hc
    by_cases hd : c ∈ ds
    · rw [h'.taken c hd, Store.slots, Store.slots, h.others _ (hm c hd)]
    · rw [h'.others c hd, h.taken c (hc.resolve_right hd)]
  others := by
    intro l hl
    rw [h'.others l fun hd => hl (.inr hd), h.others l fun hc => hl (.inl hc)]

theorem put {c : Loc} (hc : c < w.store.size) :
    Adopted m {c} w { w with store := w.store.put c (.slots (w.store.slots (m c))) } where
  source := rfl
  log := rfl
  size := Store.size_put ..
  marks := rfl
  given := rfl
  taken := by
    rintro d rfl
    exact Store.get?_put_same hc
  others := fun l hl => Store.get?_put_of_ne fun heq => hl heq.symm

end Adopted

namespace Fact

variable {m : Loc → Loc} {N : List Fact} {edits : Edits} {w : World}

/-- Whether nodes hide no facts, are told apart by their cells, and are moved away from one another. -/
structure Movable (m : Loc → Loc) (N : List Fact) : Prop where
  overt : ∀ n ∈ N, n.Overt
  same : ∀ n ∈ N, ∀ k ∈ N, n.cell = k.cell → n = k
  apart : ∀ n ∈ N, ∀ k ∈ N, m n.cell ≠ k.cell

/-- Whether edits say of nodes what these are already. -/
def Neutral (N : List Fact) (edits : Edits) : Prop := ∀ e ∈ edits, e.2 ∈ N ∧ e.1 = e.2.cell

namespace Movable

variable {f : Fact}

theorem lookup (hedits : Neutral N edits) {c : Loc} {k : Fact} (hk : edits.lookup c = some k) :
    k ∈ N ∧ c = k.cell := by
  obtain ⟨before, after, rfl, -⟩ := List.lookup_eq_some_iff.mp hk
  exact hedits (c, k) (List.mem_append_right _ List.mem_cons_self)

theorem confirmed (h : Movable m N) (hedits : Neutral N edits) (hf : ∀ n ∈ f.nodes, n ∈ N) :
    Confirmed edits f := by
  intro n hn k hk
  obtain ⟨hkN, hcell⟩ := lookup hedits hk
  exact h.same k hkN n (hf n hn) hcell.symm

theorem edited (h : Movable m N) (hedits : Neutral N edits) (hf : ∀ n ∈ f.nodes, n ∈ N) :
    f.edited edits = f :=
  edited_eq (fun n hn => h.overt n (hf n hn)) (h.confirmed hedits hf)

theorem edited_move (h : Movable m N) (hedits : Neutral N edits) (hf : ∀ n ∈ f.nodes, n ∈ N) :
    (f.move m).edited edits = f.move m := by
  have hnode : ∀ n ∈ (f.move m).nodes, ∃ k ∈ f.nodes, n = k.move m := by
    intro n hn
    rw [nodes_move] at hn
    obtain ⟨k, hk, rfl⟩ := List.mem_map.mp hn
    exact ⟨k, hk, rfl⟩
  refine edited_eq (fun n hn => ?_) fun n hn k hk => ?_
  · obtain ⟨n', hn', rfl⟩ := hnode n hn
    exact (h.overt n' (hf n' hn')).move
  · obtain ⟨n', hn', rfl⟩ := hnode n hn
    obtain ⟨hkN, hcell⟩ := lookup hedits hk
    rw [cell_move] at hcell
    exact absurd hcell (h.apart n' (hf n' hn') k hkN)

end Movable

/-- The parts of a node adopt the state of their copies one after the other. -/
theorem exec_adoptParts {levels : Nat} {ps : List Fact} (hN : Movable m N)
    (hadopt : ∀ p ∈ ps, ∀ (edits : Edits) (w : World), Neutral N edits → (∀ n ∈ N, n.cell < w.store.size) →
      ∃ edits' u, exec (adoptWithin levels edits p (p.move m)) w = (.ok edits', u) ∧ Neutral N edits' ∧
        Adopted m {c | c ∈ p.cells} w u)
    (hps : ∀ n ∈ nodesAll ps, n ∈ N) (hedits : Neutral N edits) (hroom : ∀ n ∈ N, n.cell < w.store.size) :
    ∃ edits' u, exec ((ps.map fun p => (p, p.move m)).foldlM (fun edits p =>
        if p.1.className == p.2.className then adoptWithin levels edits p.1 p.2 else pure edits) edits) w =
      (.ok edits', u) ∧ Neutral N edits' ∧ Adopted m {c | c ∈ cellsAll ps} w u := by
  induction ps generalizing edits w with
  | nil => exact ⟨edits, w, rfl, hedits, by simpa [cellsAll] using Adopted.refl m w⟩
  | cons p ps ih =>
    obtain ⟨edits', u, hexec, hedits', hu⟩ := hadopt p (by simp) edits w hedits hroom
    obtain ⟨edits'', x, hexec', hedits'', hx⟩ := ih (fun q hq => hadopt q (by simp [hq]))
      (fun n hn => hps n (List.mem_append_right _ hn)) hedits' fun n hn => by
        rw [hu.size]
        exact hroom n hn
    have htaken := hu.trans hx fun d hd hmem => by
      obtain ⟨n, hn, rfl⟩ := mem_cellsAll.mp hd
      obtain ⟨k, hk, heq⟩ := mem_cells.mp hmem
      exact hN.apart n (hps n (List.mem_append_right _ hn)) k (hps k (List.mem_append_left _ hk)) heq.symm
    have hcells : {c | c ∈ p.cells} ∪ {c | c ∈ cellsAll ps} = {c | c ∈ cellsAll (p :: ps)} := by
      ext c
      simp [cellsAll]
    rw [hcells] at htaken
    refine ⟨edits'', x, ?_, hedits'', htaken⟩
    rw [List.map_cons, List.foldlM_cons, className_move, beq_self_eq_true, if_pos rfl, exec_after hexec]
    exact hexec'

/-- A node adopts the state of its copy, and its parts do. -/
theorem exec_adoptWithin (hN : Movable m N) (levels : Nat) : ∀ (f : Fact) (edits : Edits) (w : World),
    f.depth ≤ levels → (∀ n ∈ f.nodes, n ∈ N) → Neutral N edits → (∀ n ∈ N, n.cell < w.store.size) →
      ∃ edits' u, exec (adoptWithin levels edits f (f.move m)) w = (.ok edits', u) ∧ Neutral N edits' ∧
        Adopted m {c | c ∈ f.cells} w u := by
  induction levels with
  | zero =>
    intro f edits w hdepth _ _ _
    exact absurd hdepth (Nat.not_le.mpr (depth_pos f))
  | succ levels ih =>
    intro f edits w hdepth hf hedits hroom
    have hself := hf f (self_mem_nodes f)
    have hparts : ∀ n ∈ nodesAll f.parts, n ∈ N := fun n hn => hf n (by rw [nodes_eq]; simp [hn])
    obtain ⟨edits', u, hexec, hedits', hu⟩ := exec_adoptParts hN (fun p hp edits w => ih p edits w
      (Nat.le_of_lt_succ (Nat.lt_of_lt_of_le (depth_lt_of_part hp) hdepth)) fun n hn =>
        hf n (mem_nodes_of_part hp hn)) hparts hedits hroom
    have hmerge : merge (fun f g => if f.className == g.className then f else g) f (f.move m) = f :=
      merge_move fun p _ => by rw [className_move, beq_self_eq_true, if_pos rfl]
    have hown : Adopted m {f.cell} u _ := Adopted.put (hu.size ▸ hroom f hself)
    have htaken := hu.trans hown fun d hd hmem => by
      obtain ⟨n, hn, heq⟩ := mem_cellsAll.mp hmem
      cases hd
      exact hN.apart f hself n (hparts n hn) heq.symm
    have hcells : {c | c ∈ cellsAll f.parts} ∪ {f.cell} = {c | c ∈ f.cells} := by
      ext c
      rw [Set.mem_ofPred_eq, ← map_cell_nodes, nodes_eq, List.map_cons, map_cell_nodesAll, List.mem_cons, or_comm]
      exact Iff.rfl
    rw [hcells] at htaken
    refine ⟨(f.cell, f) :: edits', _, ?_, ?_, htaken⟩
    · -- the edits so far change neither the node nor its copy
      rw [adoptWithin]
      simp only [hN.edited hedits hf, hN.edited_move hedits hf, cell_move,
        if_neg fun heq : f.cell = m f.cell => hN.apart f hself f hself heq.symm, partPairs_move, hmerge]
      rw [exec_after hexec, exec_after (exec_ask ..), exec_after (exec_put ..), exec_pure]
    · intro e he
      rcases List.mem_cons.mp he with rfl | he
      · exact ⟨hself, rfl⟩
      · exact hedits' e he

/-- **Adopting a copy.** A fact that adopts the state of a copy of it stays the tree that it is, and its
cells come to hold what those of the copy hold. -/
theorem exec_adopt {f : Fact} (hf : Movable m f.nodes) (hroom : ∀ n ∈ f.nodes, n.cell < w.store.size) :
    ∃ edits u, exec (f.adopt (f.move m)) w = (.ok edits, u) ∧ f.edited edits = f ∧
      Adopted m {c | c ∈ f.cells} w u := by
  obtain ⟨edits, u, hexec, hedits, hu⟩ := exec_adoptWithin hf (f.depth + (f.move m).depth) f [] w
    (Nat.le_add_right _ _) (fun n hn => hn) nofun hroom
  have hreenters := reenters_eq hf.same (f.reach edits + 1) [] f (fun n hn => hn)
    (hf.confirmed hedits fun n hn => hn) fun n hn => List.not_mem_nil
  refine ⟨edits, u, ?_, hf.edited hedits fun n hn => hn, hu⟩
  rw [adopt, exec_after hexec, hreenters]
  rfl

end Fact

end Conform
