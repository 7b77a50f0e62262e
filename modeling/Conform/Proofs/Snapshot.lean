import Conform.Proofs.Apart

/-!
# Copies as snapshots

A copy of facts that are apart from a region is apart from it as well (`Apart.moved`), remembers what the
facts remember (`remembers_image`), and checks as they do (`Apart.twins`). So a check of a copy that was taken
earlier tells how the facts would have been checked then.
-/

namespace Conform

/-! ## What a moved value refers to -/

namespace Value

variable {r : Relocation}

mutual

theorem refs_move : ∀ v : Value, (v.move r).refs = v.refs.map r.place
  | .atom a => by cases a <;> rfl
  | .tuple cls xs => refsAll_moveAll xs
  | .set xs => refsAll_moveAll xs
  | .frozen cls xs => refsAll_moveAll xs
  | .ref l => rfl

theorem refsAll_moveAll : ∀ xs : List Value, refsAll (moveAll r xs) = (refsAll xs).map r.place
  | [] => rfl
  | x :: xs => by rw [moveAll, refsAll, refsAll, refs_move x, refsAll_moveAll xs, List.map_append]

end

mutual

theorem absentMarks_move : ∀ v : Value, (v.move r).absentMarks = v.absentMarks.map r.mark
  | .atom a => by cases a <;> rfl
  | .tuple cls xs => absentMarksAll_moveAll xs
  | .set xs => absentMarksAll_moveAll xs
  | .frozen cls xs => absentMarksAll_moveAll xs
  | .ref l => rfl

theorem absentMarksAll_moveAll :
    ∀ xs : List Value, absentMarksAll (moveAll r xs) = (absentMarksAll xs).map r.mark
  | [] => rfl
  | x :: xs => by
    rw [moveAll, absentMarksAll, absentMarksAll, absentMarks_move x, absentMarksAll_moveAll xs,
      List.map_append]

end

end Value

namespace Object

variable {r : Relocation}

theorem refs_move (o : Object) : (o.move r).refs = o.refs.map r.place := by
  rw [refs, values_move, ← Value.moveAll_eq_map, Value.refsAll_moveAll, refs]

theorem absentMarks_move (o : Object) :
    Value.absentMarksAll (o.move r).values = (Value.absentMarksAll o.values).map r.mark := by
  rw [values_move, ← Value.moveAll_eq_map, Value.absentMarksAll_moveAll]

end Object

namespace Store

variable {s t : Store} {roots : List Loc}

/-- A copy puts different objects at different places. -/
theorem copy_place_inj {l m : Loc} (hl : l ∈ s.reachable roots) (hm : m ∈ s.reachable roots)
    (h : (s.copy roots).1.place l = (s.copy roots).1.place m) : l = m := by
  obtain ⟨i, hi, hli⟩ := renumber_of_mem s.objects.size hl
  obtain ⟨j, hj, hmj⟩ := renumber_of_mem s.objects.size hm
  have heq : s.objects.size + i = s.objects.size + j := hli.symm.trans (h.trans hmj)
  have hij : i = j := Nat.add_left_cancel heq
  subst hij
  exact Option.some.inj (hi.symm.trans hj)

/-- A copy of objects without stand-ins for missing parts changes no mark. -/
theorem copy_mark (h : ∀ l ∈ s.reachable roots, ∀ o, s.get? l = some o →
    Value.absentMarksAll o.values = []) (m : Nat) : (s.copy roots).1.mark m = m := by
  refine renumber_of_not_mem fun hmem => ?_
  obtain ⟨o, ho, hm⟩ := List.mem_flatMap.mp hmem
  obtain ⟨l, hl, rfl⟩ := List.mem_map.mp ho
  obtain ⟨o, hget⟩ := exists_get? (lt_of_mem_reachable hl)
  rw [hget, Option.getD_some, h l hl o hget] at hm
  cases hm

end Store

namespace Fact

/-! ## Nodes of copies -/

variable {m : Loc → Loc}

theorem kind?_move (f : Fact) : (f.move m).kind? = f.kind? := by
  cases f with
  | choice c f b => cases f <;> rfl
  | _ => rfl

theorem accessor?_move (f : Fact) : (f.move m).accessor? = f.accessor? := by
  cases f with
  | choice c f b => cases f <;> rfl
  | _ => rfl

theorem generator?_move (f : Fact) : (f.move m).generator? = f.generator? := by
  cases f with
  | choice c f b => cases f <;> rfl
  | _ => rfl

theorem cell_move (f : Fact) : (f.move m).cell = m f.cell := by
  cases f with
  | choice c f b => cases f <;> rfl
  | _ => rfl

theorem any_stateful_move {fs : List Fact} : (moveAll m fs).any stateful = fs.any stateful := by
  induction fs with
  | nil => rfl
  | cons f fs ih => rw [moveAll, List.any_cons, List.any_cons, stateful_move, ih]

mutual

theorem nodes_move : ∀ f : Fact, (f.move m).nodes = f.nodes.map (move m)
  | .always _ | .never _ _ | .predicate _ _ _ | .pair _ _ _ _ | .brute _ _ _ _ _ | .membership _
  | .range _ _ | .counter _ | .equality _ _ _ _ | .length _ _ _ | .distinct _ _ _ | .choice _ none _
  | .mapped _ _ _ _ _ | .foreign _ _ => rfl
  | .all _ fs _ _ => by simp [move, nodes, nodesAll_move fs]
  | .either _ f g _ => by simp [move, nodes, nodes_move f, nodes_move g]
  | .negation _ f _ _ | .lens _ _ f _ | .prism _ _ f _ | .each _ f _ | .labeled _ _ f _
  | .choice _ (some f) _ => by simp [move, nodes, nodes_move f]

theorem nodesAll_move : ∀ fs : List Fact, nodesAll (moveAll m fs) = (nodesAll fs).map (move m)
  | [] => rfl
  | f :: fs => by simp [moveAll, nodesAll, nodes_move f, nodesAll_move fs]

end

mutual

/-- Facts that are chosen from the value are not moved. -/
theorem chosen_move : ∀ f : Fact, (f.move m).chosen = f.chosen
  | .always _ | .never _ _ | .predicate _ _ _ | .pair _ _ _ _ | .brute _ _ _ _ _ | .membership _
  | .range _ _ | .counter _ | .equality _ _ _ _ | .length _ _ _ | .distinct _ _ _ | .choice _ none _
  | .mapped _ _ _ _ _ | .foreign _ _ => rfl
  | .all _ fs _ _ => by simp [move, chosen, chosenAll_move fs]
  | .either _ f g _ => by simp [move, chosen, chosen_move f, chosen_move g]
  | .negation _ f _ _ | .lens _ _ f _ | .prism _ _ f _ | .each _ f _ | .labeled _ _ f _
  | .choice _ (some f) _ => by simp [move, chosen, chosen_move f]

theorem chosenAll_move : ∀ fs : List Fact, chosenAll (moveAll m fs) = chosenAll fs
  | [] => rfl
  | f :: fs => by simp [moveAll, chosenAll, chosen_move f, chosenAll_move fs]

end

mutual

theorem Formed.move : ∀ {f : Fact}, f.Formed → (f.move m).Formed
  | .always _, _ | .never _ _, _ | .predicate _ _ _, _ | .pair _ _ _ _, _ | .brute _ _ _ _ _, _
  | .membership _, _ | .range _ _, _ | .counter _, _ | .equality _ _ _ _, _ | .length _ _ _, _
  | .distinct _ _ _, _ => trivial
  | .choice _ none _, h | .mapped _ _ _ _ _, h => h
  | .all _ fs _ _, h => ⟨h.1.trans any_stateful_move.symm, h.2.move⟩
  | .either _ f g _, h => by
    refine ⟨?_, h.2.1.move, h.2.2.move⟩
    rw [stateful_move, stateful_move]
    exact h.1
  | .negation _ f _ _, h => ⟨⟨h.1.1, (stateful_move m f).trans h.1.2⟩, h.2.move⟩
  | .lens _ _ f _, h | .prism _ _ f _, h | .each _ f _, h | .labeled _ _ f _, h
  | .choice _ (some f) _, h => ⟨h.1.trans (stateful_move m f).symm, h.2.move⟩
  | .foreign _ _, h => h

theorem FormedAll.move : ∀ {fs : List Fact}, FormedAll fs → FormedAll (moveAll m fs)
  | [], h => h
  | _ :: _, h => ⟨h.1.move, h.2.move⟩

end

/-- A node of moved facts is moved from a node of the facts, or is one that they choose. -/
theorem mem_everyNodeAll_move {fs : List Fact} {n : Fact} (h : n ∈ everyNodeAll (moveAll m fs)) :
    (∃ n' ∈ nodesAll fs, n = n'.move m) ∨ n ∈ chosenAll fs := by
  rcases List.mem_append.mp h with h | h
  · rw [nodesAll_move] at h
    obtain ⟨n', hn', rfl⟩ := List.mem_map.mp h
    exact .inl ⟨n', hn', rfl⟩
  · rw [chosenAll_move] at h
    exact .inr h

theorem Tame.move {fs : List Fact} (h : Tame fs) : Tame (moveAll m fs) where
  formed := h.formed.move
  accessors := by
    intro n hn a ha
    rcases mem_everyNodeAll_move hn with ⟨n', hn', rfl⟩ | hn
    · rw [accessor?_move] at ha
      exact h.accessors n' (List.mem_append_left _ hn') a ha
    · exact h.accessors n (List.mem_append_right _ hn) a ha
  generators := by
    intro n hn A hA
    rcases mem_everyNodeAll_move hn with ⟨n', hn', rfl⟩ | hn
    · rw [generator?_move]
      exact h.generators n' (List.mem_append_left _ hn') A hA
    · exact h.generators n (List.mem_append_right _ hn) A hA

namespace Apart

variable {s t : Store} {U V : Set Place} {fs : List Fact}

theorem copy_mark (h : Apart s U fs) (hs : fs.any stateful = true) (k : Nat) :
    (s.copy (cellsAll fs)).1.mark k = k :=
  Store.copy_mark (fun l hl o ho => (h.bare hs l hl o ho).1) k

/-- The pairs of cells of facts and of their copy. -/
def Pairs (m : Loc → Loc) (fs : List Fact) (k : CellKind) (c d : Loc) : Prop :=
  (∃ n ∈ nodesAll fs, n.kind? = some k ∧ n.cell = c ∧ m c = d) ∨
    ∃ n ∈ chosenAll fs, n.kind? = some k ∧ n.cell = c ∧ c = d

theorem twinned (h : Apart s V fs) {m : Loc → Loc} : TwinnedAll True (Pairs m fs) m fs :=
  TwinnedAll.of_nodes h.formed (fun n hn _ hk => .inl ⟨n, hn, hk, rfl, rfl⟩)
    (fun n hn _ hk => .inr ⟨n, hn, hk, rfl, rfl⟩)
    fun n hn a ha => (h.accessors n hn a ha).2.1

/-- Where a relocation has put a copy of what facts hold, beside a region that is as it was. The cells of nodes that
hold nothing do not matter. -/
structure CopiedTo (s : Store) (V : Set Place) (fs : List Fact) (r : Relocation) (t : Store) : Prop where
  marks : ∀ m, r.mark m = m
  fixed : ∀ l, l ∉ s.reachable (cellsAll fs) → r.place l = l
  inj : ∀ l ∈ s.reachable (cellsAll fs), ∀ m ∈ s.reachable (cellsAll fs), r.place l = r.place m → l = m
  new : ∀ l ∈ s.reachable (cellsAll fs),
    Place.object (r.place l) ∉ V ∧ ∀ n ∈ chosenAll fs, r.place l ≠ n.cell
  copy : ∀ l ∈ s.reachable (cellsAll fs), (l ∈ cellsAll fs → ∃ n ∈ nodesAll fs, n.cell = l ∧ n.kind?.isSome) →
    t.get? (r.place l) = (s.get? l).map (Object.move r)
  region : ∀ l, Place.object l ∈ V → t.get? l = s.get? l
  chosen : ∀ n ∈ chosenAll fs, t.get? n.cell = s.get? n.cell
  given : ∀ a name, t.given? a name = s.given? a name

/-- What values and the memory of facts lie in: a region, and what the cells of the facts lead to. -/
def Scope (s : Store) (V : Set Place) (fs : List Fact) : Set Place :=
  V ∪ {p | ∃ l ∈ s.reachable (cellsAll fs), l ∉ cellsAll fs ∧ p = .object l}

theorem mem_scope {l : Loc} : Place.object l ∈ Scope s V fs ↔
    Place.object l ∈ V ∨ l ∈ s.reachable (cellsAll fs) ∧ l ∉ cellsAll fs := by
  constructor
  · rintro (hl | ⟨m, hm, hcell, heq⟩)
    · exact .inl hl
    · cases heq
      exact .inr ⟨hm, hcell⟩
  · exact Or.imp id fun ⟨hm, hcell⟩ => ⟨l, hm, hcell, rfl⟩

/-- The scope is closed where what the cells lead to refers to none of them. -/
theorem closed_scope (h : Apart s V fs)
    (hbare : ∀ l ∈ s.reachable (cellsAll fs), ∀ o, s.get? l = some o → ∀ r ∈ o.refs, r ∉ cellsAll fs) :
    s.Closed (Scope s V fs) := by
  intro p hp q hq
  rcases hp with hp | ⟨l, hl, -, rfl⟩
  · exact .inl (h.region.closed p hp q hq)
  · obtain ⟨o, ho, hq⟩ := hq
    cases q with
    | attributes w => exact .inl (h.attributes w)
    | object m =>
      have hm : m ∈ o.refs := by
        rcases List.mem_append.mp hq with hq | hq
        · exact (Value.object_mem_placesAll _).mp hq
        · cases o with
          | record cls xs extras => simp [RecordClass.places, Atom.places] at hq
          | _ => cases hq
      exact .inr ⟨m, Store.reachable_closed hl ho hm (h.whole.ref_lt ho hm), hbare l hl o ho m hm, rfl⟩

/-- Cells of nodes that advance belong to nodes of the trees, not to chosen ones. -/
theorem Pairs.of_advancing {m : Loc → Loc} {k : CellKind} {c d : Loc} (hp : Pairs m fs k c d) (hfs : FormedAll fs)
    (hk : k ≠ .reference) : ∃ n ∈ nodesAll fs, n.kind? = some k ∧ n.cell = c ∧ m c = d := by
  rcases hp with hp | ⟨n, hn, hkind, -, -⟩
  · exact hp
  · exact absurd (kindAll_of_chosen hfs n hn k hkind) hk

namespace CopiedTo

variable {r : Relocation} {n : Fact} {k : CellKind}

theorem get?_cell (hr : CopiedTo s V fs r t) (h : Apart s V fs) (hn : n ∈ nodesAll fs) (hk : n.kind? = some k) :
    t.get? (r.place n.cell) = (s.get? n.cell).map (Object.move r) :=
  hr.copy _ (h.cell_mem_reachable hn) fun _ => ⟨n, hn, rfl, by rw [hk]; rfl⟩

theorem slots_cell (hr : CopiedTo s V fs r t) (h : Apart s V fs) (hn : n ∈ nodesAll fs) (hk : n.kind? = some k) :
    t.slots (r.place n.cell) = (s.slots n.cell).map (Value.move r) := by
  rw [Store.slots, Store.slots, hr.get?_cell h hn hk]
  cases s.get? n.cell with
  | none => rfl
  | some o =>
    cases o with
    | slots vs => exact Value.moveAll_eq_map
    | _ => rfl

/-- What is in the scope of the facts is at hand in the copy too. The region is where it was. -/
theorem image (hr : CopiedTo s V fs r t) (h : Apart s V fs)
    (hfixed : ∀ l, Place.object l ∈ V → r.place l = l) (hclosed : s.Closed (Scope s V fs)) :
    Store.Image r (Scope s V fs) True s t where
  closed := hclosed
  marks := hr.marks
  get := by
    intro l hl
    rcases mem_scope.mp hl with hV | ⟨hmem, hcell⟩
    · obtain ⟨o, ho⟩ := Store.exists_get? (h.region.bounded l hV)
      refine ⟨o, ho, ?_⟩
      rw [hfixed l hV, hr.region l hV, ho, Object.move_eq_self hr.marks]
      intro m hm
      refine hfixed m (h.region.closed.object hV ho _ (List.mem_append_left _ ?_))
      exact (Value.object_mem_placesAll _).mpr hm
    · obtain ⟨o, ho⟩ := Store.exists_get? (Store.lt_of_mem_reachable hmem)
      exact ⟨o, ho, by rw [hr.copy l hmem fun hc => absurd hc hcell, ho, Option.map_some]⟩
  inj := by
    intro l m hl hm heq
    -- the copy is new, so that it meets the region nowhere
    rcases mem_scope.mp hl with hlV | ⟨hlmem, -⟩ <;> rcases mem_scope.mp hm with hmV | ⟨hmmem, -⟩
    · rwa [hfixed l hlV, hfixed m hmV] at heq
    · rw [hfixed l hlV] at heq
      exact absurd (heq ▸ hlV) (hr.new m hmmem).1
    · rw [hfixed m hmV] at heq
      exact absurd (heq ▸ hmV) (hr.new l hlmem).1
    · exact hr.inj l hlmem m hmmem heq
  owned := h.whole.owned
  given := by
    intro _ a ha name
    rw [hr.given]
    cases hx : s.given? a name with
    | none => rfl
    | some x =>
      have hatom : (Value.atom a).Within V := Value.within_atom.mpr fun o _ => h.attributes o
      have hwithin := h.region.closed.given h.whole.owned hatom hx
      rw [Option.map_some, Value.move_eq_self hr.marks]
      exact fun m hm => hfixed m (hwithin.refers m hm)

theorem reference (hr : CopiedTo s V fs r t) (h : Apart s V fs) {c d : Loc} (hp : Pairs r.place fs .reference c d) :
    (∀ v ∈ s.slots c, v.Refers (Scope s V fs)) ∧ t.slots d = (s.slots c).map (Value.move r) := by
  have hkept : ∀ n ∈ everyNodeAll fs, n.kind? = some .reference →
      ∀ v ∈ s.slots n.cell, v.refs = [] ∧ v.absentMarks = [] := by
    intro n hn hk
    have hkept := h.kept n hn
    simpa only [Keeps, hk] using hkept
  rcases hp with ⟨n, hn, hk, rfl, rfl⟩ | ⟨n, hn, hk, rfl, rfl⟩
  · have hbare := hkept n (List.mem_append_left _ hn) hk
    exact ⟨fun v hv => Value.refers_of_refs (hbare v hv).1, hr.slots_cell h hn hk⟩
  · have hbare := hkept n (List.mem_append_right _ hn) hk
    refine ⟨fun v hv => Value.refers_of_refs (hbare v hv).1, ?_⟩
    rw [Store.slots, hr.chosen n hn, ← Store.slots]
    rw [List.map_congr_left fun v hv => Value.move_bare v (hbare v hv).1 (hbare v hv).2, List.map_id']

end CopiedTo

/-- Facts that hold nothing of a region, nor anything that refers to a cell, and a copy of them are twins. -/
theorem twins (h : Apart s V fs) (hheld : ∀ l ∈ s.reachable (cellsAll fs), Place.object l ∉ V)
    (hbare : ∀ l ∈ s.reachable (cellsAll fs), ∀ o, s.get? l = some o → ∀ r ∈ o.refs, r ∉ cellsAll fs)
    {r : Relocation} (hr : CopiedTo s V fs r t) : Twins r (Scope s V fs) True (Pairs r.place fs) s t := by
  have hreached : ∀ n ∈ nodesAll fs, n.cell ∈ s.reachable (cellsAll fs) := fun n hn => h.cell_mem_reachable hn
  have hfixed : ∀ l, Place.object l ∈ V → r.place l = l := fun l hl => hr.fixed l fun hmem => hheld l hmem hl
  refine ⟨hr.image h hfixed (h.closed_scope hbare), fun c d hp => hr.reference h hp, ?_, ?_, ?_, ?_⟩
  · intro c d hp
    obtain ⟨n, hn, hk, rfl, rfl⟩ := hp.of_advancing h.formed (by rintro ⟨⟩)
    have hkept := h.kept n (List.mem_append_left _ hn)
    simp only [Keeps, hk] at hkept
    obtain ⟨a, b, k, hb, hget⟩ := hkept
    refine ⟨a, b, k, hb, hget, ?_⟩
    rw [hr.get?_cell h hn hk, hget, Option.map_some, Object.move, Value.moveAll_eq_map,
      List.map_cons, List.map_cons, List.map_nil, Value.move_atom hr.marks, Value.move_atom hr.marks]
  · intro c d hp
    obtain ⟨n, hn, hk, rfl, rfl⟩ := hp.of_advancing h.formed (by rintro ⟨⟩)
    have hkept := h.kept n (List.mem_append_left _ hn)
    simp only [Keeps, hk] at hkept
    obtain ⟨l, xs, hl, hget⟩ := hkept
    -- the list is no cell, so it lies in the scope
    have hlist : l ∉ cellsAll fs := by
      refine hbare _ (hreached n hn) _ (Store.get?_of_slots hl (by simp)) l ?_
      simp [Object.refs, Object.values, Value.refsAll, Value.refs]
    refine ⟨l, xs, mem_scope.mpr (.inr ⟨h.list_mem_reachable hn hl, hlist⟩), hget, hl, ?_⟩
    rw [hr.slots_cell h hn hk, hl]
    rfl
  · intro c d hp k' c' d' hp'
    obtain ⟨n, hn, hk, rfl, rfl⟩ := hp.of_advancing h.formed (by rintro ⟨⟩)
    rcases hp' with ⟨n', hn', -, rfl, rfl⟩ | ⟨n', hn', -, rfl, rfl⟩
    · exact ⟨congrArg r.place, hr.inj _ (hreached n hn) _ (hreached n' hn')⟩
    · constructor
      · intro heq
        exact absurd (mem_cellsAll.mpr ⟨n, hn, heq⟩) (h.tree n' hn')
      · exact fun heq => absurd heq ((hr.new _ (hreached n hn)).2 n' hn')
  · intro c d hp
    obtain ⟨n, hn, hk, rfl, rfl⟩ := hp.of_advancing h.formed (by rintro ⟨⟩)
    have hcell : n.cell ∈ cellsAll fs := mem_cellsAll.mpr ⟨n, hn, rfl⟩
    constructor
    · intro hmem
      exact (mem_scope.mp hmem).elim (hheld _ (hreached n hn)) fun hmem => hmem.2 hcell
    · intro l hl heq
      rcases mem_scope.mp hl with hV | ⟨hmem, hnot⟩
      · rw [hfixed l hV] at heq
        exact (hr.new _ (hreached n hn)).1 (heq ▸ hV)
      · rw [hr.inj l hmem _ (hreached n hn) heq] at hnot
        exact hnot hcell

/-- A copy is beside the facts in the store that it was just made in. -/
theorem copiedTo_copy (h : Apart s V fs) (hs : fs.any stateful = true) :
    CopiedTo s V fs (s.copy (cellsAll fs)).1 (s.copy (cellsAll fs)).2 where
  marks := h.copy_mark hs
  fixed := fun _ hl => Store.copy_place_of_not_mem hl
  inj := fun _ hl _ hm => Store.copy_place_inj hl hm
  new := by
    intro l hl
    have hle := Store.size_le_copy_place hl
    refine ⟨fun hV => Nat.not_lt.mpr hle (h.region.bounded _ hV), fun n hn heq => ?_⟩
    exact Nat.not_lt.mpr (heq ▸ hle) (h.allocated n (List.mem_append_right _ hn))
  copy := fun _ hl _ => Store.get?_copy_place hl
  region := fun l hl => Store.get?_copy_of_lt (h.region.bounded l hl)
  chosen := fun n hn => Store.get?_copy_of_lt (h.allocated n (List.mem_append_right _ hn))
  given := fun _ _ => rfl

section

variable {b : Store} {strict : Prop}

end

end Apart

end Fact

end Conform
