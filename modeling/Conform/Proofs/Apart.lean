import Conform.Proofs.SoundMutating
import Conform.Proofs.Stateless

/-!
# Facts apart from a value

A stateful fact is tried out on copies. What makes this work is that the value shares no object with the
fact: `Fact.Apart s U fs` says that the objects that facts hold lie outside a region, that their cells hold
what cells of their kind hold, and that what is brought from outside keeps to the values it is given. Running
in an arena around the region leaves facts apart (`Apart.step`), and so does copying them (`Apart.copied`).
-/

namespace Conform

/-! ## Values that everything may name -/

/-- A value that refers to nothing lies in every set of places that holds what takes attributes. -/
theorem Value.within_of_refs {R : Set Place} {v : Value} (hR : ∀ o, Place.attributes o ∈ R)
    (h : v.refs = []) : v.Within R := by
  intro p hp
  cases p with
  | object l =>
    rw [object_mem_places, h] at hp
    cases hp
  | attributes o => exact hR o

namespace Fact

/-! ## Facts whose outside parts behave -/

/-- The nodes of facts that are used without being copied first. -/
def inPlace (fs : List Fact) : List Fact :=
  if fs.any stateful then chosenAll fs else everyNodeAll fs

theorem mem_inPlace {fs : List Fact} {n : Fact} (h : n ∈ inPlace fs) : n ∈ everyNodeAll fs := by
  unfold inPlace at h
  split at h
  · exact List.mem_append_right _ h
  · exact h

theorem chosen_mem_inPlace {fs : List Fact} {n : Fact} (h : n ∈ chosenAll fs) : n ∈ inPlace fs := by
  unfold inPlace
  split
  · exact h
  · exact List.mem_append_right _ h

/-- Whether the accessors and generators of facts keep to the values that they are given, wherever these
lie, and do not end with the fault of a used-up budget. -/
structure Tame (fs : List Fact) : Prop where
  formed : FormedAll fs
  accessors : ∀ n ∈ everyNodeAll fs, ∀ a ∈ n.accessor?,
    a.Sound ∧ a.Uniform True ∧ ∀ A : Arena, A.TakesCopies → a.Fits A
  generators : ∀ n ∈ everyNodeAll fs, ∀ A : Arena, A.TakesCopies → Draws A n.generator?

section

variable {f : Fact} {fs : List Fact}

mutual

theorem Steady.of_nodes : ∀ {f : Fact}, f.Formed →
    (∀ n ∈ f.everyNode, ∀ a ∈ n.accessor?, a.Sound) → f.Steady
  | .always _, _, _ | .never _ _, _, _ | .predicate _ _ _, _, _ | .pair _ _ _ _, _, _
  | .brute _ _ _ _ _, _, _ | .length _ _ _, _, _ | .membership _, _, _ | .range _ _, _, _
  | .equality _ _ _ _, _, _ | .counter _, _, _ | .distinct _ _ _, _, _ | .choice _ none _, _, _ => trivial
  | .all _ fs _ _, hf, ha => SteadyAll.of_nodes (show FormedAll fs from hf.2) fun n h => ha n (everyNode_of_parts h)
  | .either _ f g _, hf, ha => by
    refine ⟨Steady.of_nodes hf.2.1 fun n h => ha n ?_, Steady.of_nodes hf.2.2 fun n h => ha n ?_⟩
    · exact everyNode_of_part List.mem_cons_self h
    · exact everyNode_of_part (List.mem_cons_of_mem _ List.mem_cons_self) h
  | .negation _ f _ _, hf, ha | .each _ f _, hf, ha | .labeled _ _ f _, hf, ha
  | .choice _ (some f) _, hf, ha =>
    Steady.of_nodes (f := f) hf.2 fun n h => ha n (everyNode_of_part List.mem_cons_self h)
  | .lens _ _ f _, hf, ha | .prism _ _ f _, hf, ha =>
    ⟨ha _ (self_mem_everyNode _) _ rfl, Steady.of_nodes hf.2 fun n h => ha n (everyNode_of_part List.mem_cons_self h)⟩
  | .mapped _ _ _ fs f, hf, ha => by
    exact ⟨SteadyAll.of_nodes hf.2.1 fun n h => ha n (everyNode_of_picked h),
      Steady.of_nodes hf.2.2 fun n h => ha n (everyNode_of_last h)⟩
  | .foreign _ _, hf, _ => hf.elim

theorem SteadyAll.of_nodes : ∀ {fs : List Fact}, FormedAll fs →
    (∀ n ∈ everyNodeAll fs, ∀ a ∈ n.accessor?, a.Sound) → SteadyAll fs
  | [], _, _ => trivial
  | f :: fs, hf, ha => by
    exact ⟨Steady.of_nodes hf.1 fun n h => ha n (everyNodeAll_cons.mpr (.inl h)),
      SteadyAll.of_nodes hf.2 fun n h => ha n (everyNodeAll_cons.mpr (.inr h))⟩

end

theorem Tame.steady (h : Tame fs) : SteadyAll fs :=
  SteadyAll.of_nodes h.formed fun n hn a ha => (h.accessors n hn a ha).1

/-- Tame facts fit an arena that takes copies, if those that are used in place have cells of which all that
is in them lies among the values and that the arena does not write to. -/
theorem Tame.fits (h : Tame fs) {A : Arena} (hA : A.TakesCopies)
    (hplace : ∀ n ∈ inPlace fs,
      Place.object n.cell ∉ A.writable ∧ ∀ v ∈ A.start.slots n.cell, v.Within A.values) :
    FitsAll A (fs.any stateful) fs := by
  have hnode : ∀ {copied : Bool} (n : Fact), n ∈ everyNodeAll fs →
      (copied = false → n ∈ inPlace fs) → NodeFits A copied n := by
    intro copied n hn hcopied
    refine ⟨fun hc => ?_, fun a ha => (h.accessors n hn a ha).2.2 A hA, h.generators n hn A hA⟩
    obtain ⟨hnot, hslots⟩ := hplace n (hcopied hc)
    exact Arena.readable_of_start hnot hslots
  refine FitsAll.of_nodes h.formed (fun hs => ⟨hA.copyable, hs⟩) ?_ ?_
  · intro n hn
    refine hnode n (List.mem_append_left _ hn) fun hs => ?_
    rw [inPlace, hs]
    exact List.mem_append_left _ hn
  · exact fun n hn => hnode n (List.mem_append_right _ hn) fun _ => chosen_mem_inPlace hn

end

/-! ## What cells hold -/

/-- Whether the cell of a node holds what a node of its kind keeps there. -/
def Keeps (s : Store) (n : Fact) : Prop :=
  match n.kind? with
  | some .reference => ∀ v ∈ s.slots n.cell, v.refs = [] ∧ v.absentMarks = []
  | some .counter => ∃ a b k, b.integer? = some k ∧ s.get? n.cell = some (.slots [.atom a, .atom b])
  | some .memory => ∃ l xs, s.slots n.cell = [.ref l] ∧ s.get? l = some (.list xs)
  | none => True

/-- Whether facts and the objects that they hold are apart from a region. Facts that are chosen from the
value are no part of the rest, nothing but a cell refers to what a cell holds, and no stand-in for a
missing part is held, since a copy of it is another one. -/
structure Apart (s : Store) (U : Set Place) (fs : List Fact) : Prop extends Tame fs where
  whole : s.Whole
  region : s.Region U
  attributes : ∀ o, Place.attributes o ∈ U
  allocated : ∀ n ∈ everyNodeAll fs, n.cell < s.size
  outside : ∀ n ∈ everyNodeAll fs, Place.object n.cell ∉ U
  tree : ∀ n ∈ chosenAll fs, n.cell ∉ cellsAll fs
  kept : ∀ n ∈ everyNodeAll fs, n.Keeps s
  templates : ∀ n ∈ inPlace fs, ∀ v ∈ s.slots n.cell, v.Within U
  held : fs.any stateful = true → ∀ l ∈ s.reachable (cellsAll fs), Place.object l ∉ U
  bare : fs.any stateful = true → ∀ l ∈ s.reachable (cellsAll fs), ∀ o, s.get? l = some o →
    Value.absentMarksAll o.values = [] ∧ ∀ r ∈ o.refs, r ∉ cellsAll fs

theorem mem_cellsAll {fs : List Fact} {c : Loc} : c ∈ cellsAll fs ↔ ∃ n ∈ nodesAll fs, n.cell = c := by
  rw [← map_cell_nodesAll, List.mem_map]

namespace Apart

variable {s t : Store} {U : Set Place} {fs : List Fact} {strict : Prop}

/-- Only nodes that are copied keep counters and lists of values seen. -/
theorem advancing (h : Apart s U fs) {n : Fact} (hn : n ∈ everyNodeAll fs) {k : CellKind}
    (hk : n.kind? = some k) (hne : k ≠ .reference) : fs.any stateful = true ∧ n ∈ nodesAll fs := by
  rcases List.mem_append.mp hn with hn | hn
  · refine ⟨?_, hn⟩
    by_contra hs
    exact hne (kindAll_of_stateless h.formed (by simpa using hs) n hn k hk)
  · exact absurd (kindAll_of_chosen h.formed n hn k hk) hne

theorem cells_lt (h : Apart s U fs) : ∀ c ∈ cellsAll fs, c < s.size := by
  intro c hc
  obtain ⟨n, hn, rfl⟩ := mem_cellsAll.mp hc
  exact h.allocated n (List.mem_append_left _ hn)

theorem cell_mem_reachable (h : Apart s U fs) {n : Fact} (hn : n ∈ nodesAll fs) :
    n.cell ∈ s.reachable (cellsAll fs) :=
  Store.mem_reachable_root (mem_cellsAll.mpr ⟨n, hn, rfl⟩) (h.allocated n (List.mem_append_left _ hn))

/-- The list of a distinct fact is among what is reached from the cells, and is no cell. -/
theorem list_mem_reachable (h : Apart s U fs) {n : Fact} (hn : n ∈ nodesAll fs) {l : Loc}
    (hl : s.slots n.cell = [.ref l]) : l ∈ s.reachable (cellsAll fs) := by
  have hget := Store.get?_of_slots hl (by simp)
  have hmem : l ∈ (Object.slots [.ref l]).refs := by
    simp [Object.refs, Object.values, Value.refsAll, Value.refs]
  exact Store.reachable_closed (h.cell_mem_reachable hn) hget hmem (h.whole.ref_lt hget hmem)

/-- The places of the values of an arena around a region, as far as there are objects. -/
def spread (s : Store) (U : Set Place) (t : Store) : Set Place := s.around U ∩ upTo t.size

theorem not_mem_spread {l : Loc} (hl : l < s.size) (hU : Place.object l ∉ U) :
    Place.object l ∉ spread s U t := by
  rintro ⟨hmem | ⟨m, heq, hle⟩, -⟩
  · exact hU hmem
  · cases heq
    exact Nat.not_lt.mpr hle hl

theorem region_spread (ht : (Arena.around s U strict).Holds t) (hw : t.Whole) :
    t.Region (spread s U t) where
  closed := fun p hp q hq => ⟨ht.closed p hp.1 q hq, hw.closed p hp.2 q hq⟩
  bounded := fun l hl => hl.2 l rfl

/-- What facts hold stays as it is while an arena around a region is worked in. -/
theorem held_same (h : Apart s U fs) (ht : (Arena.around s U strict).Holds t)
    (hs : fs.any stateful = true) : ∀ l ∈ s.reachable (cellsAll fs), t.get? l = s.get? l :=
  fun l hl => ht.frame.outside (Store.lt_of_mem_reachable hl) (h.held hs l hl)

/-- Facts stay apart while only places of the region are written to and the region grows by new places
only. -/
theorem transport (h : Apart s U fs) {V : Set Place} (hw : t.Whole) (hsize : s.size ≤ t.size)
    (hV : t.Region V) (hUV : U ⊆ V)
    (hold : ∀ l, l < s.size → Place.object l ∉ U → Place.object l ∉ V ∧ t.get? l = s.get? l) :
    Apart t V fs := by
  have hreached : fs.any stateful = true → ∀ l ∈ s.reachable (cellsAll fs),
      Place.object l ∉ V ∧ t.get? l = s.get? l := fun hs l hl =>
    hold l (Store.lt_of_mem_reachable hl) (h.held hs l hl)
  have hback : fs.any stateful = true → ∀ l ∈ t.reachable (cellsAll fs),
      l ∈ s.reachable (cellsAll fs) := fun hs =>
    h.whole.reachable_of_same h.cells_lt fun l hl => (hreached hs l hl).2
  have hcell : ∀ n ∈ everyNodeAll fs, Place.object n.cell ∉ V ∧ t.get? n.cell = s.get? n.cell :=
    fun n hn => hold n.cell (h.allocated n hn) (h.outside n hn)
  have hslots : ∀ n ∈ everyNodeAll fs, t.slots n.cell = s.slots n.cell := fun n hn => by
    rw [Store.slots, Store.slots, (hcell n hn).2]
  refine ⟨h.toTame, hw, hV, fun o => hUV (h.attributes o),
    fun n hn => Nat.lt_of_lt_of_le (h.allocated n hn) hsize, fun n hn => (hcell n hn).1, h.tree, ?_, ?_,
    fun hs l hl => (hreached hs l (hback hs l hl)).1, ?_⟩
  · intro n hn
    have hkept := h.kept n hn
    unfold Keeps at hkept ⊢
    split at hkept
    · rwa [hslots n hn]
    · rwa [(hcell n hn).2]
    · next hk =>
      obtain ⟨hs, hnode⟩ := h.advancing hn hk (by simp)
      obtain ⟨l, xs, hl, hget⟩ := hkept
      refine ⟨l, xs, (hslots n hn).trans hl, ?_⟩
      exact (hreached hs l (h.list_mem_reachable hnode hl)).2.trans hget
    · trivial
  · intro n hn v hv
    rw [hslots n (mem_inPlace hn)] at hv
    exact (h.templates n hn v hv).mono hUV
  · intro hs l hl o ho
    have hmem := hback hs l hl
    exact h.bare hs l hmem o ((hreached hs l hmem).2.symm.trans ho)

/-- Facts stay apart from a region, and from what it grows to, while an arena around it is worked in. -/
theorem step (h : Apart s U fs) (ht : (Arena.around s U strict).Holds t) (hw : t.Whole) :
    Apart t (spread s U t) fs := by
  refine h.transport hw ht.frame.size (region_spread ht hw) ?_ ?_
  · intro p hp
    refine ⟨.inl hp, ?_⟩
    rintro l rfl
    exact Nat.lt_of_lt_of_le (h.region.bounded l hp) ht.frame.size
  · exact fun l hl hU => ⟨not_mem_spread hl hU, ht.frame.outside hl hU⟩

/-- Facts stay apart when something is copied. -/
theorem copy (h : Apart s U fs) (roots : List Loc) : Apart (s.copy roots).2 U fs := by
  have hsize : s.size ≤ (s.copy roots).2.size := by
    rw [Store.size_copy]
    exact Nat.le_add_right _ _
  refine h.transport (h.whole.copy roots) hsize ⟨?_, ?_⟩ (fun _ hp => hp) ?_
  · intro p hp q hq
    cases p with
    | attributes o => exact h.region.closed _ hp q hq
    | object l =>
      obtain ⟨o, ho, hq⟩ := hq
      rw [Store.get?_copy_of_lt (h.region.bounded l hp)] at ho
      exact h.region.closed _ hp q ⟨o, ho, hq⟩
  · exact fun l hl => Nat.lt_of_lt_of_le (h.region.bounded l hl) hsize
  · exact fun l hl hU => ⟨hU, Store.get?_copy_of_lt hl⟩

/-- Facts that are apart from a region fit an arena that works in it and elsewhere writes to new places
only. -/
theorem fits (h : Apart s U fs) {A : Arena} (hstart : A.start = s) (hvalues : U ⊆ A.values)
    (hwritable : ∀ l, Place.object l ∈ A.writable → Place.object l ∈ U ∨ s.size ≤ l) :
    FitsAll A (fs.any stateful) fs := by
  refine h.toTame.fits (fun o => hvalues (h.attributes o)) fun n hn => ⟨fun hmem => ?_, ?_⟩
  · rcases hwritable n.cell hmem with hU | hle
    · exact h.outside n (mem_inPlace hn) hU
    · exact Nat.not_lt.mpr hle (h.allocated n (mem_inPlace hn))
  · rw [hstart]
    exact fun v hv => (h.templates n hn v hv).mono hvalues

end Apart

end Fact

end Conform
