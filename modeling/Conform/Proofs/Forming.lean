import Conform.Fact.Adopt
import Conform.Fact.Make
import Conform.Proofs.Fitting
import Conform.Proofs.Twins

/-!
# Facts as they are made

`Fact.Formed` says that every node notes correctly whether it is stateful, that a negated fact is stateless
and that so are the facts chosen from the value. The functions that make facts make such ones. What is asked
of the nodes of a formed fact one by one decides whether it fits an arena (`Fits.of_nodes`) and whether it
has a twin (`Twinned.of_nodes`).
-/

namespace Conform.Fact

/-! ## Nodes -/

mutual

/-- The nodes of a tree from the root on. Facts chosen from the value are not part of it. -/
def nodes : Fact → List Fact
  | .all c fs n b => .all c fs n b :: nodesAll fs
  | .either c f g b => .either c f g b :: (f.nodes ++ g.nodes)
  | .negation c f n b => .negation c f n b :: f.nodes
  | .lens c a f b => .lens c a f b :: f.nodes
  | .prism c a f b => .prism c a f b :: f.nodes
  | .each c f b => .each c f b :: f.nodes
  | .choice c (some f) b => .choice c (some f) b :: f.nodes
  | .labeled c name f b => .labeled c name f b :: f.nodes
  | f => [f]

/-- The nodes of several trees. -/
def nodesAll : List Fact → List Fact
  | [] => []
  | f :: fs => f.nodes ++ nodesAll fs

end

mutual

/-- The nodes of all facts that nodes of a tree choose from the value. -/
def chosen : Fact → List Fact
  | .all _ fs _ _ => chosenAll fs
  | .either _ f g _ => f.chosen ++ g.chosen
  | .negation _ f _ _ | .lens _ _ f _ | .prism _ _ f _ | .each _ f _ | .labeled _ _ f _
  | .choice _ (some f) _ => f.chosen
  | .mapped _ _ _ fs f => (nodesAll fs ++ chosenAll fs) ++ (f.nodes ++ f.chosen)
  | _ => []

/-- The same of several trees. -/
def chosenAll : List Fact → List Fact
  | [] => []
  | f :: fs => f.chosen ++ chosenAll fs

end

/-- All nodes that using a fact can lead to. -/
def everyNode (f : Fact) : List Fact := f.nodes ++ f.chosen

/-- All nodes that using several facts can lead to. -/
def everyNodeAll (fs : List Fact) : List Fact := nodesAll fs ++ chosenAll fs

/-- What the cell of a node is for, if it is consulted when the node is checked. -/
def kind? : Fact → Option CellKind
  | .equality _ _ _ _ | .membership _ | .range _ _ | .choice _ _ _ => some .reference
  | .counter _ => some .counter
  | .distinct _ _ _ => some .memory
  | _ => none

/-- The accessor of a node. -/
def accessor? : Fact → Option Accessor
  | .lens _ a _ _ | .prism _ a _ _ => some a
  | _ => none

/-- The generator of a node. -/
def generator? : Fact → Option Generator
  | .equality _ _ g _ | .pair _ _ g _ | .distinct _ g _ | .length _ _ g | .brute _ _ _ g _ => g
  | _ => none

mutual

theorem map_cell_nodes : ∀ f : Fact, f.nodes.map cell = f.cells
  | .always _ | .never _ _ | .predicate _ _ _ | .pair _ _ _ _ | .brute _ _ _ _ _ | .membership _
  | .range _ _ | .counter _ | .equality _ _ _ _ | .length _ _ _ | .distinct _ _ _ | .choice _ none _
  | .mapped _ _ _ _ _ | .foreign _ _ => rfl
  | .all _ fs _ _ => by simp [nodes, cells, cell, map_cell_nodesAll fs]
  | .either _ f g _ => by simp [nodes, cells, cell, map_cell_nodes f, map_cell_nodes g]
  | .negation _ f _ _ | .lens _ _ f _ | .prism _ _ f _ | .each _ f _ | .labeled _ _ f _
  | .choice _ (some f) _ => by simp [nodes, cells, cell, map_cell_nodes f]

theorem map_cell_nodesAll : ∀ fs : List Fact, (nodesAll fs).map cell = cellsAll fs
  | [] => rfl
  | f :: fs => by simp [nodesAll, cellsAll, map_cell_nodes f, map_cell_nodesAll fs]

end

theorem self_mem_nodes (f : Fact) : f ∈ f.nodes := by
  cases f with
  | choice c f b => cases f <;> simp [nodes]
  | _ => simp [nodes]

theorem mem_nodesAll {fs : List Fact} {m : Fact} (h : m ∈ nodesAll fs) : ∃ g ∈ fs, m ∈ g.nodes := by
  induction fs with
  | nil => cases h
  | cons f fs ih =>
    rcases List.mem_append.mp h with h | h
    · exact ⟨f, by simp, h⟩
    · obtain ⟨g, hg, h⟩ := ih h
      exact ⟨g, by simp [hg], h⟩

theorem mem_nodesAll_of_mem {f : Fact} {fs : List Fact} (hf : f ∈ fs) {k : Fact} (hk : k ∈ f.nodes) :
    k ∈ nodesAll fs := by
  induction fs with
  | nil => cases hf
  | cons g fs ih =>
    rcases List.mem_cons.mp hf with rfl | hf
    · exact List.mem_append_left _ hk
    · exact List.mem_append_right _ (ih hf)

/-! ## Nodes of parts -/

section

variable {f g p n : Fact} {fs : List Fact} {c : Loc} {name : String} {tests : List (Data → Bool)}

theorem nodes_eq (f : Fact) : f.nodes = f :: nodesAll f.parts := by
  cases f with
  | either c f g b => simp [nodes, parts, nodesAll]
  | negation c f n b => simp [nodes, parts, nodesAll]
  | lens c a f b => simp [nodes, parts, nodesAll]
  | prism c a f b => simp [nodes, parts, nodesAll]
  | each c f b => simp [nodes, parts, nodesAll]
  | labeled c name f b => simp [nodes, parts, nodesAll]
  | choice c f b => cases f <;> simp [nodes, parts, nodesAll]
  | _ => rfl

theorem mem_nodes_of_part (hp : p ∈ f.parts) (hn : n ∈ p.nodes) : n ∈ f.nodes := by
  rw [nodes_eq]
  exact List.mem_cons_of_mem _ (mem_nodesAll_of_mem hp hn)

theorem self_mem_everyNode (f : Fact) : f ∈ f.everyNode := List.mem_append_left _ (self_mem_nodes f)

theorem everyNodeAll_cons : n ∈ everyNodeAll (f :: fs) ↔ n ∈ f.everyNode ∨ n ∈ everyNodeAll fs := by
  simp only [everyNodeAll, everyNode, nodesAll, chosenAll, List.mem_append]
  tauto

theorem everyNodeAll_of_mem (hf : f ∈ fs) (hn : n ∈ f.everyNode) : n ∈ everyNodeAll fs := by
  induction fs with
  | nil => cases hf
  | cons g fs ih =>
    rcases List.mem_cons.mp hf with rfl | hf
    · exact everyNodeAll_cons.mpr (.inl hn)
    · exact everyNodeAll_cons.mpr (.inr (ih hf))

/-- What the parts of a node can lead to, the node can. -/
theorem everyNode_of_parts (hn : n ∈ everyNodeAll f.parts) : n ∈ f.everyNode := by
  rcases List.mem_append.mp hn with hn | hn
  · rw [everyNode, nodes_eq]
    exact List.mem_append_left _ (List.mem_cons_of_mem _ hn)
  · refine List.mem_append_right _ ?_
    cases f with
    | all c fs n b => exact hn
    | either c f g b => simpa [parts, chosenAll, chosen] using hn
    | negation c f n b => simpa [parts, chosenAll, chosen] using hn
    | lens c a f b => simpa [parts, chosenAll, chosen] using hn
    | prism c a f b => simpa [parts, chosenAll, chosen] using hn
    | each c f b => simpa [parts, chosenAll, chosen] using hn
    | labeled c name f b => simpa [parts, chosenAll, chosen] using hn
    | choice c f b =>
      cases f with
      | none => cases hn
      | some f => simpa [parts, chosenAll, chosen] using hn
    | _ => cases hn

theorem everyNode_of_part (hp : p ∈ f.parts) (hn : n ∈ p.everyNode) : n ∈ f.everyNode :=
  everyNode_of_parts (everyNodeAll_of_mem hp hn)

/-- So can a node that chooses among facts, of which it has the last one besides. -/
theorem everyNode_of_picked (hn : n ∈ everyNodeAll fs) : n ∈ (Fact.mapped c name tests fs f).everyNode :=
  List.mem_append_right _ (List.mem_append_left _ hn)

theorem everyNode_of_last (hn : n ∈ f.everyNode) : n ∈ (Fact.mapped c name tests fs f).everyNode :=
  List.mem_append_right _ (List.mem_append_right _ hn)

end

/-! ## Formed facts -/

mutual

/-- Whether every node notes correctly whether it is stateful. What is negated is stateless, and so is
what is chosen from the value. -/
def Formed : Fact → Prop
  | .all _ fs _ b => b = fs.any stateful ∧ FormedAll fs
  | .either _ f g b => b = (f.stateful || g.stateful) ∧ Formed f ∧ Formed g
  | .negation _ f _ b => (b = false ∧ f.stateful = false) ∧ Formed f
  | .lens _ _ f b | .prism _ _ f b | .each _ f b | .labeled _ _ f b | .choice _ (some f) b =>
    b = f.stateful ∧ Formed f
  | .choice _ none b => b = false
  | .mapped _ _ _ fs f =>
    (fs.any stateful = false ∧ f.stateful = false) ∧ FormedAll fs ∧ Formed f
  | .foreign _ _ => False
  | _ => True

/-- Whether several facts are formed. -/
def FormedAll : List Fact → Prop
  | [] => True
  | f :: fs => Formed f ∧ FormedAll fs

end

mutual

/-- A stateless fact has no node that advances. -/
theorem kind_of_stateless : ∀ {f : Fact}, f.Formed → f.stateful = false →
    ∀ n ∈ f.nodes, ∀ k ∈ n.kind?, k = .reference
  | .always _, _, _, n, hn, k, hk | .never _ _, _, _, n, hn, k, hk
  | .predicate _ _ _, _, _, n, hn, k, hk | .pair _ _ _ _, _, _, n, hn, k, hk
  | .brute _ _ _ _ _, _, _, n, hn, k, hk | .length _ _ _, _, _, n, hn, k, hk
  | .mapped _ _ _ _ _, _, _, n, hn, k, hk | .membership _, _, _, n, hn, k, hk
  | .range _ _, _, _, n, hn, k, hk | .equality _ _ _ _, _, _, n, hn, k, hk
  | .choice _ none _, _, _, n, hn, k, hk => by
    cases List.mem_singleton.mp hn
    cases hk
    try rfl
  | .counter _, _, hs, _, _, _, _ | .distinct _ _ _, _, hs, _, _, _, _ => nomatch hs
  | .foreign _ _, hf, _, _, _, _, _ => hf.elim
  | .all _ fs _ _, hf, hs, n, hn, k, hk => by
    rcases List.mem_cons.mp hn with rfl | hn
    · cases hk
    · exact kindAll_of_stateless hf.2 (hf.1.symm.trans hs) n hn k hk
  | .either _ f g b, hf, hs, n, hn, k, hk => by
    obtain ⟨hfs, hgs⟩ := Bool.or_eq_false_iff.mp (hf.1.symm.trans hs)
    rcases List.mem_cons.mp hn with rfl | hn
    · cases hk
    · rcases List.mem_append.mp hn with hn | hn
      · exact kind_of_stateless hf.2.1 hfs n hn k hk
      · exact kind_of_stateless hf.2.2 hgs n hn k hk
  | .negation _ f _ _, hf, _, n, hn, k, hk => by
    rcases List.mem_cons.mp hn with rfl | hn
    · cases hk
    · exact kind_of_stateless hf.2 hf.1.2 n hn k hk
  | .lens _ _ f _, hf, hs, n, hn, k, hk | .prism _ _ f _, hf, hs, n, hn, k, hk
  | .each _ f _, hf, hs, n, hn, k, hk | .labeled _ _ f _, hf, hs, n, hn, k, hk => by
    rcases List.mem_cons.mp hn with rfl | hn
    · cases hk
    · exact kind_of_stateless hf.2 (hf.1.symm.trans hs) n hn k hk
  | .choice _ (some f) _, hf, hs, n, hn, k, hk => by
    rcases List.mem_cons.mp hn with rfl | hn
    · cases hk
      rfl
    · exact kind_of_stateless hf.2 (hf.1.symm.trans hs) n hn k hk

theorem kindAll_of_stateless : ∀ {fs : List Fact}, FormedAll fs → fs.any stateful = false →
    ∀ n ∈ nodesAll fs, ∀ k ∈ n.kind?, k = .reference
  | [], _, _, _, hn, _, _ => nomatch hn
  | f :: fs, hf, hs, n, hn, k, hk => by
    rw [List.any_cons] at hs
    obtain ⟨hfs, hrest⟩ := Bool.or_eq_false_iff.mp hs
    rcases List.mem_append.mp hn with hn | hn
    · exact kind_of_stateless hf.1 hfs n hn k hk
    · exact kindAll_of_stateless hf.2 hrest n hn k hk

end

mutual

/-- No node that is chosen from the value advances. -/
theorem kind_of_chosen : ∀ {f : Fact}, f.Formed → ∀ n ∈ f.chosen, ∀ k ∈ n.kind?, k = .reference
  | .always _, _, _, hn, _, _ | .never _ _, _, _, hn, _, _ | .predicate _ _ _, _, _, hn, _, _
  | .pair _ _ _ _, _, _, hn, _, _ | .brute _ _ _ _ _, _, _, hn, _, _ | .length _ _ _, _, _, hn, _, _
  | .membership _, _, _, hn, _, _ | .range _ _, _, _, hn, _, _ | .equality _ _ _ _, _, _, hn, _, _
  | .counter _, _, _, hn, _, _ | .distinct _ _ _, _, _, hn, _, _
  | .choice _ none _, _, _, hn, _, _ => nomatch hn
  | .foreign _ _, hf, _, _, _, _ => hf.elim
  | .all _ fs _ _, hf, n, hn, k, hk => kindAll_of_chosen hf.2 n hn k hk
  | .either _ f g b, hf, n, hn, k, hk => by
    rcases List.mem_append.mp hn with hn | hn
    · exact kind_of_chosen hf.2.1 n hn k hk
    · exact kind_of_chosen hf.2.2 n hn k hk
  | .negation _ f _ _, hf, n, hn, k, hk | .lens _ _ f _, hf, n, hn, k, hk
  | .prism _ _ f _, hf, n, hn, k, hk | .each _ f _, hf, n, hn, k, hk
  | .labeled _ _ f _, hf, n, hn, k, hk | .choice _ (some f) _, hf, n, hn, k, hk =>
    kind_of_chosen (f := f) hf.2 n hn k hk
  | .mapped _ _ _ fs f, hf, n, hn, k, hk => by
    rcases List.mem_append.mp hn with hn | hn <;> rcases List.mem_append.mp hn with hn | hn
    · exact kindAll_of_stateless hf.2.1 hf.1.1 n hn k hk
    · exact kindAll_of_chosen hf.2.1 n hn k hk
    · exact kind_of_stateless hf.2.2 hf.1.2 n hn k hk
    · exact kind_of_chosen hf.2.2 n hn k hk

theorem kindAll_of_chosen : ∀ {fs : List Fact}, FormedAll fs →
    ∀ n ∈ chosenAll fs, ∀ k ∈ n.kind?, k = .reference
  | [], _, _, hn, _, _ => nomatch hn
  | f :: fs, hf, n, hn, k, hk => by
    rcases List.mem_append.mp hn with hn | hn
    · exact kind_of_chosen hf.1 n hn k hk
    · exact kindAll_of_chosen hf.2 n hn k hk

end

open Act

/-- A stateful fact has no complement. -/
theorem exec_complement_of_stateful {w : World} : ∀ f : Fact, f.Formed → f.stateful = true →
    exec f.complement w = (.ok none, w)
  | .counter _, _, _ | .distinct _ _ _, _, _ | .all _ _ _ _, _, _ | .either _ _ _ _, _, _
  | .prism _ _ _ _, _, _ | .each _ _ _, _, _ | .choice _ _ _, _, _ => by simp only [complement, exec_pure]
  | .negation _ _ _ _, h, hb => absurd (h.1.1.symm.trans hb) (by decide)
  | .lens _ _ f _, h, hb | .labeled _ _ f _, h, hb => by
    have hf := exec_complement_of_stateful (w := w) f h.2 (h.1.symm.trans hb)
    simp only [complement, exec_bind, hf, exec_pure]
  | .always _, _, hb | .never _ _, _, hb | .equality _ _ _ _, _, hb | .membership _, _, hb
  | .range _ _, _, hb | .pair _ _ _ _, _, hb | .length _ _ _, _, hb | .mapped _ _ _ _ _, _, hb
  | .predicate _ _ _, _, hb | .brute _ _ _ _ _, _, hb => nomatch hb
  | .foreign _ _, h, _ => h.elim

/-! ## What is asked of the nodes -/

/-- Whether a node fits an arena: the slots of its cell, if the node itself is used and is not one that
advances, its accessor and its generator. -/
structure NodeFits (A : Arena) (copied : Bool) (f : Fact) : Prop where
  slots : copied = false → A.Readable f.cell
  accessor : ∀ a ∈ f.accessor?, a.Fits A
  generator : Draws A f.generator?

section

variable {A : Arena}

mutual

/-- A formed fact fits an arena if all its nodes do. If it is stateful, it is to be copied. -/
theorem Fits.of_nodes : ∀ {copied : Bool} {f : Fact}, f.Formed →
    (f.stateful = true → A.Copyable ∧ copied = true) → (∀ n ∈ f.nodes, NodeFits A copied n) →
    (∀ n ∈ f.chosen, NodeFits A false n) → f.Fits A copied
  | _, .always _, _, _, _, _ | _, .never _ _, _, _, _, _ | _, .predicate _ _ _, _, _, _, _ => trivial
  | _, .pair _ _ _ _, _, _, hn, _ | _, .brute _ _ _ _ _, _, _, hn, _ => (hn _ (self_mem_nodes _)).generator
  | _, .membership _, _, _, hn, _ | _, .range _ _, _, _, hn, _ => (hn _ (self_mem_nodes _)).slots
  | _, .equality _ _ _ _, _, _, hn, _ | _, .length _ _ _, _, _, hn, _ =>
    ⟨(hn _ (self_mem_nodes _)).slots, (hn _ (self_mem_nodes _)).generator⟩
  | _, .counter _, _, hc, _, _ => fun h => absurd ((hc rfl).2.symm.trans h) (by decide)
  | _, .distinct _ _ _, _, hc, hn, _ =>
    ⟨fun h => absurd ((hc rfl).2.symm.trans h) (by decide), (hn _ (self_mem_nodes _)).generator⟩
  | _, .all _ fs _ b, hf, hc, hn, hch => by
    refine ⟨FitsAll.of_nodes hf.2 (fun h => hc (hf.1.trans h)) (fun n h => hn n (by simp [nodes, h])) hch,
      fun h => (hc h).1, fun h hcopied => absurd ((hc h).2.symm.trans hcopied) (by decide)⟩
  | _, .either _ f g b, hf, hc, hn, hch => by
    have hb : f.stateful = true ∨ g.stateful = true → b = true := by
      rw [hf.1]
      simp
    refine ⟨Fits.of_nodes hf.2.1 (fun h => hc (hb (.inl h))) (fun n h => hn n (by simp [nodes, h]))
        fun n h => hch n (by simp [chosen, h]),
      Fits.of_nodes hf.2.2 (fun h => hc (hb (.inr h))) (fun n h => hn n (by simp [nodes, h]))
        fun n h => hch n (by simp [chosen, h]), fun h => (hc h).1⟩
  | _, .negation _ f _ _, hf, hc, hn, hch => by
    refine ⟨Fits.of_nodes hf.2 (fun h => ?_) (fun n h => hn n (by simp [nodes, h])) hch,
      fun h => (hc h).1⟩
    rw [hf.1.2] at h
    cases h
  | _, .lens _ _ f _, hf, hc, hn, hch | _, .prism _ _ f _, hf, hc, hn, hch =>
    ⟨(hn _ (self_mem_nodes _)).accessor _ rfl,
      Fits.of_nodes hf.2 (fun h => hc (hf.1.trans h)) (fun n h => hn n (by simp [nodes, h])) hch⟩
  | _, .each _ f _, hf, hc, hn, hch | _, .labeled _ _ f _, hf, hc, hn, hch =>
    Fits.of_nodes (f := f) hf.2 (fun h => hc (hf.1.trans h)) (fun n h => hn n (by simp [nodes, h])) hch
  | _, .mapped _ _ _ fs f, hf, _, _, hch => by
    have hstateless : ∀ {b : Bool}, b = false → b = true → A.Copyable ∧ false = true := by
      rintro _ rfl h
      cases h
    refine ⟨FitsAll.of_nodes hf.2.1 (hstateless hf.1.1) (fun n h => hch n (by simp [chosen, h]))
        fun n h => hch n (by simp [chosen, h]),
      Fits.of_nodes hf.2.2 (hstateless hf.1.2) (fun n h => hch n (by simp [chosen, h]))
        fun n h => hch n (by simp [chosen, h])⟩
  | _, .choice _ none _, _, hc, hn, _ => ⟨(hn _ (self_mem_nodes _)).slots, fun h => (hc h).1⟩
  | _, .choice _ (some f) _, hf, hc, hn, hch =>
    ⟨(hn _ (self_mem_nodes _)).slots, fun h => (hc h).1,
      Fits.of_nodes hf.2 (fun h => hc (hf.1.trans h)) (fun n h => hn n (by simp [nodes, h])) hch,
      fun h => (hc (hf.1.trans h)).1⟩

theorem FitsAll.of_nodes : ∀ {copied : Bool} {fs : List Fact}, FormedAll fs →
    (fs.any stateful = true → A.Copyable ∧ copied = true) →
    (∀ n ∈ nodesAll fs, NodeFits A copied n) → (∀ n ∈ chosenAll fs, NodeFits A false n) →
    FitsAll A copied fs
  | _, [], _, _, _, _ => trivial
  | _, f :: fs, hf, hc, hn, hch => by
    refine ⟨Fits.of_nodes hf.1 (fun h => hc (by simp [h])) (fun n h => hn n (by simp [nodesAll, h]))
        fun n h => hch n (by simp [chosenAll, h]),
      FitsAll.of_nodes hf.2 (fun h => hc ?_) (fun n h => hn n (by simp [nodesAll, h]))
        fun n h => hch n (by simp [chosenAll, h])⟩
    rw [List.any_cons, h, Bool.or_true]

end

end

section

variable {attrs : Prop} {K : CellKind → Loc → Loc → Prop}

mutual

/-- A formed fact has a twin if the cells of its nodes are pairs and its accessors read alike. -/
theorem Twinned.of_nodes : ∀ {m : Loc → Loc} {f : Fact}, f.Formed →
    (∀ n ∈ f.nodes, ∀ k ∈ n.kind?, K k n.cell (m n.cell)) →
    (∀ n ∈ f.chosen, ∀ k ∈ n.kind?, K k n.cell n.cell) →
    (∀ n ∈ f.everyNode, ∀ a ∈ n.accessor?, a.Uniform attrs) → Twinned attrs K m f
  | _, .always _, _, _, _, _ | _, .never _ _, _, _, _, _ | _, .predicate _ _ _, _, _, _, _
  | _, .pair _ _ _ _, _, _, _, _ | _, .brute _ _ _ _ _, _, _, _, _ | _, .length _ _ _, _, _, _, _ =>
    trivial
  | _, .membership _, _, hn, _, _ | _, .range _ _, _, hn, _, _ | _, .equality _ _ _ _, _, hn, _, _
  | _, .counter _, _, hn, _, _ | _, .distinct _ _ _, _, hn, _, _ | _, .choice _ none _, _, hn, _, _ =>
    hn _ (self_mem_nodes _) _ rfl
  | _, .all _ fs _ _, hf, hn, hch, ha =>
    TwinnedAll.of_nodes hf.2 (fun n h => hn n (by simp [nodes, h])) hch fun n h => ha n (everyNode_of_parts h)
  | _, .either _ f g _, hf, hn, hch, ha => by
    refine ⟨Twinned.of_nodes hf.2.1 (fun n h => hn n (by simp [nodes, h]))
        (fun n h => hch n (by simp [chosen, h])) fun n h => ha n (everyNode_of_part List.mem_cons_self h),
      Twinned.of_nodes hf.2.2 (fun n h => hn n (by simp [nodes, h])) (fun n h => hch n (by simp [chosen, h]))
        fun n h => ha n (everyNode_of_part (List.mem_cons_of_mem _ List.mem_cons_self) h)⟩
  | _, .negation _ f _ _, hf, hn, hch, ha | _, .each _ f _, hf, hn, hch, ha
  | _, .labeled _ _ f _, hf, hn, hch, ha =>
    Twinned.of_nodes (f := f) hf.2 (fun n h => hn n (by simp [nodes, h])) hch fun n h =>
      ha n (everyNode_of_part List.mem_cons_self h)
  | _, .lens _ _ f _, hf, hn, hch, ha | _, .prism _ _ f _, hf, hn, hch, ha =>
    ⟨ha _ (List.mem_append_left _ (self_mem_nodes _)) _ rfl,
      Twinned.of_nodes hf.2 (fun n h => hn n (by simp [nodes, h])) hch fun n h =>
        ha n (everyNode_of_part List.mem_cons_self h)⟩
  | _, .choice _ (some f) _, hf, hn, hch, ha =>
    ⟨hn _ (self_mem_nodes _) _ rfl,
      Twinned.of_nodes hf.2 (fun n h => hn n (by simp [nodes, h])) hch fun n h =>
        ha n (everyNode_of_part List.mem_cons_self h)⟩
  | _, .mapped _ _ _ fs f, hf, _, hch, ha => by
    refine ⟨TwinnedAll.of_nodes hf.2.1 (fun n h => hch n (by simp [chosen, h]))
        (fun n h => hch n (by simp [chosen, h])) fun n h => ha n (everyNode_of_picked h),
      Twinned.of_nodes hf.2.2 (fun n h => hch n (by simp [chosen, h]))
        (fun n h => hch n (by simp [chosen, h])) fun n h => ha n (everyNode_of_last h)⟩

theorem TwinnedAll.of_nodes : ∀ {m : Loc → Loc} {fs : List Fact}, FormedAll fs →
    (∀ n ∈ nodesAll fs, ∀ k ∈ n.kind?, K k n.cell (m n.cell)) →
    (∀ n ∈ chosenAll fs, ∀ k ∈ n.kind?, K k n.cell n.cell) →
    (∀ n ∈ everyNodeAll fs, ∀ a ∈ n.accessor?, a.Uniform attrs) →
    TwinnedAll attrs K m fs
  | _, [], _, _, _, _ => trivial
  | _, f :: fs, hf, hn, hch, ha => by
    refine ⟨Twinned.of_nodes hf.1 (fun n h => hn n (by simp [nodesAll, h]))
        (fun n h => hch n (by simp [chosenAll, h])) fun n h => ha n (everyNodeAll_cons.mpr (.inl h)),
      TwinnedAll.of_nodes hf.2 (fun n h => hn n (by simp [nodesAll, h]))
        (fun n h => hch n (by simp [chosenAll, h])) fun n h => ha n (everyNodeAll_cons.mpr (.inr h))⟩

end

end

end Conform.Fact
