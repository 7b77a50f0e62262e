import Conform.Proofs.Complements
import Conform.Proofs.Searching

/-!
# Elementary facts

`Fact.Elementary` names the nodes of the stateless algebra: all leaves but those that advance or are brought from
outside, choices without a further fact, the combinations, and lenses and prisms on attributes and items. What they are
made of is not lost when a negation goes over to a complement, each of whose nodes turns a node of the negated fact
round (`Fact.founds_turned`).
-/

namespace Conform

open Act

/-- The accessors of attributes and items, under keys that name no place. -/
def Accessor.Direct : Accessor → Prop
  | .attr _ => True
  | .item _ key => key.places = []
  | .optionalAttr _ | .variant _ | .custom _ _ _ => False

/-- The accessors that find nothing to be written to where an attribute is missing. -/
def Accessor.Tentative : Accessor → Prop
  | .attr _ | .optionalAttr _ | .variant _ => True
  | .item _ key => key.places = []
  | .custom _ _ _ => False

namespace Accessor

variable {a : Accessor}

theorem Direct.tentative (h : a.Direct) : a.Tentative := by
  cases a <;> first | exact h | exact h.elim

end Accessor

namespace Fact

/-- Whether a node belongs to the stateless algebra. A length is not below zero. -/
def Elementary : Fact → Prop
  | .counter _ | .distinct _ _ _ | .mapped _ _ _ _ _ | .choice _ (some _) _ | .foreign _ _ => False
  | .lens _ a _ _ => a.Direct
  | .prism _ a _ _ => a.Tentative
  | .length _ n _ => 0 ≤ n
  | _ => True

/-- Whether the second node is asked the opposite question, or passes it on. Cells and parts do not matter. -/
inductive Turned : Fact → Fact → Prop
  | always {c d : Loc} {reason : String} : Turned (.always c) (.never d reason)
  | never {c d : Loc} {reason : String} : Turned (.never c reason) (.always d)
  | equality {c d : Loc} {equal : Bool} {g : Option Generator} {n : Int} :
    Turned (.equality c equal g n) (.equality d (!equal) g n)
  | range {c d : Loc} {inside : Bool} : Turned (.range c inside) (.range d (!inside))
  | pair {c d : Loc} {equal : Bool} {g : Option Generator} {n : Int} :
    Turned (.pair c equal g n) (.pair d (!equal) g n)
  | lens {c d : Loc} {a : Accessor} {f g : Fact} {b b' : Bool} : Turned (.lens c a f b) (.lens d a g b')
  | labeled {c d : Loc} {name name' : String} {f g : Fact} {b b' : Bool} :
    Turned (.labeled c name f b) (.labeled d name' g b')

/-- Whether a node is one of a fact, or turns one round in a new cell with the same slots, if with any. -/
def Derives (s t : Store) (f m : Fact) : Prop :=
  m ∈ f.everyNode ∨ ∃ n ∈ f.everyNode, Turned n m ∧ s.size ≤ m.cell ∧ m.cell < t.size ∧
    (t.slots m.cell = [] ∨ t.slots m.cell = s.slots n.cell)

section

variable {s t u : Store} {f g m n : Fact} {c : Loc} {name : String}

theorem Turned.elementary (h : Turned n m) (hn : n.Elementary) : m.Elementary := by
  cases h <;> exact hn

theorem Turned.generator? (h : Turned n m) : m.generator? = n.generator? := by
  cases h <;> rfl

theorem Derives.mono (h : Derives s t f m) (htu : t.Extends u) : Derives s u f m := by
  refine h.imp_right fun ⟨n, hn, hturned, hnew, hlt, hslots⟩ => ?_
  refine ⟨n, hn, hturned, hnew, Nat.lt_of_lt_of_le hlt htu.size_le, ?_⟩
  rwa [htu.slots hlt]

theorem Derives.within (h : Derives s t f m) (hf : ∀ n ∈ f.everyNode, n ∈ g.everyNode) : Derives s t g m :=
  h.imp (hf m) fun ⟨n, hn, hrest⟩ => ⟨n, hf n hn, hrest⟩

theorem Derives.of_turned (hn : n ∈ f.everyNode) (hturned : Turned n m)
    (h : s.size ≤ m.cell ∧ m.cell < t.size ∧ (t.slots m.cell = [] ∨ t.slots m.cell = s.slots n.cell)) :
    Derives s t f m :=
  .inr ⟨n, hn, hturned, h⟩

/-! ## Complements -/

theorem founds_newCell {vs : List Value} :
    Founds s (alloc (.slots vs)) fun t d => s.size ≤ d ∧ d < t.size ∧ t.slots d = vs := by
  intro w d u hw h
  obtain ⟨hst, hnew, hget⟩ := founds_alloc w d u hw h
  exact ⟨hst, hnew, Store.lt_size_of_get? hget, by rw [Store.slots, hget]⟩

theorem founds_freshTwin : Founds s (twinCell c) fun t d => s.size ≤ d ∧ d < t.size ∧ t.slots d = s.slots c := by
  rintro w d u rfl h
  obtain ⟨vs, _, hvs, h⟩ := exec_bind_ok h
  cases hvs
  exact founds_newCell w d u rfl h

theorem founds_freshCell : Founds s emptyCell fun t d => s.size ≤ d ∧ d < t.size ∧ t.slots d = [] := founds_newCell

theorem everyNode_labeled {b : Bool} : (Fact.labeled c name f b).everyNode = .labeled c name f b :: f.everyNode := rfl

theorem everyNode_lens {a : Accessor} {b : Bool} : (Fact.lens c a f b).everyNode = .lens c a f b :: f.everyNode := rfl

/-- Whether a fact is formed and made of what another one is made of, turned round. -/
structure Reverses (s t : Store) (f g : Fact) : Prop where
  formed : g.Formed
  nodes : ∀ n ∈ g.everyNode, Derives s t f n

theorem Reverses.leaf (hformed : g.Formed) (hg : g.everyNode = [g]) (hturned : Turned f g)
    (h : s.size ≤ g.cell ∧ g.cell < t.size ∧ (t.slots g.cell = [] ∨ t.slots g.cell = s.slots f.cell)) :
    Reverses s t f g := by
  refine ⟨hformed, fun n hn => ?_⟩
  rw [hg] at hn
  obtain rfl := List.mem_singleton.mp hn
  exact .of_turned (self_mem_everyNode f) hturned h

/-- A new label on a complement turns round the label of the fact. -/
theorem founds_relabel_turned {f' : Fact} {name' : String} {b : Bool}
    (hg : Reverses s t (.labeled c name' f' b) g) (hst : s.Extends t) :
    Founds t (relabel name g) fun u g' => Reverses s u (.labeled c name' f' b) g' := by
  have hlabel : ∀ {h : Fact}, Reverses s t (.labeled c name' f' b) h → ∀ u, t.Extends u →
      ∀ d, t.size ≤ d ∧ d < u.size ∧ u.slots d = [] →
        Founds u (pure (Fact.labeled d name h h.stateful)) fun u g' => Reverses s u (.labeled c name' f' b) g' := by
    intro h hh u htu d hd
    refine founds_pure ⟨⟨rfl, hh.formed⟩, fun n hn => ?_⟩
    rw [everyNode_labeled] at hn
    rcases List.mem_cons.mp hn with rfl | hn
    · exact .of_turned (List.mem_cons_self ..) .labeled ⟨Nat.le_trans hst.size_le hd.1, hd.2.1, .inl hd.2.2⟩
    · exact (hh.nodes n hn).mono htu
  refine founds_freshCell.bind fun d u htu hd => ?_
  split
  · next c' label inner noted =>
    exact hlabel ⟨hg.formed.2, fun n hn => hg.nodes n (by rw [everyNode_labeled]; exact .tail _ hn)⟩ u htu d hd
  · exact hlabel hg u htu d hd

/-- Every node of a complement is one of the fact or turns one round. -/
theorem founds_turned : ∀ {f : Fact} {s : Store}, f.Formed →
    Founds s f.complement fun t o => ∀ g, o = some g → Reverses s t f g
  | .always _, _, _ => founds_freshCell.bind fun d t _ hd => founds_pure (by
      rintro g ⟨⟩
      exact .leaf trivial rfl .always ⟨hd.1, hd.2.1, .inl hd.2.2⟩)
  | .never _ _, _, _ => founds_freshCell.bind fun d t _ hd => founds_pure (by
      rintro g ⟨⟩
      exact .leaf trivial rfl .never ⟨hd.1, hd.2.1, .inl hd.2.2⟩)
  | .equality _ _ _ _, _, _ => founds_freshTwin.bind fun d t _ hd => founds_pure (by
      rintro g ⟨⟩
      exact .leaf trivial rfl .equality ⟨hd.1, hd.2.1, .inr hd.2.2⟩)
  | .range _ _, _, _ => founds_freshTwin.bind fun d t _ hd => founds_pure (by
      rintro g ⟨⟩
      exact .leaf trivial rfl .range ⟨hd.1, hd.2.1, .inr hd.2.2⟩)
  | .pair _ _ _ _, _, _ => founds_freshCell.bind fun d t _ hd => founds_pure (by
      rintro g ⟨⟩
      exact .leaf trivial rfl .pair ⟨hd.1, hd.2.1, .inl hd.2.2⟩)
  | .negation _ f _ _, _, hf => founds_pure (by
      rintro g ⟨⟩
      exact ⟨hf.2, fun n hn => .inl (.tail _ hn)⟩)
  | .lens c a f b, s, hf => by
    refine (founds_turned hf.2).bind fun o t hst ho => ?_
    cases o with
    | none => exact founds_pure nofun
    | some g =>
      refine founds_freshCell.bind fun d u htu hd => founds_pure ?_
      rintro g' ⟨⟩
      refine ⟨⟨rfl, (ho g rfl).formed⟩, fun n hn => ?_⟩
      rw [everyNode_lens] at hn
      rcases List.mem_cons.mp hn with rfl | hn
      · exact .of_turned (List.mem_cons_self ..) .lens ⟨Nat.le_trans hst.size_le hd.1, hd.2.1, .inl hd.2.2⟩
      · exact (((ho g rfl).nodes n hn).mono htu).within fun k hk => .tail _ hk
  | .labeled c name f b, s, hf => by
    refine (founds_turned (f := f) hf.2).bind fun o t hst ho => ?_
    cases o with
    | none => exact founds_pure nofun
    | some g =>
      have hg : Reverses s t (.labeled c name f b) g :=
        ⟨(ho g rfl).formed, fun n hn => ((ho g rfl).nodes n hn).within fun k hk => .tail _ hk⟩
      have hrelabel : Founds t (relabel (call "not" name) g) fun u g' => Reverses s u (.labeled c name f b) g' :=
        founds_relabel_turned hg hst
      refine hrelabel.bind fun g' u _ h => founds_pure ?_
      rintro g'' ⟨⟩
      exact h
  | .foreign _ _, _, hf => hf.elim
  | .membership _, _, _ | .counter _, _, _ | .distinct _ _ _, _, _ | .all _ _ _ _, _, _
  | .either _ _ _ _, _, _ | .prism _ _ _ _, _, _ | .each _ _ _, _, _ | .length _ _ _, _, _
  | .mapped _ _ _ _ _, _, _ | .predicate _ _ _, _, _ | .brute _ _ _ _ _, _, _ | .choice _ _ _, _, _ => by
    unfold complement
    exact founds_pure nofun

/-- The nodes of a complement belong to the stateless algebra if those of the fact do. -/
theorem Reverses.elementary (h : Reverses s t f g) (hf : ∀ n ∈ f.everyNode, n.Elementary) :
    ∀ n ∈ g.everyNode, n.Elementary := by
  intro n hn
  rcases h.nodes n hn with hn | ⟨m, hm, hturned, -⟩
  · exact hf n hn
  · exact hturned.elementary (hf m hm)

mutual

/-- Elementary facts are stateless. -/
theorem stateless_of_elementary : ∀ {f : Fact}, f.Formed → (∀ n ∈ f.nodes, n.Elementary) → f.stateful = false
  | .all _ fs _ _, hf, hn => hf.1.trans (any_of_elementary hf.2 fun n h => hn n (.tail _ h))
  | .either _ f g _, hf, hn => by
    have hl := stateless_of_elementary hf.2.1 fun n h => hn n (.tail _ (List.mem_append_left _ h))
    have hr := stateless_of_elementary hf.2.2 fun n h => hn n (.tail _ (List.mem_append_right _ h))
    exact hf.1.trans (by rw [hl, hr]; rfl)
  | .negation _ f _ _, hf, _ => hf.1.1
  | .lens _ _ f _, hf, hn | .prism _ _ f _, hf, hn | .each _ f _, hf, hn | .labeled _ _ f _, hf, hn =>
    Eq.trans hf.1 (stateless_of_elementary (f := f) hf.2 fun n h => hn n (.tail _ h))
  | .choice _ none _, hf, _ => hf
  | .choice _ (some _) _, _, hn | .counter _, _, hn | .distinct _ _ _, _, hn | .mapped _ _ _ _ _, _, hn
  | .foreign _ _, _, hn => (hn _ (self_mem_nodes _)).elim
  | .always _, _, _ | .never _ _, _, _ | .equality _ _ _ _, _, _ | .membership _, _, _ | .range _ _, _, _
  | .pair _ _ _ _, _, _ | .length _ _ _, _, _ | .predicate _ _ _, _, _ | .brute _ _ _ _ _, _, _ => rfl

theorem any_of_elementary : ∀ {fs : List Fact}, FormedAll fs → (∀ n ∈ nodesAll fs, n.Elementary) →
    fs.any stateful = false
  | [], _, _ => rfl
  | f :: fs, hf, hn => by
    rw [List.any_cons, stateless_of_elementary hf.1 fun n h => hn n (List.mem_append_left _ h),
      any_of_elementary hf.2 fun n h => hn n (List.mem_append_right _ h)]
    rfl

end

end

end Fact

end Conform
