import Conform.Proofs.Founding
import Conform.Proofs.Keys

/-!
# Two runs of the loader

Loading only adds objects to a store, and reads none but those that were there. So two runs in two stores that have
both grown from one store agree: both answer, with facts that are stateful alike and described alike, or both end
with a fault, which is the same but for the path it was found at. `Act.Agree` is the judgement for this, with one
rule for each way of putting actions together. The first run may also have come to the bottom, and then nothing is
said of the second. So the two may have different loaders for the nodes below, if these agree in their turn
(`Node.LoadsAlike`).
-/

namespace Conform

open Act Data

/-! ## Reading in a store that has grown -/

namespace Store

variable {s t : Store} {v : Value} {es : List (Value × Value)}

theorem view_extends (hs : s.Whole) (ht : s.Extends t) (hv : v.bound ≤ s.size) : t.view v = s.view v := by
  refine view_of_same hs hv fun m hm => ?_
  obtain ⟨o, ho⟩ := exists_get? (lt_of_mem_reachable hm)
  rw [ho, ht.grows m o ho]

theorem lt_of_bound {l : Loc} {n : Nat} (h : (Value.ref l).bound ≤ n) : l < n := by
  rw [Value.bound_ref] at h
  exact h

theorem bound_of_entry {n : Nat} (hes : (Object.mapping es).bound ≤ n) {e : Value × Value} (he : e ∈ es) :
    e.1.bound ≤ n ∧ e.2.bound ≤ n :=
  ⟨Nat.le_trans (Value.bound_le_boundAll (List.mem_flatMap.mpr ⟨e, he, by simp⟩)) hes,
    Nat.le_trans (Value.bound_le_boundAll (List.mem_flatMap.mpr ⟨e, he, by simp⟩)) hes⟩

theorem bound_of_lookup {n : Nat} (hes : (Object.mapping es).bound ≤ n) {d : Data} (h : s.lookup es d = some v) :
    v.bound ≤ n := by
  obtain ⟨e, he, rfl⟩ := Option.map_eq_some_iff.mp h
  exact (bound_of_entry hes (List.mem_of_find?_eq_some he)).2

theorem lookup_extends (hs : s.Whole) (ht : s.Extends t) (hes : (Object.mapping es).bound ≤ s.size) (d : Data) :
    t.lookup es d = s.lookup es d := by
  exact lookup_congr (fun e he => view_extends hs ht (bound_of_entry hes he).1) d

end Store

/-- Whether two stores have both grown from a whole one. -/
structure Store.Splits (s t t' : Store) : Prop where
  whole : s.Whole
  left : s.Extends t
  right : s.Extends t'

theorem Store.Splits.grow {s t t' u u' : Store} (h : s.Splits t t') (hu : t.Extends u) (hu' : t'.Extends u') :
    s.Splits u u' := ⟨h.whole, h.left.trans hu, h.right.trans hu'⟩

theorem Store.Splits.symm {s t t' : Store} (h : s.Splits t t') : s.Splits t' t := ⟨h.whole, h.right, h.left⟩

/-- Whether two faults are the same, or tell the same of nodes at two paths, which are one path if they are to be. -/
inductive Fault.Matches (same : Prop) : Fault → Fault → Prop
  | refl (e : Fault) : Matches same e e
  | schema {p p' message : String} (h : same → p = p') : Matches same (.schema p message) (.schema p' message)

theorem Fault.Matches.symm {same : Prop} {e e' : Fault} (h : e.Matches same e') : e'.Matches same e := by
  cases h with
  | refl => exact .refl e
  | schema h => exact .schema fun hsame => (h hsame).symm

namespace Act

variable {α β : Type} {s t t' : Store} {same : Prop} {P P' : Store → Store → α → α → Prop}
  {Q : Store → Store → β → β → Prop}

/-! ## The judgement -/

/-- How two runs have ended that started from two stores. The first has come to the bottom; or both have answered
as described, or ended with faults that match. -/
inductive Agreed (t t' : Store) (same : Prop) (P : Store → Store → α → α → Prop) :
    Except Fault α × World → Except Fault α × World → Prop
  | lost {u : World} {r : Except Fault α × World} : Agreed t t' same P (.error (.misuse .bottomless), u) r
  | ok {x y : α} {u u' : World} (hu : t.Extends u.store) (hu' : t'.Extends u'.store) (h : P u.store u'.store x y) :
    Agreed t t' same P (.ok x, u) (.ok y, u')
  | error {e e' : Fault} {u u' : World} (h : e.Matches same e') : Agreed t t' same P (.error e, u) (.error e', u')

/-- Whether two actions agree wherever two stores have grown to. -/
def Agree (t t' : Store) (same : Prop) (a b : Act α) (P : Store → Store → α → α → Prop) : Prop :=
  ∀ w w', t.Extends w.store → t'.Extends w'.store → Agreed t t' same P (exec a w) (exec b w')

/-- The first run is at the bottom if the second one is. -/
theorem Agreed.lost_of_lost {r : Except Fault α × World} {u' : World}
    (h : Agreed t t' same P r (.error (.misuse .bottomless), u')) : ∃ u, r = (.error (.misuse .bottomless), u) := by
  cases h with
  | lost => exact ⟨_, rfl⟩
  | error h =>
    cases h
    exact ⟨_, rfl⟩

/-- A fault of the first run is that of the second one, unless it is the bottom. -/
theorem Agreed.error_right {e : Fault} {u : World} {r : Except Fault α × World}
    (h : Agreed t t' same P (.error e, u) r) (hsame : same) (he : e ≠ .misuse .bottomless) :
    ∃ u', r = (.error e, u') := by
  cases h with
  | lost => exact absurd rfl he
  | error h =>
    cases h with
    | refl => exact ⟨_, rfl⟩
    | schema h =>
      rw [h hsame]
      exact ⟨_, rfl⟩

theorem Agreed.ok_right {x : α} {u : World} {r : Except Fault α × World} (h : Agreed t t' same P (.ok x, u) r) :
    ∃ y u', r = (.ok y, u') ∧ t'.Extends u'.store := by
  cases h with
  | ok _ hu' _ => exact ⟨_, _, rfl, hu'⟩

theorem agree_pure {x y : α} (h : ∀ u u', t.Extends u → t'.Extends u' → P u u' x y) :
    Agree t t' same (pure x) (pure y) P := fun _ _ hw hw' => .ok hw hw' (h _ _ hw hw')

theorem agree_throw {e : Fault} : Agree t t' same (throw e : Act α) (throw e) P := fun _ _ _ _ => .error (.refl e)

theorem Agree.bind {a b : Act α} {f g : α → Act β} (ha : Agree t t' same a b P)
    (hf : ∀ u u' x y, t.Extends u → t'.Extends u' → P u u' x y → Agree u u' same (f x) (g y) Q) :
    Agree t t' same (a >>= f) (b >>= g) Q := by
  intro w w' hw hw'
  have hruns := ha w w' hw hw'
  rw [exec_bind, exec_bind]
  generalize exec a w = r at hruns
  generalize exec b w' = r' at hruns
  cases hruns with
  | lost => exact .lost
  | error h => exact .error h
  | @ok x y u u' hu hu' h =>
    have hrest := hf _ _ x y hu hu' h u u' (.refl _) (.refl _)
    dsimp only
    generalize exec (f x) u = r at hrest
    generalize exec (g y) u' = r' at hrest
    cases hrest with
    | lost => exact .lost
    | error h => exact .error h
    | ok hv hv' h => exact .ok (hu.trans hv) (hu'.trans hv') h

/-- What is read the same wherever the stores have grown to. -/
theorem Agree.ask {f : Store → α} {x : α} {k k' : α → Act β} (hs : s.Splits t t')
    (hf : ∀ u, s.Extends u → f u = x) (hk : Agree t t' same (k x) (k' x) Q) :
    Agree t t' same (Act.ask f >>= k) (Act.ask f >>= k') Q := by
  intro w w' hw hw'
  rw [exec_bind, exec_bind, exec_ask, exec_ask, hf _ (hs.left.trans hw), hf _ (hs.right.trans hw')]
  exact hk w w' hw hw'

theorem Agree.view {v : Value} {k k' : Data → Act β} (hs : s.Splits t t') (hv : v.bound ≤ s.size)
    (hk : Agree t t' same (k (s.view v)) (k' (s.view v)) Q) :
    Agree t t' same (Act.view v >>= k) (Act.view v >>= k') Q :=
  .ask hs (fun _ hu => Store.view_extends hs.whole hu hv) hk

theorem Agree.get {l : Loc} {k k' : Option Object → Act β} (hs : s.Splits t t') (hl : l < s.size)
    (hk : Agree t t' same (k (s.get? l)) (k' (s.get? l)) Q) :
    Agree t t' same (Act.ask (·.get? l) >>= k) (Act.ask (·.get? l) >>= k') Q := by
  obtain ⟨o, ho⟩ := Store.exists_get? hl
  rw [ho] at hk
  exact .ask hs (fun _ hu => hu.grows l o ho) hk

/-- A text that cannot be made is missed by both runs. -/
theorem Agree.written {o : Option String} {k k' : String → Act β} (hk : ∀ text, Agree t t' same (k text) (k' text) Q) :
    Agree t t' same (Act.written o >>= k) (Act.written o >>= k') Q := by
  cases o with
  | none => exact fun _ _ _ _ => .error (.refl _)
  | some text => exact hk text

theorem Agree.writtenAll {γ : Type} {o : γ → Option String} {k k' : List String → Act β}
    (hk : ∀ texts, Agree t t' same (k texts) (k' texts) Q) : ∀ xs : List γ,
    Agree t t' same (xs.mapM (fun x => Act.written (o x)) >>= k) (xs.mapM (fun x => Act.written (o x)) >>= k') Q
  | [] => by
    rw [List.mapM_nil, pure_bind, pure_bind]
    exact hk []
  | x :: xs => by
    simp only [List.mapM_cons, bind_assoc, pure_bind]
    exact .written fun text => Agree.writtenAll (fun texts => hk (text :: texts)) xs

theorem Agree.render {v : Value} {k k' : String → Act β} (hs : s.Splits t t') (hv : v.bound ≤ s.size)
    (hk : ∀ text, Agree t t' same (k text) (k' text) Q) :
    Agree t t' same (Act.render v >>= k) (Act.render v >>= k') Q := by
  rw [Act.render, bind_assoc, bind_assoc]
  exact .view hs hv (.written hk)

theorem Agree.display {v : Value} {k k' : String → Act β} (hs : s.Splits t t') (hv : v.bound ≤ s.size)
    (hk : ∀ text, Agree t t' same (k text) (k' text) Q) :
    Agree t t' same (Act.display v >>= k) (Act.display v >>= k') Q := by
  rw [Act.display, bind_assoc, bind_assoc]
  exact .view hs hv (.written hk)

theorem Agree.found {es : List (Value × Value)} {name : String} {k k' : Option Value → Act β} (hs : s.Splits t t')
    (hes : (Object.mapping es).bound ≤ s.size)
    (hk : Agree t t' same (k (s.lookup es (.atom (.text name)))) (k' (s.lookup es (.atom (.text name)))) Q) :
    Agree t t' same ( Node.entry? es name >>= k) ( Node.entry? es name >>= k') Q :=
  .ask hs (fun _ hu => Store.lookup_extends hs.whole hu hes _) hk

/-- What a mapping has under a key, or else the empty value, is bounded as the mapping is. -/
theorem Agree.entry {es : List (Value × Value)} {name : String} {k k' : Value → Act β} (hs : s.Splits t t')
    (hes : (Object.mapping es).bound ≤ s.size)
    (hk : ∀ x, x.bound ≤ s.size → Agree t t' same (k x) (k' x) Q) :
    Agree t t' same (Node.entry es name >>= k) (Node.entry es name >>= k') Q := by
  rw [Node.entry, bind_assoc, bind_assoc]
  refine Agree.found hs hes ?_
  simp only [pure_bind]
  refine hk _ ?_
  cases hfound : s.lookup es (.atom (.text name)) with
  | none => exact Nat.zero_le _
  | some x => exact Store.bound_of_lookup hes hfound

end Act

namespace Node

variable {s t t' : Store} {same : Prop} {v x like low high : Value} {p p' : String} {es : List (Value × Value)}

/-! ## Readers of arguments -/

theorem agree_malformed {α : Type} {P : Store → Store → α → α → Prop} {message : String} (hp : same → p = p') :
    Agree t t' same (malformed p message : Act α) (malformed p' message) P := fun _ _ _ _ => .error (.schema hp)

/-- What two runs read is the same, and it is bounded by the store from which both have grown. -/
theorem agree_mapping (hs : s.Splits t t') (hv : v.bound ≤ s.size) (hp : same → p = p') :
    Agree t t' same (mapping v p) (mapping v p')
      fun _ _ es es' => es' = es ∧ ∃ l, v = .ref l ∧ s.get? l = some (.mapping es) := by
  have hwrong : Agree t t' same
      (do malformed p ("expected a mapping, got " ++ (← Act.view v).className ++
        ". Fix: write the node as '<constructor>: <argument>'.") : Act (List (Value × Value)))
      (do malformed p' ("expected a mapping, got " ++ (← Act.view v).className ++
        ". Fix: write the node as '<constructor>: <argument>'.") : Act (List (Value × Value)))
      fun _ _ es es' => es' = es ∧ ∃ l, v = .ref l ∧ s.get? l = some (.mapping es) :=
    .view hs hv (agree_malformed hp)
  unfold mapping
  cases v with
  | ref l =>
    refine .get hs (Store.lt_of_bound hv) ?_
    split
    · next es hes => exact agree_pure fun _ _ _ _ => ⟨rfl, l, rfl, hes⟩
    · exact hwrong
  | _ => exact hwrong

theorem agree_items (hs : s.Splits t t') (hv : v.bound ≤ s.size) (hp : same → p = p') :
    Agree t t' same (items v p) (items v p')
      fun _ _ xs xs' => xs' = xs ∧ ∃ l, v = .ref l ∧ s.get? l = some (.list xs) := by
  have hwrong : Agree t t' same
      (do malformed p ("expected a list, got " ++ (← Act.view v).className ++ ".") : Act (List Value))
      (do malformed p' ("expected a list, got " ++ (← Act.view v).className ++ ".") : Act (List Value))
      fun _ _ xs xs' => xs' = xs ∧ ∃ l, v = .ref l ∧ s.get? l = some (.list xs) :=
    .view hs hv (agree_malformed hp)
  unfold items
  cases v with
  | ref l =>
    refine .get hs (Store.lt_of_bound hv) ?_
    split
    · next xs hxs => exact agree_pure fun _ _ _ _ => ⟨rfl, l, rfl, hxs⟩
    · exact hwrong
  | _ => exact hwrong

theorem agree_integer (hs : s.Splits t t') (hv : v.bound ≤ s.size) (hp : same → p = p') :
    Agree t t' same (integer v p) (integer v p') fun _ _ n n' => n' = n := by
  have hwrong : Agree t t' same
      (do malformed p ("expected an integer, got " ++ (← Act.render v) ++ ".") : Act Int)
      (do malformed p' ("expected an integer, got " ++ (← Act.render v) ++ ".") : Act Int)
      fun _ _ n n' => n' = n := .render hs hv fun _ => agree_malformed hp
  refine .view hs hv ?_
  dsimp only
  split
  · split
    · exact hwrong
    · exact agree_pure fun _ _ _ _ => rfl
  · exact hwrong

theorem agree_requireNumber (hs : s.Splits t t') (hv : v.bound ≤ s.size) (hp : same → p = p') :
    Agree t t' same (requireNumber v p) (requireNumber v p') fun _ _ _ _ => True := by
  refine .view hs hv ?_
  split
  · exact agree_pure fun _ _ _ _ => trivial
  · exact .render hs hv fun _ => agree_malformed hp

theorem agree_requireKeys (hs : s.Splits t t') (hes : (Object.mapping es).bound ≤ s.size) (hp : same → p = p')
    (allowed : List String) :
    Agree t t' same (requireKeys es allowed p) (requireKeys es allowed p') fun _ _ _ _ => True := by
  have hkeys (u : Store) (hu : s.Extends u) : u.viewAll (es.map (·.1)) = s.viewAll (es.map (·.1)) := by
    refine List.map_congr_left fun k hk => ?_
    obtain ⟨e, he, rfl⟩ := List.mem_map.mp hk
    exact Store.view_extends hs.whole hu (Store.bound_of_entry hes he).1
  rw [requireKeys_eq, requireKeys_eq]
  refine .ask hs hkeys ?_
  split
  · exact agree_throw
  · exact agree_pure fun _ _ _ _ => trivial
  · exact .written fun _ => agree_malformed hp

end Node

/-! ## Facts of two runs -/

namespace Fact

variable {s t t' u u' : Store} {f g f' g' : Fact} {same : Prop}

/-- Whether two facts of two stores are stateful alike, and described alike wherever the stores have grown to. -/
structure Paired (t t' : Store) (f g : Fact) : Prop where
  formed : f.Formed
  formed' : g.Formed
  stateful : g.stateful = f.stateful
  text : ∀ u u', t.Extends u → t'.Extends u' → ∀ labels, g.text u' labels = f.text u labels

/-- Whether two facts are paired without labels of their own. -/
structure Unlabeled (t t' : Store) (f g : Fact) : Prop extends Paired t t' f g where
  label : f.label? = none
  label' : g.label? = none

theorem Paired.mono (h : Paired t t' f g) (hu : t.Extends u) (hu' : t'.Extends u') : Paired u u' f g :=
  ⟨h.formed, h.formed', h.stateful, fun _ _ hv hv' => h.text _ _ (hu.trans hv) (hu'.trans hv')⟩

theorem Paired.symm (h : Paired t t' f g) : Paired t' t g f :=
  ⟨h.formed', h.formed, h.stateful.symm, fun u u' hu hu' labels => (h.text u' u hu' hu labels).symm⟩

theorem agree_newCell {vs : List Value} : Agree t t' same (newCell vs) (newCell vs)
    fun u u' c c' => u.get? c = some (.slots vs) ∧ u'.get? c' = some (.slots vs) := fun _ _ hw hw' =>
  .ok (hw.trans (.alloc _ _)) (hw'.trans (.alloc _ _)) ⟨Store.get?_alloc_new, Store.get?_alloc_new⟩

theorem slots_extends {c : Loc} {vs : List Value} (h : t.get? c = some (.slots vs)) (hu : t.Extends u) :
    u.slots c = vs := by
  rw [Store.slots, hu.grows _ _ h]

/-- A fact that is made of values is described by what they are. -/
theorem agree_leaf {vs : List Value} {make : Loc → Fact} (hs : s.Splits t t')
    (hvs : Value.boundAll vs ≤ s.size) (hformed : ∀ c, (make c).Formed)
    (hstateful : ∀ c c', (make c').stateful = (make c).stateful) (hlabel : ∀ c, (make c).label? = none)
    (htext : ∀ u u' c c' labels, u.slots c = vs → u'.slots c' = vs → (∀ v ∈ vs, u'.view v = u.view v) →
      (make c').text u' labels = (make c).text u labels) :
    Agree t t' same (do return make (← newCell vs)) (do return make (← newCell vs)) Unlabeled := by
  refine agree_newCell.bind fun u u' c c' hu hu' hcells => agree_pure fun v v' hv hv' => ?_
  have hviews (r r' : Store) (hr : u.Extends r) (hr' : u'.Extends r') : ∀ x ∈ vs, r'.view x = r.view x := by
    intro x hx
    have hbound := Nat.le_trans (Value.bound_le_boundAll hx) hvs
    rw [Store.view_extends hs.whole (hs.right.trans (hu'.trans hr')) hbound,
      Store.view_extends hs.whole (hs.left.trans (hu.trans hr)) hbound]
  refine ⟨⟨hformed c, hformed c', hstateful c c', fun r r' hr hr' labels => ?_⟩, hlabel c, hlabel c'⟩
  exact htext r r' c c' labels (slots_extends hcells.1 (hv.trans hr)) (slots_extends hcells.2 (hv'.trans hr'))
    (hviews r r' (hv.trans hr) (hv'.trans hr'))

/-- A fact that is made in a cell of its own, of parts that are paired. -/
theorem agree_made {make make' : Loc → Fact} {P : Store → Store → Fact → Fact → Prop}
    (h : ∀ u u' c c', t.Extends u → t'.Extends u' → P u u' (make c) (make' c')) :
    Agree t t' same (do return make (← emptyCell)) (do return make' (← emptyCell)) P :=
  agree_newCell.bind fun _ _ c c' hu hu' _ => agree_pure fun _ _ hv hv' => h _ _ c c' (hu.trans hv) (hu'.trans hv')

/-! ### Facts made of values -/

section

variable {v x low high like : Value} {n : Int} {r : String}

theorem agree_mkAlways (hs : s.Splits t t') :
    Agree t t' same mkAlways mkAlways Unlabeled :=
  agree_leaf hs (Nat.zero_le _) (fun _ => trivial) (fun _ _ => rfl) (fun _ => rfl) fun _ _ _ _ _ _ _ _ => rfl

theorem agree_mkNever (hs : s.Splits t t') :
    Agree t t' same (mkNever r) (mkNever r) Unlabeled :=
  agree_leaf hs (Nat.zero_le _) (fun _ => trivial) (fun _ _ => rfl) (fun _ => rfl) fun _ _ _ _ _ _ _ _ => rfl

theorem slot_single {u : Store} {c : Loc} (h : u.slots c = [v]) : u.slot c 0 = v := by rw [Store.slot, h]; rfl

theorem agree_equality {equal : Bool} {g : Option Generator} {k : Int} (hs : s.Splits t t') (hv : v.bound ≤ s.size) :
    Agree t t' same (do return .equality (← newCell [v]) equal g k) (do return .equality (← newCell [v]) equal g k)
      Unlabeled := by
  refine agree_leaf hs (by simpa using hv) (fun _ => trivial) (fun _ _ => rfl) (fun _ => rfl) ?_
  intro u u' c c' labels hc hc' hviews
  simp only [text, slot_single hc, slot_single hc', hviews v List.mem_cons_self]

theorem agree_mkConsecutive (hs : s.Splits t t') (hv : v.bound ≤ s.size) :
    Agree t t' same (mkConsecutive v) (mkConsecutive v) Unlabeled := by
  refine agree_leaf hs (by simpa using hv) (fun _ => trivial) (fun _ _ => rfl) (fun _ => rfl) ?_
  intro u u' c c' labels hc hc' hviews
  simp only [text, Store.slot, hc, hc', List.getElem?_cons_zero, Option.getD_some, hviews v List.mem_cons_self]

theorem agree_mkInRange (hs : s.Splits t t') (hlow : low.bound ≤ s.size) (hhigh : high.bound ≤ s.size) :
    Agree t t' same (mkInRange low high) (mkInRange low high) Unlabeled := by
  refine agree_leaf hs (by simp [hlow, hhigh]) (fun _ => trivial) (fun _ _ => rfl) (fun _ => rfl) ?_
  intro u u' c c' labels hc hc' hviews
  have hviews := List.forall_mem_cons.mp hviews
  simp only [text, spanText, Store.slot, hc, hc', List.getElem?_cons_zero, List.getElem?_cons_succ, Option.getD_some,
    hviews.1, hviews.2 high List.mem_cons_self]

theorem agree_mkInSet {l : Loc} {xs : List Value} (hs : s.Splits t t') (hl : s.get? l = some (.list xs)) :
    Agree t t' same (mkInSet (.ref l)) (mkInSet (.ref l)) Unlabeled := by
  have hxs : Value.boundAll xs ≤ s.size := hs.whole.object hl
  have hoptions (u : Store) (hu : s.Extends u) : orderOptions u (.ref l) = .ok xs := by
    simp only [orderOptions, Store.elements?, hu.grows _ _ hl]
  refine .ask hs hoptions ?_
  refine agree_leaf hs hxs (fun _ => trivial) (fun _ _ => rfl) (fun _ => rfl) ?_
  intro u u' c c' labels hc hc' hviews
  have hall : u'.viewAll xs = u.viewAll xs := List.map_congr_left hviews
  simp only [text, optionsText, hc, hc', hall]

theorem agree_mkLength (hs : s.Splits t t') (hlike : like.bound ≤ s.size) :
    Agree t t' same (mkLength n like) (mkLength n like) Unlabeled := by
  unfold mkLength
  split
  · exact agree_throw
  · exact agree_leaf hs (by simpa using hlike) (fun _ => trivial) (fun _ _ => rfl) (fun _ => rfl)
      fun _ _ _ _ _ _ _ _ => rfl

theorem agree_mkSame (hs : s.Splits t t') : Agree t t' same mkSame mkSame Unlabeled :=
  agree_leaf hs (Nat.zero_le _) (fun _ => trivial) (fun _ _ => rfl) (fun _ => rfl) fun _ _ _ _ _ _ _ _ => rfl

theorem agree_mkDifferent (hs : s.Splits t t') :
    Agree t t' same mkDifferent mkDifferent Unlabeled :=
  agree_leaf hs (Nat.zero_le _) (fun _ => trivial) (fun _ _ => rfl) (fun _ => rfl) fun _ _ _ _ _ _ _ _ => rfl

/-- A fact that remembers has a list of its own, which its description does not show. -/
theorem agree_mkDistinct : Agree t t' same mkDistinct mkDistinct Unlabeled := by
  have hlist : Agree t t' same (alloc (.list [])) (alloc (.list [])) fun _ _ _ _ => True := fun _ _ hw hw' =>
    .ok (hw.trans (.alloc _ _)) (hw'.trans (.alloc _ _)) trivial
  refine hlist.bind fun u u' l l' _ _ _ => ?_
  intro w w' hw hw'
  refine .ok (hw.trans (.alloc _ _)) (hw'.trans (.alloc _ _)) ?_
  exact ⟨⟨trivial, trivial, rfl, fun _ _ _ _ _ => rfl⟩, rfl, rfl⟩

end

/-! ### Facts made of facts -/

theorem agree_mkEach (h : Paired t t' f g) : Agree t t' same (mkEach f) (mkEach g) Unlabeled := by
  refine agree_made fun u u' c c' hu hu' => ?_
  refine ⟨⟨⟨rfl, h.formed⟩, ⟨rfl, h.formed'⟩, h.stateful, fun r r' hr hr' labels => ?_⟩, rfl, rfl⟩
  rw [text, text, h.text r r' (hu.trans hr) (hu'.trans hr')]

theorem agree_mkLens {a : Accessor} (h : Paired t t' f g) : Agree t t' same (mkLens a f) (mkLens a g) Unlabeled := by
  refine agree_made fun u u' c c' hu hu' => ?_
  refine ⟨⟨⟨rfl, h.formed⟩, ⟨rfl, h.formed'⟩, h.stateful, fun r r' hr hr' labels => ?_⟩, rfl, rfl⟩
  rw [text, text, h.text r r' (hu.trans hr) (hu'.trans hr')]

theorem agree_mkPrism {a : Accessor} (h : Paired t t' f g) : Agree t t' same (mkPrism a f) (mkPrism a g) Unlabeled := by
  refine agree_made fun u u' c c' hu hu' => ?_
  refine ⟨⟨⟨rfl, h.formed⟩, ⟨rfl, h.formed'⟩, h.stateful, fun r r' hr hr' labels => ?_⟩, rfl, rfl⟩
  rw [text, text, h.text r r' (hu.trans hr) (hu'.trans hr')]

theorem agree_mkEither (h : Paired t t' f g) (h' : Paired t t' f' g') :
    Agree t t' same (mkEither f f') (mkEither g g') Unlabeled := by
  refine agree_made fun u u' c c' hu hu' => ?_
  refine ⟨⟨⟨rfl, h.formed, h'.formed⟩, ⟨rfl, h.formed', h'.formed'⟩, ?_, fun r r' hr hr' labels => ?_⟩, rfl, rfl⟩
  · show (g.stateful || g'.stateful) = (f.stateful || f'.stateful)
    rw [h.stateful, h'.stateful]
  · rw [text, text, h.text r r' (hu.trans hr) (hu'.trans hr'), h'.text r r' (hu.trans hr) (hu'.trans hr')]

theorem formed_of_paired {fs gs : List Fact} (h : List.Forall₂ (Paired t t') fs gs) :
    FormedAll fs ∧ FormedAll gs ∧ gs.any stateful = fs.any stateful := by
  induction h with
  | nil => exact ⟨trivial, trivial, rfl⟩
  | cons h _ ih =>
    obtain ⟨hfs, hgs, hany⟩ := ih
    exact ⟨⟨h.formed, hfs⟩, ⟨h.formed', hgs⟩, by rw [List.any_cons, List.any_cons, h.stateful, hany]⟩

theorem textAll_of_paired {fs gs : List Fact} (h : List.Forall₂ (Paired t t') fs gs) (hu : t.Extends u)
    (hu' : t'.Extends u') : textAll u' gs = textAll u fs := by
  induction h with
  | nil => rfl
  | cons h _ ih => rw [textAll, textAll, h.text u u' hu hu', ih]

theorem agree_mkAll {fs gs : List Fact} {k : Int} (h : List.Forall₂ (Paired t t') fs gs) :
    Agree t t' same (mkAll fs k) (mkAll gs k) Unlabeled := by
  obtain ⟨hfs, hgs, hany⟩ := formed_of_paired h
  unfold mkAll
  split
  · exact agree_throw
  · refine agree_made fun u u' c c' hu hu' => ?_
    refine ⟨⟨⟨rfl, hfs⟩, ⟨rfl, hgs⟩, hany, fun r r' hr hr' labels => ?_⟩, rfl, rfl⟩
    rw [text, text, textAll_of_paired h (hu.trans hr) (hu'.trans hr')]

/-- A label is put on facts without labels of their own. -/
theorem agree_mkLabeled {name : String} (h : Unlabeled t t' f g) :
    Agree t t' same (mkLabeled f name) (mkLabeled g name) Paired := by
  have hrelabel {f : Fact} (hf : f.label? = none) :
      relabel name f = do return .labeled (← emptyCell) name f f.stateful := by
    cases f with
    | labeled => cases hf
    | _ => rfl
  unfold mkLabeled
  split
  · exact agree_throw
  · rw [hrelabel h.label, hrelabel h.label']
    refine agree_made fun u u' c c' hu hu' => ?_
    refine ⟨⟨rfl, h.formed⟩, ⟨rfl, h.formed'⟩, h.stateful, fun r r' hr hr' labels => ?_⟩
    rw [text, text, h.text r r' (hu.trans hr) (hu'.trans hr')]

end Fact

end Conform
