import Conform.Document.Document
import Conform.Proofs.Deciding
import Conform.Proofs.Loading

/-!
# What a loaded fact consists of

Loading writes to new objects only. So whatever a loaded fact notes its uses in is apart from the document, from
which it has its reference values and keys. `Fact.Founded` says this, and that the fact has no nodes but those
that a document can spell: none chooses its fact from the value, no accessor is brought from outside, and counters
start from integers.

`Act.Founds` is the judgement for actions that only add objects to a store. It has a rule for what is read on the way
(`Founds.after`), where all that is known of a reader by `Act.Makes` may be used.
-/

namespace Conform

open Act Data

/-! ## Adding objects -/

/-- Whether a store comes from another one by adding objects. -/
structure Store.Extends (s t : Store) : Prop where
  grows : s.Grows t
  given : t.given = s.given

namespace Store.Extends

variable {s t u : Store}

theorem refl (s : Store) : s.Extends s := ⟨.refl s, rfl⟩

theorem trans (h : s.Extends t) (k : t.Extends u) : s.Extends u := ⟨h.grows.trans k.grows, k.given.trans h.given⟩

theorem alloc (s : Store) (o : Object) : s.Extends (s.alloc o).2 := ⟨.alloc s o, rfl⟩

/-- No object is given back. -/
theorem size_le (h : s.Extends t) : s.size ≤ t.size := by
  by_contra hlt
  obtain ⟨o, ho⟩ := Store.exists_get? (Nat.not_le.mp hlt)
  exact Nat.lt_irrefl _ (Store.lt_size_of_get? (h.grows _ _ ho))

end Store.Extends

namespace Act

variable {α β : Type} {s t : Store} {P : Store → α → Prop} {Q : Store → β → Prop}

/-- Whether an action that answers in a world with some store has only added to the store, and its answer is as
described in the store that it leaves. -/
def Founds (s : Store) (a : Act α) (P : Store → α → Prop) : Prop :=
  ∀ w x u, w.store = s → exec a w = (.ok x, u) → s.Extends u.store ∧ P u.store x

theorem founds_pure {x : α} (h : P s x) : Founds s (pure x) P := by
  rintro w y u rfl ⟨⟩
  exact ⟨.refl _, h⟩

theorem founds_throw {e : Fault} : Founds s (throw e : Act α) P := nofun

theorem founds_alloc {o : Object} : Founds s (alloc o) fun t l => s.size ≤ l ∧ t.get? l = some o := by
  rintro w l u rfl ⟨⟩
  exact ⟨.alloc _ o, Nat.le_refl _, Store.get?_alloc_new⟩

theorem Founds.bind {a : Act α} {f : α → Act β} (ha : Founds s a P)
    (hf : ∀ x t, s.Extends t → P t x → Founds t (f x) Q) : Founds s (a >>= f) Q := by
  intro w y u hw hrun
  obtain ⟨x, w', hx, hy⟩ := exec_bind_ok hrun
  obtain ⟨hext, hp⟩ := ha w x w' hw hx
  obtain ⟨hext', hq⟩ := hf x w'.store hext hp w' y u rfl hy
  exact ⟨hext.trans hext', hq⟩

/-- What is read on the way leaves the store as it is. -/
theorem Founds.after {a : Act α} {f : α → Act β} {p : α → Prop} {E : Fault → Prop} (hquiet : a.Quiet)
    (ha : Makes t a p E) (hs : t.Grows s) (hf : ∀ x, p x → Founds s (f x) Q) : Founds s (a >>= f) Q := by
  intro w y u hw hrun
  obtain ⟨x, w', hx, hy⟩ := exec_bind_ok hrun
  obtain ⟨hok, -⟩ := ha w (hw ▸ hs)
  obtain ⟨-, hp⟩ := hok x w' hx
  obtain rfl := hquiet.eq_of_exec hx
  exact hf x hp w y u hw hy

/-- Of what is only looked at nothing need be known. -/
theorem founds_after {a : Act α} {f : α → Act β} (hquiet : a.Quiet) (hf : ∀ x, Founds s (f x) Q) :
    Founds s (a >>= f) Q := by
  intro w y u hw hrun
  obtain ⟨x, w', hx, hy⟩ := exec_bind_ok hrun
  obtain rfl := hquiet.eq_of_exec hx
  exact hf x w y u hw hy

/-- A handler that raises all faults again changes no answer. -/
theorem Founds.tryCatch {a : Act α} {h : Fault → Act α} (ha : Founds s a P)
    (hh : ∀ e w x u, exec (h e) w ≠ (.ok x, u)) : Founds s (tryCatch a h) P := by
  intro w x u hw hrun
  rw [exec_tryCatch] at hrun
  rcases ha' : exec a w with ⟨e | y, t⟩
  · rw [ha'] at hrun
    exact absurd hrun (hh e t x u)
  · rw [ha'] at hrun
    cases hrun
    exact ha w _ _ hw ha'

theorem quiet_display {v : Value} : Quiet (display v) := quiet_view.bind fun _ => quiet_written

theorem quiet_mapM {f : α → Act β} (h : ∀ x, Quiet (f x)) : ∀ xs : List α, Quiet (xs.mapM f)
  | [] => quiet_pure
  | x :: xs => by
    rw [List.mapM_cons]
    exact (h x).bind fun _ => (quiet_mapM h xs).bind fun _ => quiet_pure

end Act

/-! ## New nodes -/

namespace Fact

/-- Whether a node is as a document spells it, with a key among the first objects of a store, and notes what it
notes in later ones. A counter expects an integer, and a distinct fact has not seen anything. -/
structure NewAt (n : Nat) (s : Store) (f : Fact) : Prop where
  direct : ∀ c name tests fs g, f ≠ .mapped c name tests fs g
  accessor : ∀ a ∈ f.accessor?, a.IsNative ∧ a.ReadsIn (upTo n)
  counter : f.kind? = some .counter → n ≤ f.cell ∧ ∃ a b k, b.integer? = some k ∧
    s.get? f.cell = some (.slots [.atom a, .atom b])
  memory : f.kind? = some .memory → ∃ l, n ≤ l ∧ s.get? f.cell = some (.slots [.ref l]) ∧ s.get? l = some (.list [])

/-- Whether a fact is formed of new nodes. -/
def Founded (n : Nat) (s : Store) (f : Fact) : Prop := f.Formed ∧ ∀ m ∈ f.nodes, m.NewAt n s

section

variable {n : Nat} {s t : Store} {f g : Fact}

theorem NewAt.mono (h : f.NewAt n s) (hst : s.Extends t) : f.NewAt n t where
  direct := h.direct
  accessor := h.accessor
  counter := by
    intro hk
    obtain ⟨hn, a, b, k, hb, hget⟩ := h.counter hk
    exact ⟨hn, a, b, k, hb, hst.grows _ _ hget⟩
  memory := by
    intro hk
    obtain ⟨l, hn, hget, hl⟩ := h.memory hk
    exact ⟨l, hn, hst.grows _ _ hget, hst.grows _ _ hl⟩

theorem Founded.mono (h : f.Founded n s) (hst : s.Extends t) : f.Founded n t :=
  ⟨h.1, fun m hm => (h.2 m hm).mono hst⟩

/-- A node that notes nothing and reads no part is new wherever its cell is. -/
theorem newAt_plain (hk : f.kind? = none ∨ f.kind? = some .reference) (ha : f.accessor? = none)
    (hd : ∀ c name tests fs g, f ≠ .mapped c name tests fs g) : f.NewAt n s where
  direct := hd
  accessor := by
    rw [ha]
    exact nofun
  counter := by
    intro h
    rw [h] at hk
    rcases hk with hk | hk <;> cases hk
  memory := by
    intro h
    rw [h] at hk
    rcases hk with hk | hk <;> cases hk

/-- A fact that is made of others, which are founded, in a cell of its own. -/
theorem founds_make {vs : List Value} {make : Loc → Fact} (fs : List Fact) (hfs : ∀ g ∈ fs, g.Founded n s)
    (hformed : ∀ c, (make c).Formed) (hnodes : ∀ c, ∀ m ∈ (make c).nodes, m = make c ∨ ∃ g ∈ fs, m ∈ g.nodes)
    (hself : ∀ c t, s.size ≤ c → t.get? c = some (.slots vs) → (make c).NewAt n t) :
    Founds s (do return make (← newCell vs)) fun t f => f.Founded n t := by
  refine founds_alloc.bind fun c t hst hc => founds_pure ⟨hformed c, fun m hm => ?_⟩
  rcases hnodes c m hm with rfl | ⟨g, hg, hm⟩
  · exact hself c t hc.1 hc.2
  · exact ((hfs g hg).2 m hm).mono hst

/-- A leaf that notes nothing. -/
theorem founds_leaf {vs : List Value} {make : Loc → Fact} (hformed : ∀ c, (make c).Formed)
    (hnodes : ∀ c, (make c).nodes = [make c]) (hk : ∀ c, (make c).kind? = none ∨ (make c).kind? = some .reference)
    (ha : ∀ c, (make c).accessor? = none) (hd : ∀ c d name tests fs g, make c ≠ .mapped d name tests fs g) :
    Founds s (do return make (← newCell vs)) fun t f => f.Founded n t :=
  founds_make [] nofun hformed (fun c _ hm => .inl (List.mem_singleton.mp (hnodes c ▸ hm)))
    fun c _ _ _ => newAt_plain (hk c) (ha c) (hd c)

/-- A fact that is made of another one and reads no part. -/
theorem founds_wrap {make : Loc → Fact} (hf : f.Founded n s) (hformed : ∀ c, (make c).Formed)
    (hnodes : ∀ c, (make c).nodes = make c :: f.nodes) (hk : ∀ c, (make c).kind? = none)
    (ha : ∀ c, ∀ a ∈ (make c).accessor?, a.IsNative ∧ a.ReadsIn (upTo n))
    (hd : ∀ c d name tests fs g, make c ≠ .mapped d name tests fs g) :
    Founds s (do return make (← emptyCell)) fun t f => f.Founded n t := by
  refine founds_make [f] (by simpa using hf) hformed (fun c m hm => ?_) fun c t _ _ => ?_
  · rw [hnodes c] at hm
    exact (List.mem_cons.mp hm).imp_right fun hm => ⟨f, by simp, hm⟩
  · refine ⟨hd c, ha c, ?_, ?_⟩
    · rw [hk c]
      exact nofun
    · rw [hk c]
      exact nofun

/-! ## Making facts -/

theorem founds_mkAlways : Founds s mkAlways fun t f => f.Founded n t :=
  founds_leaf (fun _ => trivial) (fun _ => rfl) (fun _ => .inl rfl) (fun _ => rfl) nofun

theorem founds_mkNever {reason : String} : Founds s (mkNever reason) fun t f => f.Founded n t :=
  founds_leaf (fun _ => trivial) (fun _ => rfl) (fun _ => .inl rfl) (fun _ => rfl) nofun

theorem founds_mkEq {v : Value} : Founds s (mkEq v) fun t f => f.Founded n t :=
  founds_leaf (fun _ => trivial) (fun _ => rfl) (fun _ => .inr rfl) (fun _ => rfl) nofun

theorem founds_mkNe {v : Value} : Founds s (mkNe v) fun t f => f.Founded n t :=
  founds_leaf (fun _ => trivial) (fun _ => rfl) (fun _ => .inr rfl) (fun _ => rfl) nofun

theorem founds_mkInSet {v : Value} : Founds s (mkInSet v) fun t f => f.Founded n t := by
  refine founds_after quiet_ask fun o => ?_
  cases o with
  | error cause => exact founds_throw
  | ok xs => exact founds_leaf (fun _ => trivial) (fun _ => rfl) (fun _ => .inr rfl) (fun _ => rfl) nofun

theorem founds_mkInRange {low high : Value} : Founds s (mkInRange low high) fun t f => f.Founded n t :=
  founds_leaf (fun _ => trivial) (fun _ => rfl) (fun _ => .inr rfl) (fun _ => rfl) nofun

theorem founds_mkSame : Founds s mkSame fun t f => f.Founded n t :=
  founds_leaf (fun _ => trivial) (fun _ => rfl) (fun _ => .inl rfl) (fun _ => rfl) nofun

theorem founds_mkDifferent : Founds s mkDifferent fun t f => f.Founded n t :=
  founds_leaf (fun _ => trivial) (fun _ => rfl) (fun _ => .inl rfl) (fun _ => rfl) nofun

theorem founds_mkLength {size : Int} {like : Value} : Founds s (mkLength size like) fun t f => f.Founded n t := by
  unfold mkLength
  split
  · exact founds_throw
  · exact founds_leaf (fun _ => trivial) (fun _ => rfl) (fun _ => .inl rfl) (fun _ => rfl) nofun

theorem founds_mkConsecutive {a : Atom} {k : Int} (ha : a.integer? = some k) (hn : n ≤ s.size) :
    Founds s (mkConsecutive (.atom a)) fun t f => f.Founded n t := by
  refine founds_make [] nofun (fun _ => trivial) (fun c _ hm => .inl (List.mem_singleton.mp hm)) ?_
  intro c t hc hget
  exact ⟨nofun, nofun, fun _ => ⟨Nat.le_trans hn hc, a, a, k, ha, hget⟩, nofun⟩

theorem founds_mkDistinct (hn : n ≤ s.size) : Founds s mkDistinct fun t f => f.Founded n t := by
  refine founds_alloc.bind fun l t hst hl => founds_alloc.bind fun c u htu hc => founds_pure ⟨trivial, ?_⟩
  intro m hm
  cases List.mem_singleton.mp hm
  exact ⟨nofun, nofun, nofun, fun _ => ⟨l, Nat.le_trans hn hl.1, hc.2, htu.grows _ _ hl.2⟩⟩

theorem formedAll_of_forall {fs : List Fact} (h : ∀ g ∈ fs, g.Formed) : FormedAll fs := by
  induction fs with
  | nil => trivial
  | cons f fs ih => exact ⟨h f (by simp), ih fun g hg => h g (by simp [hg])⟩

theorem founds_mkAll {fs : List Fact} (hfs : ∀ g ∈ fs, g.Founded n s) :
    Founds s (mkAll fs) fun t f => f.Founded n t := by
  have hformed : FormedAll fs := formedAll_of_forall fun g hg => (hfs g hg).1
  refine founds_make fs hfs (fun _ => ⟨rfl, hformed⟩) (fun c m hm => ?_) fun c t _ _ => ?_
  · exact (List.mem_cons.mp hm).imp_right mem_nodesAll
  · exact newAt_plain (.inl rfl) rfl nofun

theorem founds_mkEither (hf : f.Founded n s) (hg : g.Founded n s) :
    Founds s (mkEither f g) fun t f => f.Founded n t := by
  refine founds_make [f, g] (by simp [hf, hg]) (fun _ => ⟨rfl, hf.1, hg.1⟩) (fun c m hm => ?_) fun c t _ _ => ?_
  · refine (List.mem_cons.mp hm).imp_right fun hm => ?_
    rcases List.mem_append.mp hm with hm | hm
    · exact ⟨f, by simp, hm⟩
    · exact ⟨g, by simp, hm⟩
  · exact newAt_plain (.inl rfl) rfl nofun

theorem founds_mkEach (hf : f.Founded n s) : Founds s (mkEach f) fun t f => f.Founded n t :=
  founds_wrap hf (fun _ => ⟨rfl, hf.1⟩) (fun _ => rfl) (fun _ => rfl) nofun nofun

theorem founds_mkLens {a : Accessor} (hf : f.Founded n s) (ha : a.IsNative ∧ a.ReadsIn (upTo n)) :
    Founds s (mkLens a f) fun t f => f.Founded n t := by
  refine founds_wrap hf (fun _ => ⟨rfl, hf.1⟩) (fun _ => rfl) (fun _ => rfl) ?_ nofun
  rintro c b ⟨⟩
  exact ha

theorem founds_mkPrism {a : Accessor} (hf : f.Founded n s) (ha : a.IsNative ∧ a.ReadsIn (upTo n)) :
    Founds s (mkPrism a f) fun t f => f.Founded n t := by
  refine founds_wrap hf (fun _ => ⟨rfl, hf.1⟩) (fun _ => rfl) (fun _ => rfl) ?_ nofun
  rintro c b ⟨⟩
  exact ha

/-- A stateful fact is not negated, so that no negation notes anything. -/
theorem founds_mkNot (hf : f.Founded n s) : Founds s (mkNot f) fun t f => f.Founded n t := by
  unfold mkNot
  cases hb : f.stateful with
  | true =>
    intro w g u hw hrun
    simp only [if_true, exec_bind, exec_complement_of_stateful (w := w) f hf.1 hb, Option.isNone_none] at hrun
    rcases hd : exec f.described w with ⟨e | d, u'⟩
    · simp [hd] at hrun
    · simp [hd] at hrun
  | false =>
    refine founds_wrap hf (fun _ => ⟨⟨rfl, hb⟩, hf.1⟩) (fun _ => rfl) (fun _ => rfl) nofun nofun

theorem founds_mkLabeled {name : String} (hf : f.Founded n s) :
    Founds s (mkLabeled f name) fun t f => f.Founded n t := by
  unfold mkLabeled
  split
  · exact founds_throw
  · have hplain : Founds s (do return Fact.labeled (← emptyCell) name f f.stateful) fun t g => g.Founded n t :=
      founds_wrap hf (fun _ => ⟨rfl, hf.1⟩) (fun _ => rfl) (fun _ => rfl) nofun nofun
    cases f with
    | labeled c label inner b =>
      -- the former label is dropped, and with it only the node that held it
      have hinner : inner.Founded n s := ⟨hf.1.2, fun m hm => hf.2 m (.tail _ hm)⟩
      exact founds_wrap hinner (fun _ => ⟨rfl, hinner.1⟩) (fun _ => rfl) (fun _ => rfl) nofun nofun
    | _ => exact hplain

end

end Fact

namespace Node

/-! ## Reading -/

section

variable {v : Value} {path : String} {fs : List (Value × Value)} {name : String}

theorem quiet_malformed {α : Type} {message : String} : Quiet (malformed path message : Act α) := quiet_throw

theorem quiet_mapping : Quiet (mapping v path) := by
  unfold mapping
  have hwrong : ∀ d : Data, Quiet (malformed path ("expected a mapping, got " ++ d.className ++
      ". Fix: write the node as '<constructor>: <argument>'.") : Act (List (Value × Value))) :=
    fun _ => quiet_malformed
  split
  · refine quiet_ask.bind fun o => ?_
    split
    · exact quiet_pure
    · exact quiet_view.bind hwrong
  · exact quiet_view.bind hwrong

theorem quiet_items : Quiet (items v path) := by
  unfold items
  split
  · refine quiet_ask.bind fun o => ?_
    split
    · exact quiet_pure
    · exact quiet_view.bind fun _ => quiet_malformed
  · exact quiet_view.bind fun _ => quiet_malformed

theorem quiet_integer : Quiet (integer v path) := by
  refine quiet_view.bind fun d => ?_
  have hwrong : Quiet (do malformed path ("expected an integer, got " ++ (← Act.render v) ++ ".") : Act Int) :=
    quiet_render.bind fun _ => quiet_malformed
  dsimp only
  split
  · split
    · exact hwrong
    · exact quiet_pure
  · exact hwrong

theorem quiet_requireNumber : Quiet (requireNumber v path) := by
  refine quiet_view.bind fun d => ?_
  split
  · exact quiet_pure
  · exact quiet_render.bind fun _ => quiet_malformed

theorem quiet_requireKeys {allowed : List String} : Quiet (requireKeys fs allowed path) := by
  refine quiet_ask.bind fun keys => ?_
  dsimp only
  split
  · exact quiet_misuse
  · exact quiet_pure
  · exact quiet_written.bind fun _ => quiet_malformed

theorem quiet_found : Quiet <| entry? fs name := quiet_ask

theorem quiet_entry : Quiet (entry fs name) := quiet_found.bind fun _ => quiet_pure

theorem quiet_projection {keyField : String} {allowed : List String} :
    Quiet (projection v keyField allowed path) := by
  refine quiet_mapping.bind fun es => quiet_requireKeys.bind fun _ => ?_
  refine quiet_found.bind fun o => quiet_found.bind fun o' => ?_
  split
  · exact quiet_pure
  · exact quiet_malformed

theorem quiet_ofKey : Quiet (Accessor.ofKey v) := by
  unfold Accessor.ofKey
  split
  · exact quiet_pure
  · exact quiet_render.bind fun _ => quiet_pure

theorem quiet_constructorOf : Quiet (constructorOf fs path) := by
  refine (quiet_mapM (fun _ => quiet_view.bind fun _ => quiet_pure) fs).bind fun viewed => ?_
  dsimp only
  split
  · refine (quiet_mapM (fun _ => quiet_written) _).bind fun names => ?_
    exact quiet_malformed.bind fun _ => by split <;> first | exact quiet_pure | exact quiet_malformed
  · split
    · exact quiet_pure
    · exact quiet_malformed

theorem quiet_descriptionOf : Quiet (Document.descriptionOf v) := by
  refine quiet_view.bind fun d => ?_
  split
  · exact quiet_pure
  · split
    · exact quiet_pure
    · exact quiet_malformed

end

/-! ## Loading -/

section

variable {n : Nat} {s t : Store} {d : Data} {v : Value} {path : String} {es : List (Data × Data)}
  {fs : List (Value × Value)}

theorem founds_malformed {α : Type} {P : Store → α → Prop} {message : String} :
    Founds t (malformed path message : Act α) P := founds_throw

theorem founds_rangeOf {low high : Value} : Founds t (rangeOf low high path) fun u f => f.Founded n u :=
  founds_after quiet_requireNumber fun _ => founds_after quiet_requireNumber fun _ => Fact.founds_mkInRange

theorem founds_loadRange : Founds t (loadRange v path) fun u f => f.Founded n u := by
  unfold loadRange
  split
  · refine founds_after quiet_ask fun o => ?_
    split
    · exact founds_rangeOf
    · exact founds_malformed
    · exact founds_after quiet_requireKeys fun _ => founds_after quiet_entry fun _ =>
        founds_after quiet_entry fun _ => founds_rangeOf
    · exact founds_malformed
  · exact founds_malformed

theorem founds_lengthOf {arg like : Value} : Founds t (lengthOf arg like path) fun u f => f.Founded n u := by
  refine founds_after quiet_integer fun k => ?_
  split
  · refine founds_after (quiet_display (v := .int k)) fun _ => ?_
    exact founds_after quiet_malformed fun _ => Fact.founds_mkLength
  · exact Fact.founds_mkLength

theorem founds_loadLength : Founds t (loadLength v path) fun u f => f.Founded n u := by
  unfold loadLength
  split
  · refine founds_after quiet_ask fun o => ?_
    split
    · refine founds_after quiet_requireKeys fun _ => founds_after quiet_found fun o => ?_
      split
      · exact founds_malformed
      · exact founds_after quiet_entry fun _ => founds_lengthOf
    · exact founds_lengthOf
  · exact founds_lengthOf

mutual

/-- A value that stands for a tree refers to objects that there are. -/
theorem Stored.bound_le : ∀ {d : Data} {v : Value}, d.Stored s v → v.bound ≤ s.size
  | .atom a, _, hd => by
    cases hd
    exact Nat.zero_le _
  | .tuple _ ds, _, hd | .set ds, _, hd => by
    obtain ⟨xs, rfl, hxs⟩ := hd
    exact StoredAll.boundAll_le hxs
  | .list ds, _, hd | .mapping es, _, hd => by
    obtain ⟨l, xs, rfl, hget, -⟩ := hd
    rw [Value.bound_ref]
    exact Store.lt_size_of_get? hget
  | .record _ _, _, hd | .elided _, _, hd => hd.elim

theorem StoredAll.boundAll_le : ∀ {ds : List Data} {xs : List Value}, StoredAll s ds xs →
    Value.boundAll xs ≤ s.size
  | [], [], _ => Nat.zero_le _
  | _ :: _, _ :: _, hd => by
    rw [Value.boundAll_cons]
    exact Nat.max_le.mpr ⟨Stored.bound_le hd.1, StoredAll.boundAll_le hd.2⟩
  | [], _ :: _, hd | _ :: _, [], hd => hd.elim

end

theorem Stored.within (hd : d.Stored s v) : v.Within (upTo s.size) := Value.within_upTo.mpr (Stored.bound_le hd)

/-- Whether a loader founds the facts of the trees in a store, whatever has been added since. -/
def LoadsNew (s : Store) (load : Value → String → Act Fact) : Prop :=
  ∀ {t : Store} {d : Data} {v : Value} {path : String}, s.Extends t → d.Stored s v → d.Literal →
    Founds t (load v path) fun u f => f.Founded s.size u

variable {load : Value → String → Act Fact}

/-- The parts of a projection stand for parts of its tree. -/
theorem Founds.projected {β : Type} {P : Store → β → Prop} {keyField : String} {allowed : List String}
    {f : List (Value × Value) × Value × Value → Act β} (hd : d.Stored s v) (hl : d.Literal) (ht : s.Extends t)
    (hf : ∀ fs key node, key.Within (upTo s.size) → (∃ c : Data, c.Stored s node ∧ c.Literal) →
      Founds t (f (fs, key, node)) P) :
    Founds t (projection v keyField allowed path >>= f) P := by
  refine Founds.after quiet_projection (makes_projection False hd False.elim) ht.grows fun r hr => ?_
  obtain ⟨fs, x, y⟩ := r
  obtain ⟨es, key, node, ⟨rfl, -, -⟩, ⟨-, hx⟩, hnode, hy⟩ := hr
  exact hf fs x y (Stored.within hx) ⟨node, hy, literal_under hl hnode⟩

theorem founds_loadAttr (hload : LoadsNew s load) (hd : d.Stored s v) (hl : d.Literal) (ht : s.Extends t) :
    Founds t (loadAttr load v path) fun u f => f.Founded s.size u := by
  refine Founds.projected hd hl ht fun fs key node _ hnode => ?_
  obtain ⟨c, hc, hlit⟩ := hnode
  refine (hload ht hc hlit).bind fun f u _ hf => ?_
  dsimp only
  split
  · split
    · exact founds_malformed
    · refine founds_after quiet_entry fun _ => founds_after quiet_view fun o => ?_
      split
      · exact Fact.founds_mkPrism hf ⟨trivial, trivial⟩
      · exact Fact.founds_mkLens hf ⟨trivial, trivial⟩
  · exact founds_malformed

theorem founds_loadItem (hload : LoadsNew s load) (hd : d.Stored s v) (hl : d.Literal) (ht : s.Extends t) :
    Founds t (loadItem load v path) fun u f => f.Founded s.size u := by
  refine Founds.projected hd hl ht fun fs key node hkey hnode => ?_
  obtain ⟨c, hc, hlit⟩ := hnode
  refine (hload ht hc hlit).bind fun f u _ hf => ?_
  have hkeyed : Makes u (Accessor.ofKey key) (fun a => ∃ shown, a = .item shown key) fun _ => True := by
    unfold Accessor.ofKey
    split
    · exact makes_pure ⟨_, rfl⟩
    · refine Makes.bind (P := fun _ => True) ?_ fun _ _ => makes_pure ⟨_, rfl⟩
      exact (makes_ask (P := fun _ => True) fun _ _ => trivial).bind fun _ _ => makes_written fun _ => trivial
  refine Founds.after quiet_ofKey hkeyed (.refl u) fun a ha => ?_
  obtain ⟨shown, rfl⟩ := ha
  exact Fact.founds_mkLens hf ⟨trivial, hkey⟩

theorem founds_loadParts (hload : LoadsNew s load) : ∀ {ds : List Data} {xs : List Value} {i : Nat} {t : Store},
    StoredAll s ds xs → LiteralAll ds → s.Extends t →
    Founds t (loadParts load path i xs) fun u fs => ∀ f ∈ fs, f.Founded s.size u
  | [], [], _, _, _, _, _ => founds_pure nofun
  | d :: ds, x :: xs, i, t, hd, hl, ht => by
    refine (hload ht hd.1 hl.1).bind fun f u htu hf => ?_
    refine (founds_loadParts hload hd.2 hl.2 (ht.trans htu)).bind fun fs r hur hfs => founds_pure ?_
    exact List.forall_mem_cons.mpr ⟨hf.mono hur, hfs⟩
  | [], _ :: _, _, _, hd, _, _ | _ :: _, [], _, _, hd, _, _ => hd.elim

/-- The items of a list are loaded one after the other. -/
theorem Founds.parts {β : Type} {P : Store → β → Prop} {f : List Fact → Act β} (hload : LoadsNew s load)
    (hd : d.Stored s v) (hl : d.Literal) (ht : s.Extends t)
    (hf : ∀ fs u, (∀ g ∈ fs, g.Founded s.size u) → Founds u (f fs) P) :
    Founds t (do f (← loadParts load path 0 (← items v path))) P := by
  refine Founds.after quiet_items (makes_items hd) ht.grows fun xs hxs => ?_
  obtain ⟨ds, rfl, hxs⟩ := hxs
  exact (founds_loadParts hload hxs hl ht).bind fun fs u _ hfs => hf fs u hfs

theorem founds_loadEither (hload : LoadsNew s load) (hd : d.Stored s v) (hl : d.Literal) (ht : s.Extends t) :
    Founds t (loadEither load v path) fun u f => f.Founded s.size u := by
  refine Founds.parts hload hd hl ht fun fs u hfs => ?_
  split
  · next a b => exact Fact.founds_mkEither (hfs a (by simp)) (hfs b (by simp))
  · exact founds_malformed

theorem founds_loadNegation (hload : LoadsNew s load) (hd : d.Stored s v) (hl : d.Literal) (ht : s.Extends t) :
    Founds t (loadNegation load v path) fun u f => f.Founded s.size u := by
  refine (hload ht hd hl).bind fun f u _ hf => (Fact.founds_mkNot hf).tryCatch fun e w x u' hrun => ?_
  split at hrun <;> cases hrun

/-- A counter starts from an integer. -/
theorem founds_loadCounter (hd : d.Stored s v) (hl : d.Literal) (ht : s.Extends t) :
    Founds t (if v.isNull then Fact.mkConsecutive (.int 0) else do
        let _ ← integer v path
        Fact.mkConsecutive v) fun u f => f.Founded s.size u := by
  split
  · exact Fact.founds_mkConsecutive rfl ht.size_le
  · refine Founds.after quiet_integer (makes_integer hd hl) ht.grows fun k hk => ?_
    subst hk
    cases hd
    exact Fact.founds_mkConsecutive rfl ht.size_le

theorem founds_loadConstructor {k : Constructor} (hload : LoadsNew s load) (hd : d.Stored s v) (hl : d.Literal)
    (ht : s.Extends t) : Founds t (loadConstructor load k v path) fun u f => f.Founded s.size u := by
  cases k with
  | always => exact Fact.founds_mkAlways
  | never =>
    show Founds t (if v.isNull then _ else _) _
    split
    · exact Fact.founds_mkNever
    · exact founds_after quiet_display fun _ => Fact.founds_mkNever
  | eq => exact Fact.founds_mkEq
  | ne => exact Fact.founds_mkNe
  | inSet => exact founds_after quiet_items fun _ => Fact.founds_mkInSet
  | inRange => exact founds_loadRange
  | not => exact founds_loadNegation hload hd hl ht
  | and => exact Founds.parts hload hd hl ht fun fs u hfs => Fact.founds_mkAll hfs
  | or => exact founds_loadEither hload hd hl ht
  | attr => exact founds_loadAttr hload hd hl ht
  | item => exact founds_loadItem hload hd hl ht
  | seq => exact (hload ht hd hl).bind fun f u _ hf => Fact.founds_mkEach hf
  | vecLen => exact founds_loadLength
  | consecutiveInt => exact founds_loadCounter hd hl ht
  | distinct => exact Fact.founds_mkDistinct ht.size_le
  | same => exact Fact.founds_mkSame
  | different => exact Fact.founds_mkDifferent

theorem founds_withLabel {f : Fact} (hf : f.Founded n t) :
    Founds t (withLabel fs f path) fun u g => g.Founded n u := by
  refine founds_after quiet_entry fun x => ?_
  split
  · exact founds_pure hf
  · split
    · exact founds_malformed
    · exact Fact.founds_mkLabeled hf
  · exact founds_malformed

/-- A loaded fact is founded, however deep its nodes are nested. -/
theorem founds_loadWithin (levels : Nat) : LoadsNew s (loadWithin levels) := by
  induction levels with
  | zero => exact fun _ _ _ => founds_throw
  | succ levels ih =>
    intro t d v path ht hd hl
    refine Founds.after quiet_mapping (makes_mapping hd) ht.grows fun fs hfs => ?_
    obtain ⟨es, rfl, hfs⟩ := hfs
    refine Founds.after quiet_constructorOf (makes_constructorOf hfs) ht.grows fun r hr => ?_
    obtain ⟨k, x⟩ := r
    obtain ⟨arg, hhead, hx⟩ := hr
    refine (founds_loadConstructor ih hx (LiteralEntries.mem hl hhead.mem) ht).bind fun f u _ hf => ?_
    exact founds_withLabel hf

theorem founds_load (hd : d.Stored s v) (hl : d.Literal) :
    Founds s (Node.load v path) fun u f => f.Founded s.size u :=
  founds_after quiet_get fun _ => founds_loadWithin _ (.refl s) hd hl

/-- The fact of a loaded document is founded. -/
theorem founds_ofValue (hd : d.Stored s v) (hl : d.Literal) :
    Founds s (Document.ofValue v) fun u document => document.fact.Founded s.size u := by
  refine Founds.after quiet_mapping (makes_mapping hd) (.refl s) fun fs hfs => ?_
  obtain ⟨es, rfl, hfs⟩ := hfs
  refine founds_after quiet_requireKeys fun _ => ?_
  refine Founds.after quiet_found (makes_found (E := fun _ => True) hfs "fact") (.refl s) fun o ho => ?_
  rcases ho with ⟨-, rfl⟩ | ⟨c, x, hc, rfl, hx⟩
  · exact founds_malformed
  · refine founds_after quiet_entry fun _ => founds_after quiet_descriptionOf fun _ => ?_
    refine (founds_load hx (literal_under hl hc)).bind fun f u _ hf => ?_
    exact founds_after quiet_entry fun _ => founds_pure hf

end

end Node

end Conform
