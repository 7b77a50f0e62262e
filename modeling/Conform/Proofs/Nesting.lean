import Conform.Proofs.Agreeing
import Mathlib.Data.Finset.Card

/-!
# How many levels the loader needs

Two loaders agree on the nodes of a store (`Node.LoadsAlike`) if any two runs of them do in stores that have grown
from it. A loader with one level more agrees with another one with one level more, if these agree
(`loadsAlike_succ`). So a level more changes no outcome that is there already. And since there are no more mappings
to nest than objects, the loader with one level for each of them and one more has all outcomes that any loader has
(`loadsAlike_enough`).
-/

namespace Conform

open Act Data

namespace Node

/-- Whether two loaders agree on the nodes of a store. -/
def LoadsAlike (s : Store) (load load' : Value → String → Act Fact) : Prop :=
  ∀ {t t' : Store} {same : Prop} {v : Value} {p p' : String}, s.Splits t t' → v.bound ≤ s.size → (same → p = p') →
    Agree t t' same (load v p) (load' v p') Fact.Paired

variable {s t t' : Store} {same : Prop} {v low high like : Value} {p p' : String} {es : List (Value × Value)}
  {load load' : Value → String → Act Fact}

/-- Paths that are one path are so with a segment more. -/
theorem same_append (hp : same → p = p') (segment : String) : same → p ++ segment = p' ++ segment := fun h => by
  rw [hp h]

/-! ## Arguments that hold no nodes -/

section

variable (hs : s.Splits t t') (hp : same → p = p')

include hs hp

theorem agree_rangeOf (hlow : low.bound ≤ s.size) (hhigh : high.bound ≤ s.size) :
    Agree t t' same (rangeOf low high p) (rangeOf low high p') Fact.Unlabeled := by
  refine (agree_requireNumber hs hlow (same_append hp ".low")).bind fun u u' _ _ hu hu' _ => ?_
  have hs := hs.grow hu hu'
  refine (agree_requireNumber hs hhigh (same_append hp ".high")).bind fun u u' _ _ hu hu' _ => ?_
  exact Fact.agree_mkInRange (hs.grow hu hu') hlow hhigh

theorem agree_loadRange (hv : v.bound ≤ s.size) :
    Agree t t' same (loadRange v p) (loadRange v p') Fact.Unlabeled := by
  unfold loadRange
  cases v with
  | ref l =>
    refine .get hs (Store.lt_of_bound hv) ?_
    split
    · next low high hends =>
      have hends : Value.boundAll [low, high] ≤ s.size := hs.whole.object hends
      refine agree_rangeOf hs hp ?_ ?_
      · exact Nat.le_trans (Value.bound_le_boundAll (by simp)) hends
      · exact Nat.le_trans (Value.bound_le_boundAll (by simp)) hends
    · exact agree_malformed hp
    · next es hes =>
      have hes := hs.whole.object hes
      refine (agree_requireKeys hs hes hp _).bind fun u u' _ _ hu hu' _ => ?_
      have hs := hs.grow hu hu'
      exact .entry hs hes fun low hlow => .entry hs hes fun high hhigh => agree_rangeOf hs hp hlow hhigh
    · exact agree_malformed hp
  | _ => exact agree_malformed hp

theorem agree_lengthOf (hv : v.bound ≤ s.size) (hlike : like.bound ≤ s.size) :
    Agree t t' same (lengthOf v like p) (lengthOf v like p') Fact.Unlabeled := by
  refine (agree_integer hs hv hp).bind fun u u' n _ hu hu' hn => ?_
  subst hn
  have hs := hs.grow hu hu'
  split
  · refine .display hs (Nat.zero_le _) fun text => ?_
    exact (agree_malformed (P := fun _ _ _ _ => False) hp).bind fun _ _ _ _ _ _ h => h.elim
  · exact Fact.agree_mkLength hs hlike

theorem agree_loadLength (hv : v.bound ≤ s.size) :
    Agree t t' same (loadLength v p) (loadLength v p') Fact.Unlabeled := by
  unfold loadLength
  cases v with
  | ref l =>
    refine .get hs (Store.lt_of_bound hv) ?_
    split
    · next es hes =>
      have hes := hs.whole.object hes
      refine (agree_requireKeys hs hes hp _).bind fun u u' _ _ hu hu' _ => ?_
      have hs := hs.grow hu hu'
      refine .found hs hes ?_
      cases hlength : s.lookup es (.atom (.text "length")) with
      | none => exact agree_malformed hp
      | some n =>
        refine .entry hs hes fun like hlike => ?_
        exact agree_lengthOf hs (same_append hp ".length") (Store.bound_of_lookup hes hlength) hlike
    · exact agree_lengthOf hs hp hv (Nat.zero_le _)
  | _ => exact agree_lengthOf hs hp hv (Nat.zero_le _)

/-- A counter starts from what its argument is. -/
theorem agree_loadCounter (hv : v.bound ≤ s.size) :
    Agree t t' same
      (if v.isNull then Fact.mkConsecutive (.int 0) else do
        let _ ← integer v p
        Fact.mkConsecutive v)
      (if v.isNull then Fact.mkConsecutive (.int 0) else do
        let _ ← integer v p'
        Fact.mkConsecutive v) Fact.Unlabeled := by
  split
  · exact Fact.agree_mkConsecutive hs (Nat.zero_le _)
  · refine (agree_integer hs hv hp).bind fun u u' n _ hu hu' hn => ?_
    exact Fact.agree_mkConsecutive (hs.grow hu hu') hv

/-- The options of a set are the items of a list. -/
theorem agree_loadMembership (hv : v.bound ≤ s.size) :
    Agree t t' same
      (do
        let _ ← items v p
        Fact.mkInSet v)
      (do
        let _ ← items v p'
        Fact.mkInSet v) Fact.Unlabeled := by
  refine (agree_items hs hv hp).bind fun u u' xs _ hu hu' hxs => ?_
  obtain ⟨-, l, rfl, hl⟩ := hxs
  exact Fact.agree_mkInSet (hs.grow hu hu') hl

end

/-! ## Arguments that hold nodes -/

/-- The parts of a projection are read the same. -/
theorem agree_projection {keyField : String} {allowed : List String} (hs : s.Splits t t') (hv : v.bound ≤ s.size)
    (hp : same → p = p') :
    Agree t t' same (projection v keyField allowed p) (projection v keyField allowed p')
      fun _ _ r r' => r' = r ∧ (Object.mapping r.1).bound ≤ s.size ∧ r.2.1.bound ≤ s.size ∧ r.2.2.bound ≤ s.size := by
  refine (agree_mapping hs hv hp).bind fun u u' es _ hu hu' hes => ?_
  obtain ⟨rfl, l, rfl, hes⟩ := hes
  have hes := hs.whole.object hes
  have hs := hs.grow hu hu'
  refine (agree_requireKeys hs hes hp allowed).bind fun u u' _ _ hu hu' _ => ?_
  have hs := hs.grow hu hu'
  refine .found hs hes (.found hs hes ?_)
  cases hkey : s.lookup _ (.atom (.text keyField)) with
  | none => exact agree_malformed hp
  | some key =>
    cases hnode : s.lookup _ (.atom (.text "fact")) with
    | none => exact agree_malformed hp
    | some node =>
      have hbounds := And.intro (Store.bound_of_lookup hes hkey) (Store.bound_of_lookup hes hnode)
      exact agree_pure fun _ _ _ _ => ⟨rfl, hes, hbounds⟩

section

variable (hload : LoadsAlike s load load') (hs : s.Splits t t') (hv : v.bound ≤ s.size) (hp : same → p = p')

include hload hs hv hp

theorem agree_loadAttr : Agree t t' same (loadAttr load v p) (loadAttr load' v p') Fact.Unlabeled := by
  refine (agree_projection hs hv hp).bind fun u u' r r' hu hu' hr => ?_
  obtain ⟨rfl, hes, hkey, hnode⟩ := hr
  have hs := hs.grow hu hu'
  refine (hload hs hnode (same_append hp ".fact")).bind fun u u' f g hu hu' hfg => ?_
  have hs := hs.grow hu hu'
  have hwrong : Agree u u' same
      (malformed (p ++ ".name") "expected a non-empty attribute name." : Act Fact)
      (malformed (p' ++ ".name") "expected a non-empty attribute name." : Act Fact) Fact.Unlabeled :=
    agree_malformed (same_append hp ".name")
  dsimp only
  split
  · split
    · exact hwrong
    · refine .entry hs hes fun o ho => .view hs ho ?_
      split
      · exact Fact.agree_mkPrism hfg
      · exact Fact.agree_mkLens hfg
  · exact hwrong

theorem agree_loadItem : Agree t t' same (loadItem load v p) (loadItem load' v p') Fact.Unlabeled := by
  refine (agree_projection hs hv hp).bind fun u u' r r' hu hu' hr => ?_
  obtain ⟨rfl, hes, hkey, hnode⟩ := hr
  have hs := hs.grow hu hu'
  refine (hload hs hnode (same_append hp ".fact")).bind fun u u' f g hu hu' hfg => ?_
  have hs := hs.grow hu hu'
  have hkeyed : Agree u u' same (Accessor.ofKey r'.2.1) (Accessor.ofKey r'.2.1) fun _ _ a a' => a' = a := by
    unfold Accessor.ofKey
    split
    · exact agree_pure fun _ _ _ _ => rfl
    · exact .render hs hkey fun _ => agree_pure fun _ _ _ _ => rfl
  refine hkeyed.bind fun x x' a _ hx hx' ha => ?_
  subst ha
  exact Fact.agree_mkLens (hfg.mono hx hx')

end

/-- A negation is made of the fact that has been loaded. -/
theorem loadNegation_eq (load : Value → String → Act Fact) :
    loadNegation load v p = load v p >>= fun f => loadNegation (fun _ _ => pure f) v p := rfl

/-- What is said of a fact that cannot be negated, by its description. -/
def negationText (description : Option String) : String :=
  (description.map fun text => (Refusal.negation (Text.quote text)).message).getD tooLongText

/-- A stateful fact is refused. -/
theorem exec_loadNegation_of_stateful {f : Fact} {w : World} (hf : f.Formed) (hb : f.stateful = true) :
    exec (loadNegation (fun _ _ => pure f) v p) w =
      (.error (.schema p (negationText (f.describe w.store))), w) := by
  simp only [loadNegation, Fact.mkNot, exec_bind, exec_pure, exec_tryCatch, hb, if_true,
    Fact.exec_complement_of_stateful (w := w) f hf hb, Option.isNone_none, Fact.described, exec_ask, exec_written]
  cases f.describe w.store with
  | none => rfl
  | some text => rfl

/-- A stateless fact is negated in a cell of its own. -/
theorem exec_loadNegation_of_stateless {f : Fact} {w : World} (hb : f.stateful = false) :
    exec (loadNegation (fun _ _ => pure f) v p) w =
      exec (do return .negation (← Fact.emptyCell) f Limit.default.draws false) w := by
  simp only [loadNegation, Fact.mkNot, exec_bind, exec_pure, exec_tryCatch, hb, Bool.false_eq_true, if_false]
  rfl

/-- The members of a list are loaded one after the other, up to the first that is refused. -/
theorem agree_loadParts (hload : LoadsAlike s load load') (hp : same → p = p') :
    ∀ {t t' : Store} (vs : List Value) (i : Nat), s.Splits t t' → (∀ v ∈ vs, v.bound ≤ s.size) →
      Agree t t' same (loadParts load p i vs) (loadParts load' p' i vs)
        fun u u' fs gs => List.Forall₂ (Fact.Paired u u') fs gs
  | _, _, [], _, _, _ => agree_pure fun _ _ _ _ => .nil
  | t, t', v :: vs, i, hs, hvs => by
    obtain ⟨hv, hvs⟩ := List.forall_mem_cons.mp hvs
    refine (hload hs hv (same_append hp _)).bind fun u u' f g hu hu' hfg => ?_
    refine (agree_loadParts hload hp vs (i + 1) (hs.grow hu hu') hvs).bind fun r r' fs gs hr hr' hfs => ?_
    exact agree_pure fun _ _ hx hx' => .cons (hfg.mono (hr.trans hx) (hr'.trans hx'))
      (hfs.imp fun _ _ h => h.mono hx hx')

section

variable (hload : LoadsAlike s load load') (hs : s.Splits t t') (hv : v.bound ≤ s.size) (hp : same → p = p')

include hload hs hv hp

/-- The items of a list are loaded before anything is made of them. -/
theorem agree_parts {make make' : List Fact → Act Fact} {P : Store → Store → Fact → Fact → Prop}
    (hmake : ∀ u u' fs gs, List.Forall₂ (Fact.Paired u u') fs gs → Agree u u' same (make fs) (make' gs) P) :
    Agree t t' same (do make (← loadParts load p 0 (← items v p))) (do make' (← loadParts load' p' 0 (← items v p')))
      P := by
  refine (agree_items hs hv hp).bind fun u u' xs _ hu hu' hxs => ?_
  obtain ⟨rfl, l, rfl, hl⟩ := hxs
  have hbounds := Value.boundAll_le.mp (hs.whole.object hl)
  exact (agree_loadParts hload hp _ 0 (hs.grow hu hu') hbounds).bind fun _ _ fs gs _ _ hfs => hmake _ _ fs gs hfs

theorem agree_loadEither : Agree t t' same (loadEither load v p) (loadEither load' v p') Fact.Unlabeled := by
  refine agree_parts hload hs hv hp fun u u' fs gs hfs => ?_
  have hlength := hfs.length_eq
  cases hfs with
  | nil => exact agree_malformed hp
  | cons hf hfs =>
    cases hfs with
    | nil => exact agree_malformed hp
    | cons hg hfs =>
      cases hfs with
      | nil => exact Fact.agree_mkEither hf hg
      | cons => 
        dsimp only
        rw [hlength]
        exact agree_malformed hp

theorem agree_loadNegation : Agree t t' same (loadNegation load v p) (loadNegation load' v p') Fact.Unlabeled := by
  rw [loadNegation_eq load, loadNegation_eq load']
  refine (hload hs hv hp).bind fun u u' f g hu hu' hfg => ?_
  cases hb : f.stateful with
  | true =>
    intro w w' hw hw'
    have htext : g.describe w'.store = f.describe w.store := hfg.text _ _ hw hw' true
    rw [exec_loadNegation_of_stateful hfg.formed hb, exec_loadNegation_of_stateful hfg.formed' (hfg.stateful.trans hb),
      htext]
    exact .error (.schema hp)
  | false =>
    have hb' : g.stateful = false := hfg.stateful.trans hb
    have hmade : Agree u u' same (do return .negation (← Fact.emptyCell) f Limit.default.draws false)
        (do return .negation (← Fact.emptyCell) g Limit.default.draws false) Fact.Unlabeled := by
      refine Fact.agree_made fun r r' c c' hr hr' => ?_
      refine ⟨⟨⟨⟨rfl, hb⟩, hfg.formed⟩, ⟨⟨rfl, hb'⟩, hfg.formed'⟩, rfl, fun x x' hx hx' labels => ?_⟩, rfl, rfl⟩
      rw [Fact.text, Fact.text, hfg.text x x' (hr.trans hx) (hr'.trans hx')]
    intro w w' hw hw'
    rw [exec_loadNegation_of_stateless hb, exec_loadNegation_of_stateless hb']
    exact hmade w w' hw hw'

theorem agree_loadConstructor (k : Constructor) :
    Agree t t' same (loadConstructor load k v p) (loadConstructor load' k v p') Fact.Unlabeled := by
  cases k with
  | always => exact Fact.agree_mkAlways hs
  | never =>
    show Agree t t' same (if v.isNull then _ else _) (if v.isNull then _ else _) _
    split
    · exact Fact.agree_mkNever hs
    · exact .display hs hv fun _ => Fact.agree_mkNever hs
  | eq => exact Fact.agree_equality hs hv
  | ne => exact Fact.agree_equality hs hv
  | inSet => exact agree_loadMembership hs hp hv
  | inRange => exact agree_loadRange hs hp hv
  | not => exact agree_loadNegation hload hs hv hp
  | and => exact agree_parts hload hs hv hp fun _ _ _ _ hfs => Fact.agree_mkAll hfs
  | or => exact agree_loadEither hload hs hv hp
  | attr => exact agree_loadAttr hload hs hv hp
  | item => exact agree_loadItem hload hs hv hp
  | seq => exact (hload hs hv hp).bind fun _ _ _ _ _ _ hfg => Fact.agree_mkEach hfg
  | vecLen => exact agree_loadLength hs hp hv
  | consecutiveInt => exact agree_loadCounter hs hp hv
  | distinct => exact Fact.agree_mkDistinct
  | same => exact Fact.agree_mkSame hs
  | different => exact Fact.agree_mkDifferent hs

end

/-! ## Nodes -/

/-- The entries of a mapping with their keys as they are in a store. -/
def viewed (es : List (Value × Value)) (s : Store) : List (Data × Value) := es.map fun e => (s.view e.1, e.2)

theorem mapM_view (es : List (Value × Value)) :
    (es.mapM fun e => do return (← Act.view e.1, e.2) : Act (List (Data × Value))) = Act.ask (viewed es) := by
  induction es with
  | nil => rfl
  | cons e es ih =>
    rw [List.mapM_cons, ih]
    rfl

theorem viewed_extends (hs : s.Whole) (ht : s.Extends t) (hes : (Object.mapping es).bound ≤ s.size) :
    viewed es t = viewed es s := by
  refine List.map_congr_left fun e he => ?_
  rw [Store.view_extends hs ht (Store.bound_of_entry hes he).1]

/-- The constructor of a mapping is read the same. -/
theorem agree_constructorOf (hs : s.Splits t t') (hes : (Object.mapping es).bound ≤ s.size) (hp : same → p = p') :
    Agree t t' same (constructorOf es p) (constructorOf es p') fun _ _ r r' => r' = r ∧ r.2.bound ≤ s.size := by
  have hbound : ∀ e ∈ viewed es s, e.2.bound ≤ s.size := by
    intro e he
    obtain ⟨entry, hentry, rfl⟩ := List.mem_map.mp he
    exact (Store.bound_of_entry hes hentry).2
  unfold constructorOf
  rw [mapM_view]
  refine .ask hs (fun u hu => viewed_extends hs.whole hu hes) ?_
  dsimp only
  split
  · refine .writtenAll (fun names => ?_) _
    exact (agree_malformed (P := fun _ _ _ _ => False) hp).bind fun _ _ _ _ _ _ h => h.elim
  · split
    · next one hone =>
      refine agree_pure fun _ _ _ _ => ⟨rfl, ?_⟩
      have hmem := hone ▸ List.mem_singleton_self one
      obtain ⟨e, he, hk⟩ := List.mem_filterMap.mp hmem
      obtain ⟨k, -, rfl⟩ := Option.map_eq_some_iff.mp hk
      exact hbound e (List.mem_filter.mp he).1
    · exact agree_malformed hp

theorem agree_withLabel {f g : Fact} (hs : s.Splits t t') (hes : (Object.mapping es).bound ≤ s.size)
    (hp : same → p = p') (hfg : Fact.Unlabeled t t' f g) :
    Agree t t' same (withLabel es f p) (withLabel es g p') Fact.Paired := by
  have hwrong : Agree t t' same (malformed (p ++ ".label") "expected a non-empty string." : Act Fact)
      (malformed (p' ++ ".label") "expected a non-empty string." : Act Fact) Fact.Paired :=
    agree_malformed (same_append hp ".label")
  refine .entry hs hes fun x hx => ?_
  split
  · exact agree_pure fun _ _ hu hu' => hfg.toPaired.mono hu hu'
  · split
    · exact hwrong
    · exact Fact.agree_mkLabeled hfg
  · exact hwrong

/-! ## Levels -/

/-- Loaders with one level more agree if the others do. -/
theorem loadsAlike_succ {m n : Nat} (h : LoadsAlike s (loadWithin m) (loadWithin n)) :
    LoadsAlike s (loadWithin (m + 1)) (loadWithin (n + 1)) := by
  intro t t' same v p p' hs hv hp
  refine (agree_mapping hs hv hp).bind fun u u' es _ hu hu' hes => ?_
  obtain ⟨rfl, l, rfl, hes⟩ := hes
  have hes := hs.whole.object hes
  have hs := hs.grow hu hu'
  refine (agree_constructorOf hs hes hp).bind fun u u' r r' hu hu' hr => ?_
  obtain ⟨rfl, harg⟩ := hr
  have hs := hs.grow hu hu'
  have hpath := same_append (same_append hp ".") r'.1.key
  refine (agree_loadConstructor h hs harg hpath r'.1).bind fun u u' f g hu hu' hfg => ?_
  exact agree_withLabel (hs.grow hu hu') hes hp hfg

theorem loadsAlike_zero {load : Value → String → Act Fact} : LoadsAlike s (loadWithin 0) load :=
  fun _ _ _ _ _ _ _ => .lost

/-- More levels change no outcome that is there already. -/
theorem loadsAlike_le {m n : Nat} (h : m ≤ n) : LoadsAlike s (loadWithin m) (loadWithin n) := by
  induction m generalizing n with
  | zero => exact loadsAlike_zero
  | succ m ih =>
    obtain ⟨n, rfl⟩ := Nat.exists_eq_add_of_le' h
    exact loadsAlike_succ (ih (Nat.le_add_left m n))

/-- Runs with more levels, wherever the store has grown to and at any path. -/
theorem agreed_loadWithin {m n : Nat} {w w' : World} (hmn : m ≤ n) (hs : s.Whole) (hv : v.bound ≤ s.size)
    (hw : s.Extends w.store) (hw' : s.Extends w'.store) (p p' : String) :
    Agreed w.store w'.store (p = p') Fact.Paired (exec (loadWithin m v p) w) (exec (loadWithin n v p') w') :=
  loadsAlike_le hmn ⟨hs, hw, hw'⟩ hv id w w' (.refl _) (.refl _)

/-! ## The bottom -/

/-- Whether a loader comes to the bottom at a value. -/
def Sinks (s : Store) (n : Nat) (v : Value) : Prop :=
  ∃ w path u, s.Extends w.store ∧ exec (loadWithin n v path) w = (.error (.misuse .bottomless), u)

/-- What comes to the bottom once does so everywhere, and with fewer levels. -/
theorem Sinks.exec_eq {m n : Nat} {w : World} (h : Sinks s n v) (hs : s.Whole) (hv : v.bound ≤ s.size) (hmn : m ≤ n)
    (hw : s.Extends w.store) (path : String) :
    ∃ u, exec (loadWithin m v path) w = (.error (.misuse .bottomless), u) := by
  obtain ⟨w', path', u', hw', hrun'⟩ := h
  have hruns := agreed_loadWithin hmn hs hv hw hw' path path'
  rw [hrun'] at hruns
  exact hruns.lost_of_lost

theorem Sinks.le {m n : Nat} (h : Sinks s n v) (hs : s.Whole) (hv : v.bound ≤ s.size) (hmn : m ≤ n) : Sinks s m v := by
  have ⟨w, path, _, hw, _⟩ := h
  obtain ⟨u, hu⟩ := h.exec_eq hs hv hmn hw path
  exact ⟨w, path, u, hw, hu⟩

/-- With a level left, only an object can lead to the bottom. -/
theorem Sinks.exists_ref {n : Nat} (h : Sinks s (n + 1) v) : ∃ l, v = .ref l := by
  obtain ⟨w, path, u, -, hrun⟩ := h
  cases v with
  | ref l => exact ⟨l, rfl⟩
  | _ => cases hrun

/-- If a level more lets the loader answer otherwise, then it comes to the bottom at some value with that level less
only. -/
theorem exists_sinks {n : Nat} (hs : s.Whole) (h : ¬ LoadsAlike s (loadWithin (n + 1)) (loadWithin n)) :
    ∃ v, v.bound ≤ s.size ∧ Sinks s n v ∧ ¬ Sinks s (n + 1) v := by
  by_contra hnone
  refine h fun {t t' same v p p'} hsplits hv hp w w' hw hw' => ?_
  have hruns := loadsAlike_le (Nat.le_succ n) hsplits.symm hv (fun h => (hp h).symm) w' w hw' hw
  generalize hleft : exec (loadWithin n v p') w' = r' at hruns
  generalize hright : exec (loadWithin (n + 1) v p) w = r at hruns ⊢
  cases hruns with
  | ok hu hu' hfg => exact .ok hu' hu hfg.symm
  | error he => exact .error he.symm
  | lost =>
    have hsinks : Sinks s (n + 1) v := by
      by_contra hnot
      exact hnone ⟨v, hv, ⟨w', p', _, hsplits.right.trans hw', hleft⟩, hnot⟩
    obtain ⟨u, hu⟩ := hsinks.exec_eq hs hv (Nat.le_refl _) (hsplits.left.trans hw) p
    rw [← hright, hu]
    exact .lost

theorem loadsAlike_add {n : Nat} (h : LoadsAlike s (loadWithin (n + 1)) (loadWithin n)) (k : Nat) :
    LoadsAlike s (loadWithin (n + k + 1)) (loadWithin (n + k)) := by
  induction k with
  | zero => exact h
  | succ k ih => exact loadsAlike_succ ih

/-- There are no more mappings to nest than there are objects. -/
theorem loadsAlike_size (hs : s.Whole) {n : Nat} (hn : s.size < n) :
    LoadsAlike s (loadWithin (n + 1)) (loadWithin n) := by
  by_contra hnot
  -- otherwise each level up to here would have a mapping of its own that needs it
  have hlocs : ∀ j < n, ∃ l < s.size, Sinks s (j + 1) (.ref l) ∧ ¬ Sinks s (j + 2) (.ref l) := by
    intro j hj
    have hlevel : ¬ LoadsAlike s (loadWithin (j + 1 + 1)) (loadWithin (j + 1)) := by
      intro h
      obtain ⟨k, rfl⟩ := Nat.exists_eq_add_of_le (Nat.succ_le_of_lt hj)
      exact hnot (loadsAlike_add h k)
    obtain ⟨v, hv, hsinks, hnot⟩ := exists_sinks hs hlevel
    obtain ⟨l, rfl⟩ := hsinks.exists_ref
    exact ⟨l, Store.lt_of_bound hv, hsinks, hnot⟩
  choose! place hplace hsinks hswims using hlocs
  have hbound : ∀ {j}, j < n → (Value.ref (place j)).bound ≤ s.size := fun hj => by
    rw [Value.bound_ref]
    exact hplace _ hj
  have hdistinct : ∀ {i j}, i < j → j < n → place i ≠ place j := by
    intro i j hij hj heq
    refine hswims i (Nat.lt_trans hij hj) ?_
    rw [heq]
    exact (hsinks j hj).le hs (hbound hj) (Nat.succ_le_succ hij)
  have hinj : Set.InjOn place (Finset.range n) := by
    intro i hi j hj heq
    rcases Nat.lt_trichotomy i j with hij | hij | hij
    · exact absurd heq (hdistinct hij (Finset.mem_range.mp hj))
    · exact hij
    · exact absurd heq.symm (hdistinct hij (Finset.mem_range.mp hi))
  have hmaps : Set.MapsTo place (Finset.range n) (Finset.range s.size) := fun j hj =>
    Finset.mem_coe.mpr (Finset.mem_range.mpr (hplace j (Finset.mem_range.mp hj)))
  have hcard := Finset.card_le_card_of_injOn place hmaps hinj
  rw [Finset.card_range, Finset.card_range] at hcard
  exact Nat.lt_irrefl _ (Nat.lt_of_lt_of_le hn hcard)

/-- What comes to the bottom with a level for each object and one more does so with any number of them. -/
theorem Sinks.any (hs : s.Whole) (hv : v.bound ≤ s.size) (h : Sinks s (s.size + 1) v) (n : Nat) : Sinks s n v := by
  induction n with
  | zero => exact h.le hs hv (Nat.zero_le _)
  | succ n ih =>
    by_cases hn : n ≤ s.size
    · exact h.le hs hv (Nat.succ_le_succ hn)
    · have ⟨w, path, u, hw, hrun⟩ := ih
      have hruns : Agreed w.store w.store True Fact.Paired (exec (loadWithin (n + 1) v path) w)
          (exec (loadWithin n v path) w) :=
        loadsAlike_size hs (Nat.lt_of_not_le hn) ⟨hs, hw, hw⟩ hv (fun _ => rfl) w w (.refl _) (.refl _)
      rw [hrun] at hruns
      obtain ⟨u, hu⟩ := hruns.lost_of_lost
      exact ⟨w, path, u, hw, hu⟩

theorem exec_load (v : Value) (p : String) (w : World) :
    exec (Node.load v p) w = exec (loadWithin (w.store.size + 1) v p) w := rfl

section

variable {w w' u : World} {n : Nat}

/-- A node that is loaded is so with more levels, wherever the store has grown to, and at any path. -/
theorem exec_loadWithin_of_ok {f : Fact} (hs : w.store.Whole) (hv : v.bound ≤ w.store.size)
    (h : exec (Node.load v p) w = (.ok f, u)) (hn : w.store.size < n) (hw : w.store.Extends w'.store) (p' : String) :
    ∃ g u', exec (loadWithin n v p') w' = (.ok g, u') ∧ w'.store.Extends u'.store := by
  rw [exec_load] at h
  have hruns := agreed_loadWithin hn hs hv (.refl _) hw p p'
  rw [h] at hruns
  exact hruns.ok_right

/-- A node that is refused is so with more levels, wherever the store has grown to. -/
theorem exec_loadWithin_of_schema {q message : String} (hs : w.store.Whole) (hv : v.bound ≤ w.store.size)
    (h : exec (Node.load v p) w = (.error (.schema q message), u)) (hn : w.store.size < n)
    (hw : w.store.Extends w'.store) : ∃ u', exec (loadWithin n v p) w' = (.error (.schema q message), u') := by
  rw [exec_load] at h
  have hruns := agreed_loadWithin hn hs hv (.refl _) hw p p
  rw [h] at hruns
  exact hruns.error_right rfl nofun

/-- A level for each object and one more are enough to refuse a node. -/
theorem exec_load_of_schema {q message : String} (hs : w.store.Whole) (hv : v.bound ≤ w.store.size)
    (hn : w.store.size < n) (h : exec (loadWithin n v p) w = (.error (.schema q message), u)) :
    ∃ u', exec (Node.load v p) w = (.error (.schema q message), u') := by
  rw [exec_load]
  have hruns := agreed_loadWithin hn hs hv (.refl w.store) (.refl w.store) p p
  rw [h] at hruns
  generalize hless : exec (loadWithin (w.store.size + 1) v p) w = r at hruns
  cases hruns with
  | error h =>
    cases h with
    | refl => exact ⟨_, rfl⟩
    | schema h =>
      rw [h rfl]
      exact ⟨_, rfl⟩
  | lost =>
    have hsinks : Sinks w.store (w.store.size + 1) v := ⟨w, p, _, .refl _, hless⟩
    obtain ⟨u', hu'⟩ := (hsinks.any hs hv n).exec_eq hs hv (Nat.le_refl n) (.refl _) p
    cases h.symm.trans hu'

end

end Node

end Conform
