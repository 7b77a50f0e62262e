import Conform.Proofs.Focus
import Conform.Proofs.Grammar
import Conform.Proofs.Judging
import Conform.Proofs.Visiting

/-!
# Checks of values that have a bottom

A comparison goes down a limited number of levels. It has an answer, whatever the other value is, if one of the two
is shallower than that (`equalWithin?_isSome`). What a check compares is always a part of the checked value, with
something that the fact holds or with another part. So a check of a shallow value either reports, or it ends with
the fault of a value that does not fit the fact (`safe_check`). Counters that expect integers and accessors that
no one has brought from outside raise no other fault.
-/

namespace Conform

open Act

/-! ## Shallow values -/

/-- Whether a value is made of plain atoms, lists and mappings, on less than the given number of levels. -/
inductive Value.Shallow (s : Store) : Nat → Value → Prop
  | atom {n : Nat} {a : Atom} : a.owner? = none → Shallow s (n + 1) (.atom a)
  | list {n : Nat} {l : Loc} {xs : List Value} : s.get? l = some (.list xs) →
    (∀ x ∈ xs, Shallow s n x) → Shallow s (n + 1) (.ref l)
  | mapping {n : Nat} {l : Loc} {es : List (Value × Value)} : s.get? l = some (.mapping es) →
    (∀ e ∈ es, Shallow s n e.1) → (∀ e ∈ es, Shallow s n e.2) → Shallow s (n + 1) (.ref l)

namespace Value.Shallow

variable {s t : Store} {R : Set Place} {n m : Nat} {v : Value} {l : Loc}

theorem mono (h : v.Shallow s n) (hnm : n ≤ m) : v.Shallow s m := by
  induction h generalizing m with
  | atom ha =>
    obtain ⟨k, rfl⟩ := Nat.exists_eq_succ_of_ne_zero (Nat.ne_of_gt (Nat.lt_of_lt_of_le (Nat.succ_pos _) hnm))
    exact .atom ha
  | list hget _ ih =>
    obtain ⟨k, rfl⟩ := Nat.exists_eq_succ_of_ne_zero (Nat.ne_of_gt (Nat.lt_of_lt_of_le (Nat.succ_pos _) hnm))
    exact .list hget fun x hx => ih x hx (Nat.le_of_succ_le_succ hnm)
  | mapping hget _ _ ihk ihv =>
    obtain ⟨k, rfl⟩ := Nat.exists_eq_succ_of_ne_zero (Nat.ne_of_gt (Nat.lt_of_lt_of_le (Nat.succ_pos _) hnm))
    exact .mapping hget (fun e he => ihk e he (Nat.le_of_succ_le_succ hnm))
      fun e he => ihv e he (Nat.le_of_succ_le_succ hnm)

/-- A value is as shallow in a store that has the same objects where it leads to. -/
theorem of_same (h : v.Shallow s n) (hR : s.Closed R) (hv : v.Within R)
    (hsame : ∀ l, Place.object l ∈ R → t.get? l = s.get? l) : v.Shallow t n := by
  induction h with
  | atom ha => exact .atom ha
  | @list n l xs hget _ ih =>
    have hl := Value.within_ref.mp hv
    have hxs := Object.within_list.mp (hR.object hl hget)
    exact .list ((hsame l hl).trans hget) fun x hx => ih x hx (hxs x hx)
  | @mapping n l es hget _ _ ihk ihv =>
    have hl := Value.within_ref.mp hv
    have hes := Object.within_mapping.mp (hR.object hl hget)
    exact .mapping ((hsame l hl).trans hget) (fun e he => ihk e he (hes e he).1)
      fun e he => ihv e he (hes e he).2

theorem of_list (h : (Value.ref l).Shallow s (n + 1)) {xs : List Value} (hget : s.get? l = some (.list xs)) :
    ∀ x ∈ xs, x.Shallow s n := by
  cases h with
  | list hget' hxs =>
    cases hget.symm.trans hget'
    exact hxs
  | mapping hget' =>
    cases hget.symm.trans hget'

theorem of_mapping (h : (Value.ref l).Shallow s (n + 1)) {es : List (Value × Value)}
    (hget : s.get? l = some (.mapping es)) :
    (∀ e ∈ es, e.1.Shallow s n) ∧ ∀ e ∈ es, e.2.Shallow s n := by
  cases h with
  | list hget' =>
    cases hget.symm.trans hget'
  | mapping hget' hk hv =>
    cases hget.symm.trans hget'
    exact ⟨hk, hv⟩

end Value.Shallow

namespace Data

variable {s : Store}

theorem owner?_of_isScalar {a : Atom} (h : a.IsScalar) : a.owner? = none := by
  cases a with
  | null | bool | int | float | nan | text | bytes => rfl
  | _ => exact h.elim

theorem owner?_of_isLiteral {a : Atom} (h : a.IsLiteral) : a.owner? = none := by
  rcases h with h | ⟨o, rfl, ho⟩
  · exact owner?_of_isScalar h
  · simp [Atom.owner?, ho]

/-- A value that stands for a low tree is shallow. -/
theorem Low.shallow {d : Data} {n : Nat} (h : d.Low n) {v : Value} (hd : d.Stored s v) : v.Shallow s (n + 1) := by
  induction h generalizing v with
  | atom ha =>
    cases hd
    exact .atom (owner?_of_isScalar ha)
  | list _ ih =>
    obtain ⟨l, xs, rfl, hget, hxs⟩ := hd
    refine .list hget fun x hx => ?_
    obtain ⟨c, hc, hx⟩ := exists_of_forall₂_right (storedAll_iff.mp hxs) x hx
    exact ih c hc hx
  | mapping hkeys _ ih =>
    obtain ⟨l, fs, rfl, hget, hfs⟩ := hd
    have hentries := exists_of_forall₂_right (storedEntries_iff.mp hfs)
    refine .mapping hget (fun f hf => ?_) fun f hf => ?_
    · obtain ⟨e, he, hkey, -⟩ := hentries f hf
      obtain ⟨a, ha, hea⟩ := hkeys e he
      rw [hea] at hkey
      rw [show f.1 = .atom a from hkey]
      exact .atom (owner?_of_isScalar ha)
    · obtain ⟨e, he, -, hf⟩ := hentries f hf
      exact ih e he hf

end Data

namespace Store

variable {s : Store} {n : Nat} {v w : Value}

/-! ## Comparisons -/

/-- One of two values that are compared is shallow. -/
def Bottomed (s : Store) (n : Nat) (v w : Value) : Prop := v.Shallow s n ∨ w.Shallow s n

theorem alike?_isSome {equal? : Value → Value → Option Bool} (h : (equal? v w).isSome) :
    (alike? equal? v w).isSome := by
  unfold alike?
  split
  · rfl
  · exact h

/-- Sequences of which one has shallow items are compared to the end. -/
theorem allAlike?_isSome {equal? : Value → Value → Option Bool}
    (hequal : ∀ v w, s.Bottomed n v w → (equal? v w).isSome) : ∀ {vs ws : List Value},
    ((∀ v ∈ vs, v.Shallow s n) ∨ ∀ w ∈ ws, w.Shallow s n) → (allAlike? equal? vs ws).isSome
  | [], [], _ | [], _ :: _, _ | _ :: _, [], _ => rfl
  | v :: vs, w :: ws, h => by
    have hhead : (alike? equal? v w).isSome :=
      alike?_isSome (hequal v w (h.imp (fun h => h v (by simp)) fun h => h w (by simp)))
    have hrest := allAlike?_isSome hequal
      (h.imp (fun h x hx => h x (List.mem_cons_of_mem v hx)) fun h x hx => h x (List.mem_cons_of_mem w hx))
    obtain ⟨b, hb⟩ := Option.isSome_iff_exists.mp hhead
    show ((alike? equal? v w).bind fun b => if b = true then allAlike? equal? vs ws else some false).isSome
    rw [hb, Option.bind_some]
    split
    · exact hrest
    · rfl

/-- Mappings of which one has shallow values are compared to the end. -/
theorem entriesAlike?_isSome {equal? : Value → Value → Option Bool} {fs : List (Value × Value)}
    (hequal : ∀ v w, s.Bottomed n v w → (equal? v w).isSome) : ∀ {es : List (Value × Value)},
    ((∀ e ∈ es, e.2.Shallow s n) ∨ ∀ e ∈ fs, e.2.Shallow s n) → (s.entriesAlike? equal? fs es).isSome
  | [], _ => rfl
  | (k, v) :: es, h => by
    have hrest : (s.entriesAlike? equal? fs es).isSome :=
      entriesAlike?_isSome hequal (h.imp_left fun h e he => h e (by simp [he]))
    rw [entriesAlike?]
    cases hlookup : s.lookup fs (s.view k) with
    | none => rfl
    | some w =>
      have hw : ∃ e ∈ fs, e.2 = w := by
        rw [lookup, Option.map_eq_some_iff] at hlookup
        obtain ⟨e, hfind, rfl⟩ := hlookup
        exact ⟨e, List.mem_of_find?_eq_some hfind, rfl⟩
      obtain ⟨e, he, rfl⟩ := hw
      have hhead : (alike? equal? v e.2).isSome :=
        alike?_isSome (hequal v e.2 (h.imp (fun h => h (k, v) (by simp)) fun h => h e he))
      obtain ⟨b, hb⟩ := Option.isSome_iff_exists.mp hhead
      show ((alike? equal? v e.2).bind fun b =>
        if b = true then s.entriesAlike? equal? fs es else some false).isSome
      rw [hb, Option.bind_some]
      split
      · exact hrest
      · rfl

/-- A comparison has an answer if one of the values has fewer levels than are gone down. -/
theorem equalWithin?_isSome (h : s.Bottomed n v w) : (s.equalWithin? n v w).isSome := by
  induction n generalizing v w with
  | zero => rcases h with h | h <;> cases h
  | succ n ih =>
    have hbelow : ∀ v w, s.Bottomed n v w → (s.equalWithin? n v w).isSome := fun _ _ hvw => ih hvw
    cases v with
    | ref l =>
      cases w with
      | ref m =>
        rw [equalWithin?]
        split
        · next vs ws hvs hws =>
          split
          · exact allAlike?_isSome hbelow (h.imp (fun h => h.of_list hvs) fun h => h.of_list hws)
          · rfl
        · next es fs hes hfs =>
          split
          · exact entriesAlike?_isSome hbelow
              (h.imp (fun h => (h.of_mapping hes).2) fun h => (h.of_mapping hfs).2)
          · rfl
        · -- a shallow value is no record
          next c vs _ d ws _ hvs hws =>
          rcases h with h | h
          · cases h with
            | list hget | mapping hget => cases hvs.symm.trans hget
          · cases h with
            | list hget | mapping hget => cases hws.symm.trans hget
        · rfl
      | _ => rfl
    | atom a => cases w <;> rfl
    | set vs => cases w <;> rfl
    | tuple c vs =>
      cases w with
      | tuple => rcases h with h | h <;> cases h
      | _ => rfl
    | frozen c vs =>
      cases w with
      | frozen => rcases h with h | h <;> cases h
      | _ => rfl

theorem equal?_isSome (h : s.Bottomed deepest v w) : (s.equal? v w).isSome := equalWithin?_isSome h

theorem isIn?_isSome (h : v.Shallow s deepest) (ws : List Value) : (s.isIn? v ws).isSome := by
  induction ws with
  | nil => rfl
  | cons w ws ih =>
    obtain ⟨b, hb⟩ := Option.isSome_iff_exists.mp (alike?_isSome (equal?_isSome (.inr h : s.Bottomed deepest w v)))
    show ((alike? s.equal? w v).bind fun b => if b = true then some true else s.isIn? v ws).isSome
    rw [hb, Option.bind_some]
    split
    · rfl
    · exact ih

end Store

/-! ## Parts -/

namespace Value.Shallow

variable {s : Store} {n : Nat} {v x : Value} {a : Accessor} {c : Atom} {name : String}

/-- An atom that is shallow is plain. -/
theorem plain (h : (Value.atom c).Shallow s n) : c.owner? = none := by
  cases h with
  | atom hc => exact hc

/-- Any plain atom is as shallow as another value. -/
theorem of_plain (h : v.Shallow s n) (hc : c.owner? = none) : (Value.atom c).Shallow s n := by
  cases h <;> exact .atom hc

/-- The elements of a shallow value are as shallow. -/
theorem elements (h : v.Shallow s n) {xs : List Value} (hxs : s.elements? v = some xs) :
    ∀ x ∈ xs, x.Shallow s n := by
  intro x hx
  cases h with
  | @atom n c hc =>
    cases c with
    | text t =>
      cases hxs
      obtain ⟨k, -, rfl⟩ := List.mem_map.mp hx
      exact .atom rfl
    | bytes bs =>
      cases hxs
      obtain ⟨k, -, rfl⟩ := List.mem_map.mp hx
      exact .atom rfl
    | enumeration cls => cases hc
    | _ => cases hxs
  | list hget hall =>
    simp only [Store.elements?, hget, Option.some.injEq] at hxs
    subst hxs
    exact (hall x hx).mono (Nat.le_succ _)
  | mapping hget hkeys =>
    simp only [Store.elements?, hget, Option.some.injEq] at hxs
    subst hxs
    obtain ⟨e, he, rfl⟩ := List.mem_map.mp hx
    exact (hkeys e he).mono (Nat.le_succ _)

end Value.Shallow

namespace Accessor

variable {s : Store} {n : Nat} {v x : Value} {a : Accessor} {c : Atom} {name : String}

/-- Whether an accessor is one of the library, not one that brings its own reading and writing. -/
def IsNative : Accessor → Prop
  | .custom _ _ _ => False
  | _ => True

/-- What the library does not read is missing, or the value does not admit such parts. -/
theorem get_fault {e : Fault} (ha : a.IsNative) (h : a.get s v = .error e) :
    isMissing e = true ∨ e = .misuse .unsupported := by
  cases a with
  | attr n =>
    refine .inl ?_
    simp only [get, getAttribute, found] at h
    repeat' split at h
    all_goals
      cases h
      try rfl
  | item shown key =>
    simp only [get, getItem, pick, foundUnder] at h
    repeat' split at h
    all_goals
      cases h
      try first | exact .inl rfl | exact .inr rfl
  | optionalAttr n =>
    simp only [get, getOptional] at h
    split at h <;> cases h
  | variant cls => cases h
  | custom n get set => exact ha.elim

/-- The parts of a number are numbers. -/
theorem numberAttributes_plain (c : Atom) : ∀ e ∈ numberAttributes c, ∃ b, e.2 = .atom b ∧ b.owner? = none := by
  intro e he
  unfold numberAttributes at he
  split at he
  · next hfloat =>
    have hc : c.owner? = none := by
      cases c with
      | float x | nan m => rfl
      | _ => cases hfloat
    simp only [List.mem_cons, List.not_mem_nil, or_false] at he
    rcases he with rfl | rfl
    · exact ⟨c, rfl, hc⟩
    · exact ⟨_, rfl, rfl⟩
  · cases hk : c.integer? with
    | none =>
      rw [hk] at he
      cases he
    | some k =>
      rw [hk] at he
      simp only [Option.map_some, Option.getD_some, integerAttributes, List.mem_cons, List.not_mem_nil,
        or_false] at he
      rcases he with rfl | rfl | rfl | rfl <;> exact ⟨_, rfl, rfl⟩

/-- The attributes of plain atoms are plain atoms. -/
theorem atomAttribute?_isPlain (ho : s.Owned) (hc : c.owner? = none) (h : atomAttribute? s c name = some x) :
    ∃ b, x = .atom b ∧ b.owner? = none := by
  simp only [atomAttribute?, given?_plain ho hc, Option.or_none, Option.or_eq_some_iff] at h
  rcases h with hfixed | ⟨-, hown⟩
  · have hlookup : (numberAttributes c).lookup name = some x := by
      cases c with
      | member cls i | enumeration cls => cases hc
      | _ => exact hfixed
    obtain ⟨e, he, rfl⟩ := mem_of_lookup hlookup
    exact numberAttributes_plain c e he
  · obtain ⟨b, rfl, hb⟩ := ownAttribute?_inherent hown
    exact ⟨b, rfl, owner?_of_inherent hb⟩

end Accessor

namespace Value.Shallow

variable {s : Store} {n : Nat} {v x : Value} {a : Accessor} {l : Loc} {name : String}

theorem lookup {es : List (Value × Value)} (h : (Value.ref l).Shallow s n) (hget : s.get? l = some (.mapping es))
    {key : Data} (hx : s.lookup es key = some x) : x.Shallow s n := by
  obtain ⟨e, he, rfl⟩ := Option.map_eq_some_iff.mp hx
  cases n with
  | zero => cases h
  | succ n => exact ((h.of_mapping hget).2 e (List.mem_of_find?_eq_some he)).mono (Nat.le_succ n)

theorem getAttribute (h : v.Shallow s n) (ho : s.Owned) (hget : Accessor.getAttribute s v name = .ok x) :
    x.Shallow s n := by
  cases v with
  | atom c =>
    obtain ⟨b, rfl, hb⟩ := Accessor.atomAttribute?_isPlain ho h.plain (Accessor.eq_some_of_found hget)
    exact h.of_plain hb
  | ref l =>
    have hshallow := h
    cases h with
    | list hlist =>
      simp only [Accessor.getAttribute, hlist] at hget
      obtain ⟨b, rfl, hb⟩ := inherited?_inherent (Accessor.eq_some_of_found hget)
      exact hshallow.of_plain (Accessor.owner?_of_inherent hb)
    | mapping hmapping =>
      simp only [Accessor.getAttribute, hmapping] at hget
      exact hshallow.lookup hmapping (Accessor.eq_some_of_found hget)
  | _ => cases h

theorem pick {xs : List Value} {key : Value} (h : v.Shallow s n) (hxs : s.elements? v = some xs)
    (hx : Accessor.pick xs key = .ok x) : x.Shallow s n := by
  unfold Accessor.pick at hx
  split at hx
  · cases hx
  · split at hx
    · next j _ =>
      cases hx
      cases hj : xs[j]? with
      | none => exact h.of_plain rfl
      | some y => exact h.elements hxs y (List.mem_of_getElem? hj)
    · cases hx

theorem getItem {key : Value} (h : v.Shallow s n) (hget : Accessor.getItem s v key = .ok x) : x.Shallow s n := by
  cases v with
  | atom c =>
    cases c with
    | text t => exact h.pick (v := .atom (.text t)) rfl hget
    | bytes bs => exact h.pick (v := .atom (.bytes bs)) rfl hget
    | enumeration cls => cases h.plain
    | _ => cases hget
  | ref l =>
    have hshallow := h
    cases h with
    | list hlist =>
      simp only [Accessor.getItem, hlist] at hget
      exact hshallow.pick (by simp only [Store.elements?, hlist]) hget
    | mapping hmapping =>
      simp only [Accessor.getItem, hmapping] at hget
      exact hshallow.lookup hmapping (Accessor.foundUnder_ok hget)
  | _ => cases h

/-- The parts that the library reads of a shallow value are as shallow. -/
theorem get (h : v.Shallow s n) (ha : a.IsNative) (ho : s.Owned) (hget : a.get s v = .ok x) : x.Shallow s n := by
  cases a with
  | attr m => exact h.getAttribute ho hget
  | item shown key => exact h.getItem hget
  | optionalAttr m =>
    simp only [Accessor.get, Accessor.getOptional] at hget
    split at hget
    · next y hy =>
      cases hget
      split
      · exact h.of_plain rfl
      · exact h.getAttribute ho hy
    · cases hget
      exact h.of_plain rfl
  | variant cls =>
    cases hget
    split
    · exact h
    · exact h.of_plain rfl
  | custom m get set => exact ha.elim

end Value.Shallow

/-! ## Faults of checks -/

/-- Whether a fault says that an operation does not admit its operand, for its class or for its contents. -/
def Fault.IsMisfit (e : Fault) : Prop := e = .misuse .unsupported ∨ e = .misuse .invalid

namespace Act

variable {α β : Type} {w : World}

/-- Whether an action that is run in a world raises no fault but that of a misfit. -/
def Safe (w : World) (a : Act α) : Prop := ∀ e u, exec a w = (.error e, u) → e.IsMisfit

theorem safe_pure {x : α} : Safe w (pure x) := nofun

theorem safe_ask {f : Store → α} : Safe w (ask f) := nofun

theorem safe_unsupported : Safe w (misuse .unsupported : Act α) := by
  rintro e u ⟨⟩
  exact .inl rfl

theorem safe_invalid : Safe w (misuse .invalid : Act α) := by
  rintro e u ⟨⟩
  exact .inr rfl

/-- An action goes on in the world that its first part leaves. -/
theorem Safe.bind {a : Act α} {f : α → Act β} (ha : Safe w a)
    (hf : ∀ x u, exec a w = (.ok x, u) → Safe u (f x)) : Safe w (a >>= f) := by
  intro e u hrun
  rw [exec_bind] at hrun
  rcases hx : exec a w with ⟨e' | x, u'⟩
  · rw [hx] at hrun
    cases hrun
    exact ha e u hx
  · rw [hx] at hrun
    exact hf x u' hx e u hrun

/-- An action goes on in the same world after a quiet part. -/
theorem Safe.after {a : Act α} {f : α → Act β} (hquiet : a.Quiet) (ha : Safe w a)
    (hf : ∀ x, exec a w = (.ok x, w) → Safe w (f x)) : Safe w (a >>= f) := by
  refine ha.bind fun x u hx => ?_
  obtain rfl := hquiet.eq_of_exec hx
  exact hf x hx

/-- What ends with an answer is as safe as what comes before. -/
theorem Safe.map {a : Act α} (ha : Safe w a) (g : α → β) : Safe w (do return g (← a)) :=
  ha.bind fun _ _ _ => safe_pure

theorem safe_written {o : Option String} : Safe w (written o) := by
  cases o
  · exact safe_invalid
  · exact safe_pure

theorem safe_view {v : Value} : Safe w (view v) := safe_ask

theorem safe_render {v : Value} : Safe w (render v) := safe_view.after quiet_view fun _ _ => safe_written

theorem safe_display {v : Value} : Safe w (display v) := safe_view.after quiet_view fun _ _ => safe_written

theorem safe_decided {o : Option Bool} (h : o.isSome) : Safe w (decided o) := by
  obtain ⟨b, rfl⟩ := Option.isSome_iff_exists.mp h
  exact safe_pure

/-- A comparison is decided if one of the values is shallow. -/
theorem safe_equal {v x : Value} (h : w.store.Bottomed Store.deepest v x) : Safe w (equal v x) := by
  refine safe_ask.after quiet_ask fun o ho => safe_decided ?_
  cases ho
  exact Store.equal?_isSome h

theorem safe_isIn {v : Value} {xs : List Value} (h : v.Shallow w.store Store.deepest) : Safe w (isIn v xs) := by
  refine safe_ask.after quiet_ask fun o ho => safe_decided ?_
  cases ho
  exact Store.isIn?_isSome h xs

end Act

namespace Fact

variable {w : World} {v : Value}

theorem safe_reportUnless {ok : Bool} {message : Act String} (h : Safe w message) :
    Safe w (reportUnless ok message) := by
  unfold reportUnless
  split
  · exact safe_pure
  · exact h.map _

theorem safe_equalityReport {equal : Bool} {v x : Value} (h : w.store.Bottomed Store.deepest v x) :
    Safe w (equalityReport equal v x) := by
  refine (safe_equal h).after quiet_equal fun _ _ => safe_reportUnless ?_
  exact safe_render.after quiet_render fun _ _ => safe_render.map _

theorem safe_checkRange {c : Loc} {inside : Bool} : Safe w (checkRange c inside v) := by
  have hquiet : Quiet (do written (← ask (spanText · c)) : Act String) := quiet_ask.bind fun _ => quiet_written
  have hspan : Safe w (do written (← ask (spanText · c)) : Act String) :=
    safe_ask.after quiet_ask fun _ _ => safe_written
  refine safe_ask.after quiet_ask fun _ _ => safe_view.after quiet_view fun _ _ => ?_
  refine safe_ask.after quiet_ask fun _ _ => safe_view.after quiet_view fun _ _ => ?_
  refine safe_view.after quiet_view fun _ _ => ?_
  split
  · exact hspan.after hquiet fun _ _ => safe_render.map _
  · exact safe_reportUnless (safe_render.after quiet_render fun _ _ => hspan.map _)

theorem safe_elements : Safe w (elements v) := by
  refine safe_ask.after quiet_ask fun o _ => ?_
  cases o
  · exact safe_unsupported
  · exact safe_pure

theorem safe_items : Safe w (items v) := by
  refine safe_ask.after quiet_ask fun o _ => ?_
  split
  · exact safe_pure
  · exact safe_invalid
  · exact safe_unsupported

theorem safe_part? {a : Accessor} (ha : a.IsNative) : Safe w (part? a v) := by
  intro e u hrun
  rw [part?, exec_bind, exec_get] at hrun
  dsimp only at hrun
  split at hrun
  · cases hrun
  · next e' hget =>
    split at hrun
    · cases hrun
    · next hmissing =>
      cases hrun
      exact .inl ((Accessor.get_fault ha hget).resolve_left hmissing)

theorem safe_checkTest {name : String} {test : Data → Bool} : Safe w (checkTest name test v) :=
  safe_view.after quiet_view fun _ _ => safe_reportUnless (safe_render.map _)

theorem safe_checkMembership {c : Loc} (h : v.Shallow w.store Store.deepest) : Safe w (checkMembership c v) := by
  refine safe_ask.after quiet_ask fun _ _ => (safe_isIn h).after quiet_isIn fun _ _ => safe_reportUnless ?_
  refine safe_ask.after quiet_ask fun _ _ => safe_written.after quiet_written fun _ _ => safe_render.map _

theorem safe_checkCandidates {c : Loc} (h : v.Shallow w.store Store.deepest) : Safe w (checkCandidates c v) :=
  safe_ask.after quiet_ask fun _ _ => (safe_isIn h).after quiet_isIn fun _ _ =>
    safe_reportUnless (safe_render.map _)

theorem safe_checkLength {size : Int} : Safe w (checkLength size v) :=
  safe_elements.after quiet_elements fun _ _ => safe_reportUnless (safe_render.map _)

/-- What nodes must be for a check to be safe: none chooses its fact from the value, and all accessors are of the
library and read within a region. -/
structure Usable (R : Set Place) (ns : List Fact) (n : Fact) : Prop where
  mem : n ∈ ns
  direct : ∀ c name tests fs f, n ≠ .mapped c name tests fs f
  accessor : ∀ a ∈ n.accessor?, a.IsNative ∧ a.ReadsIn R

/-- Whether a shallow value lies where what nodes note does not reach it. -/
structure Placed (R : Set Place) (ns : List Fact) (s : Store) (v : Value) : Prop where
  sheltered : Sheltered R ns s
  within : v.Within R
  shallow : v.Shallow s Store.deepest

section

variable {α : Type} {R : Set Place} {ns : List Fact} {s : Store} {u : World} {x : Value} {f : Fact} {r : Report}

theorem Placed.of_moved {t : Store} (h : Placed R ns s v) (ht : Sheltered R ns t) (hmoved : MovedOn ns s t) :
    Placed R ns t v := by
  refine ⟨ht, h.within, h.shallow.of_same h.sheltered.region.closed h.within fun l hl => ?_⟩
  exact hmoved.same l fun hmem => h.sheltered.apart l hmem hl

/-- A value stays in its place while nodes note their visits. -/
theorem Placed.after_notes {a : Act α} {xs : List Visit} {y : α} (h : Placed R ns w.store v)
    (ha : Notes R ns w.store a xs) (hxs : VisitsOf ns xs) (hrun : exec a w = (.ok y, u)) :
    Placed R ns u.store v := by
  obtain rfl := ha w u y h.sheltered .refl hrun
  obtain ⟨hsheltered, hmoved⟩ := h.sheltered.foldl_advance hxs
  exact h.of_moved hsheltered hmoved

theorem Placed.after_check (h : Placed R ns w.store v) (hf : f.Formed) (hn : ∀ n ∈ f.nodes, n.Usable R ns)
    (hx : x.Within R) (hrun : exec (f.check x) w = (.ok r, u)) : Placed R ns u.store v := by
  have hmem : ∀ n ∈ f.nodes, n ∈ ns := fun n h => (hn n h).mem
  have hreads : f.ReadsIn R := fun n h a ha => ((hn n h).accessor a ha).2
  exact h.after_notes (notes_check h.sheltered hf hmem hreads hx) (visitsOf_visits hmem) hrun

theorem Placed.part {a : Accessor} (h : Placed R ns s v) (ha : a.IsNative ∧ a.ReadsIn R) (hx : a.get s v = .ok x) :
    Placed R ns s x where
  sheltered := h.sheltered
  within := ha.2.within h.sheltered.region.closed h.sheltered.owned h.within hx
  shallow := h.shallow.get ha.1 h.sheltered.owned hx

theorem Placed.element {xs : List Value} (h : Placed R ns s v) (hxs : s.elements? v = some xs) (hx : x ∈ xs) :
    Placed R ns s x where
  sheltered := h.sheltered
  within := Store.elements?_within h.sheltered.region.closed h.within hxs x hx
  shallow := h.shallow.elements hxs x hx

theorem safe_checkCounter {c : Loc} (hn : .counter c ∈ ns) (h : Placed R ns w.store v) :
    Safe w (checkCounter c v) := by
  have htake : Safe w (takeNext c) := by
    obtain ⟨a, b, k, hb, hget⟩ := h.sheltered.primed.counters _ hn rfl
    intro e u hrun
    rw [exec_takeNext (c := c) hb hget] at hrun
    cases hrun
  refine htake.bind fun expected u hrun => ?_
  have hvisits : VisitsOf ns [⟨c, v⟩] := by
    intro x hx
    rw [List.mem_singleton.mp hx]
    exact ⟨.counter c, hn, .inl rfl, rfl⟩
  have hplaced := h.after_notes (notes_takeNext hn) hvisits hrun
  refine (safe_equal (.inl hplaced.shallow)).after quiet_equal fun _ _ => safe_reportUnless ?_
  refine Safe.after quiet_ask safe_ask fun _ _ => Safe.after (quiet_view.bind fun _ => quiet_written) safe_display
    fun _ _ => ?_
  exact safe_render.after quiet_render fun _ _ => safe_render.map _

theorem safe_checkDistinct {c : Loc} {g : Option Generator} {attempts : Int} (hn : .distinct c g attempts ∈ ns)
    (h : Placed R ns w.store v) : Safe w (checkDistinct c v) := by
  have hremember : Safe w (remember c v) := by
    obtain ⟨l, xs, hget, hl⟩ := h.sheltered.primed.memories _ hn rfl
    intro e u hrun
    rw [exec_remember (c := c) hget hl] at hrun
    cases hrun
  refine safe_ask.after quiet_ask fun _ _ => (safe_isIn h.shallow).after quiet_isIn fun _ _ => ?_
  exact hremember.bind fun _ _ _ => safe_reportUnless (safe_render.map _)

/-- The elements of a sequence are checked one after the other, each where the ones before have left it. -/
theorem safe_checkElements (hf : f.Formed) (hn : ∀ n ∈ f.nodes, n.Usable R ns)
    (hcheck : ∀ {w : World} {x : Value}, Placed R ns w.store x → Safe w (f.check x)) :
    ∀ {xs : List Value} {i : Nat} {w : World}, (∀ x ∈ xs, Placed R ns w.store x) →
      Safe w (checkElements f.check i xs)
  | [], _, _, _ => safe_pure
  | x :: xs, i, w, h => by
    refine (hcheck (h x (by simp))).bind fun r u hrun => ?_
    refine (safe_checkElements hf hn hcheck fun y hy => ?_).map _
    exact (h y (by simp [hy])).after_check hf hn (h x (by simp)).within hrun

mutual

/-- The only fault of a check of a shallow value is that the value does not fit the fact. -/
theorem safe_check : ∀ {f : Fact} {v : Value} {w : World}, f.Formed → (∀ n ∈ f.nodes, n.Usable R ns) →
    Placed R ns w.store v → Safe w (f.check v)
  | .always _, _, _, _, _, _ | .never _ _, _, _, _, _, _ => safe_pure
  | .equality c _ _ _, v, w, _, _, h => safe_ask.after quiet_ask fun _ _ => safe_equalityReport (.inl h.shallow)
  | .membership c, v, w, _, _, h => safe_checkMembership h.shallow
  | .range c _, v, w, _, _, _ => safe_checkRange
  | .pair c _ _ _, v, w, _, _, h => by
    refine safe_items.after quiet_items fun r hr => ?_
    obtain ⟨a, b⟩ := r
    exact safe_equalityReport (.inl (h.shallow.elements (exec_items hr) a (by simp)))
  | .counter c, v, w, _, hn, h => safe_checkCounter (hn _ (self_mem_nodes _)).mem h
  | .distinct c _ _, v, w, _, hn, h => safe_checkDistinct (hn _ (self_mem_nodes _)).mem h
  | .all _ fs _ _, v, w, hf, hn, h => (safe_checkAll hf.2 (fun n hm => hn n (.tail _ hm)) h).map _
  | .either _ f g _, v, w, hf, hn, h => by
    have hleft : ∀ n ∈ f.nodes, n.Usable R ns := fun n hm => hn n (.tail _ (List.mem_append_left _ hm))
    have hright : ∀ n ∈ g.nodes, n.Usable R ns := fun n hm => hn n (.tail _ (List.mem_append_right _ hm))
    refine (safe_check hf.2.1 hleft h).bind fun r u hrun => ?_
    exact (safe_check hf.2.2 hright (h.after_check hf.2.1 hleft h.within hrun)).map _
  | .negation _ f _ _, v, w, hf, hn, h => by
    refine (safe_check hf.2 (fun n hm => hn n (.tail _ hm)) h).bind fun r u _ => safe_reportUnless ?_
    refine Safe.after quiet_described ?_ fun _ _ => safe_render.map _
    exact safe_ask.after quiet_ask fun _ _ => safe_written
  | .lens _ a f _, v, w, hf, hn, h => by
    have ha := (hn _ (self_mem_nodes _)).accessor a rfl
    refine (safe_part? ha.1).after quiet_part? fun o hpart => ?_
    rcases exec_part? hpart with ⟨x, rfl, hx⟩ | ⟨rfl, -⟩
    · exact (safe_check hf.2 (fun n hm => hn n (.tail _ hm)) (h.part ha hx)).map _
    · exact safe_pure
  | .prism _ a f _, v, w, hf, hn, h => by
    have ha := (hn _ (self_mem_nodes _)).accessor a rfl
    refine (safe_part? ha.1).after quiet_part? fun o hpart => ?_
    rcases exec_part? hpart with ⟨x, rfl, hx⟩ | ⟨rfl, -⟩
    · show Safe w (if x.isAbsent then _ else _)
      split
      · exact safe_pure
      · exact (safe_check hf.2 (fun n hm => hn n (.tail _ hm)) (h.part ha hx)).map _
    · exact safe_pure
  | .each _ f _, v, w, hf, hn, h => by
    have hbelow : ∀ n ∈ f.nodes, n.Usable R ns := fun n hm => hn n (.tail _ hm)
    refine safe_elements.after quiet_elements fun xs hxs => ?_
    refine (safe_checkElements hf.2 hbelow (safe_check hf.2 hbelow) fun x hx => ?_).map _
    exact h.element (exec_elements hxs) hx
  | .length c k _, v, w, _, _, _ => safe_checkLength
  | .mapped c name tests fs f, v, w, _, hn, _ => absurd rfl ((hn _ (self_mem_nodes _)).direct c name tests fs f)
  | .predicate _ _ _, v, w, _, _, _ | .brute _ _ _ _ _, v, w, _, _, _ => safe_checkTest
  | .choice c none _, v, w, _, _, h => safe_checkCandidates h.shallow
  | .choice c (some f) _, v, w, hf, hn, h =>
    (safe_checkCandidates h.shallow).after quiet_checkCandidates fun _ _ =>
      (safe_check hf.2 (fun n hm => hn n (.tail _ hm)) h).map _
  | .labeled _ _ f _, v, w, hf, hn, h => (safe_check hf.2 (fun n hm => hn n (.tail _ hm)) h).map _
  | .foreign _ _, _, _, hf, _, _ => hf.elim

theorem safe_checkAll : ∀ {fs : List Fact} {i : Nat} {v : Value} {w : World}, FormedAll fs →
    (∀ n ∈ nodesAll fs, n.Usable R ns) → Placed R ns w.store v → Safe w (checkAll fs i v)
  | [], _, _, _, _, _, _ => safe_pure
  | f :: fs, i, v, w, hf, hn, h => by
    have hhead : ∀ n ∈ f.nodes, n.Usable R ns := fun n hm => hn n (List.mem_append_left _ hm)
    refine (safe_check hf.1 hhead h).bind fun r u hrun => ?_
    refine (safe_checkAll hf.2 (fun n hm => hn n (List.mem_append_right _ hm)) ?_).map _
    exact h.after_check hf.1 hhead h.within hrun

end

end

end Fact

end Conform
