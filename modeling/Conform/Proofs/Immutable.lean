import Conform.Proofs.Drawing
import Conform.Proofs.Likeness

/-!
# Immutable values

A value that refers to no object reads the same in every store, and a copy leaves it as it is, unless it is a
stand-in for a missing part (`Value.Bare`). Values drawn of the shape of one that is immutable all the way down
are immutable too (`Draw.yields_arbitrary`).
-/

namespace Conform

open Act

/-- Whether a value is immutable data that a copy leaves as it is. -/
structure Value.Bare (v : Value) : Prop where
  refs : v.refs = []
  marks : v.absentMarks = []

/-- Whether the records of a class are immutable, and none of its defaults stands for a missing part. -/
def RecordClass.Immutable (cls : RecordClass) : Prop :=
  cls.keeping = .frozen ∧ ∀ f ∈ cls.fields, ∀ m, f.initial ≠ .absent m

namespace Value

mutual

/-- Whether a value is made of immutable data only, and no stand-in for a missing part is in it. -/
def Immutable : Value → Prop
  | .atom a => ∀ m, a ≠ .absent m
  | .tuple _ xs | .set xs => ImmutableAll xs
  | .frozen cls xs => cls.Immutable ∧ ImmutableAll xs
  | .ref _ => False

/-- Whether several values are immutable. -/
def ImmutableAll : List Value → Prop
  | [] => True
  | x :: xs => Immutable x ∧ ImmutableAll xs

end

theorem immutableAll_iff {xs : List Value} : ImmutableAll xs ↔ ∀ x ∈ xs, x.Immutable := by
  induction xs with
  | nil => simp [ImmutableAll]
  | cons x xs ih => simp [ImmutableAll, ih]

mutual

theorem Immutable.bare : ∀ {v : Value}, v.Immutable → v.Bare
  | .atom a, h => by
    cases a with
    | absent m => exact absurd rfl (h m)
    | _ => exact ⟨rfl, rfl⟩
  | .tuple _ xs, h | .set xs, h => by
    obtain ⟨hrefs, hmarks⟩ := ImmutableAll.bare (show ImmutableAll xs from h)
    exact ⟨by rw [refs, hrefs], by rw [absentMarks, hmarks]⟩
  | .frozen _ xs, h => by
    obtain ⟨hrefs, hmarks⟩ := ImmutableAll.bare (show ImmutableAll xs from h.2)
    exact ⟨by rw [refs, hrefs], by rw [absentMarks, hmarks]⟩
  | .ref _, h => h.elim

theorem ImmutableAll.bare : ∀ {xs : List Value}, ImmutableAll xs → refsAll xs = [] ∧ absentMarksAll xs = []
  | [], _ => ⟨rfl, rfl⟩
  | x :: xs, h => by
    obtain ⟨hrefs, hmarks⟩ := ImmutableAll.bare h.2
    exact ⟨by rw [refsAll, h.1.bare.refs, hrefs]; rfl, by rw [absentMarksAll, h.1.bare.marks, hmarks]; rfl⟩

end

theorem bare_of_integer {a : Atom} {k : Int} (h : a.integer? = some k) : (Value.atom a).Bare := by
  cases a with
  | absent m => cases h
  | _ => exact ⟨rfl, rfl⟩

theorem bare_all {xs : List Value} (h : ∀ x ∈ xs, x.Bare) : refsAll xs = [] ∧ absentMarksAll xs = [] := by
  induction xs with
  | nil => exact ⟨rfl, rfl⟩
  | cons x xs ih =>
    obtain ⟨hrefs, hmarks⟩ := ih fun y hy => h y (by simp [hy])
    exact ⟨by rw [refsAll, (h x (by simp)).refs, hrefs]; rfl,
      by rw [absentMarksAll, (h x (by simp)).marks, hmarks]; rfl⟩

theorem move_bare_all {xs : List Value} (r : Relocation) (h : ∀ x ∈ xs, x.Bare) : moveAll r xs = xs :=
  moveAll_bare xs (bare_all h).1 (bare_all h).2

/-- Whether a value is among others does not depend on the store, if none of them refers to anything. -/
theorem isIn?_of_refs {v : Value} {ws : List Value} (hv : v.refs = []) (hws : ∀ w ∈ ws, w.refs = []) {s : Store}
    (hs : s.Owned) (t : Store) : t.isIn? v ws = s.isIn? v ws := by
  have himage : Store.Image ⟨id, id⟩ ∅ False s t :=
    ⟨nofun, fun _ => rfl, nofun, nofun, hs, nofun⟩
  have hmove := himage.isIn?_move (refers_of_refs hv) fun w hw => refers_of_refs (hws w hw)
  rwa [move_id, List.map_congr_left (fun w _ => move_id w), List.map_id'] at hmove

end Value

/-! ## Drawing immutable values -/

namespace Act

variable {α β : Type} {P : α → Prop} {Q : β → Prop}

/-- Whether all that an action answers is as described. -/
def Yields (a : Act α) (P : α → Prop) : Prop := ∀ w x, (exec a w).1 = .ok x → P x

theorem yields_any {a : Act α} : Yields a fun _ => True := fun _ _ _ => trivial

theorem yields_pure {x : α} (h : P x) : Yields (pure x) P := by
  rintro w y ⟨⟩
  exact h

theorem yields_throw {e : Fault} : Yields (throw e : Act α) P := nofun

theorem yields_misuse {m : Misuse} : Yields (misuse m : Act α) P := nofun

theorem Yields.bind {a : Act α} {f : α → Act β} (ha : Yields a P) (hf : ∀ x, P x → Yields (f x) Q) :
    Yields (a >>= f) Q := by
  intro w y hy
  rw [exec_bind] at hy
  rcases hrun : exec a w with ⟨e | x, u⟩
  · rw [hrun] at hy
    cases hy
  · rw [hrun] at hy
    exact hf x (ha w x (by rw [hrun])) u y hy

theorem yields_then {a : Act α} {f : α → Act β} (hf : ∀ x, Yields (f x) Q) : Yields (a >>= f) Q :=
  yields_any.bind fun x _ => hf x

theorem yields_mapM {f : α → Act β} : ∀ {xs : List α}, (∀ x ∈ xs, Yields (f x) Q) →
    Yields (xs.mapM f) fun ys => ∀ y ∈ ys, Q y
  | [], _ => yields_pure nofun
  | x :: xs, h => by
    rw [List.mapM_cons]
    refine (h x (by simp)).bind fun y hy => ?_
    refine (yields_mapM fun z hz => h z (by simp [hz])).bind fun ys hys => yields_pure ?_
    simpa using ⟨hy, hys⟩

end Act

namespace Draw

open Value

theorem yields_number {n : Numeral} : Yields (number n) Immutable := by
  cases n with
  | nan =>
    rintro w x ⟨⟩
    exact nofun
  | _ => exact yields_pure nofun

theorem yields_floatInRange {low high : Value} (h : low.Immutable) :
    Yields (floatInRange low high) Immutable := by
  refine yields_then fun w => ?_
  split
  · exact yields_pure h
  · refine yields_then fun _ => ?_
    split
    · exact yields_then fun _ => yields_misuse
    · refine yields_then fun _ => yields_then fun _ => yields_then fun _ => yields_then fun _ => ?_
      exact yields_then fun _ => yields_then fun _ => yields_number

theorem yields_arbitraryAtom {a : Atom} : Yields (arbitraryAtom a) Immutable := by
  cases a with
  | null => exact yields_pure nofun
  | bool b => exact yields_then fun _ => yields_pure nofun
  | int n => exact yields_then fun _ => yields_pure nofun
  | float x => exact yields_floatInRange nofun
  | nan m => exact yields_floatInRange nofun
  | text t => exact yields_then fun _ => yields_pure nofun
  | bytes bs => exact yields_then fun _ => yields_pure nofun
  | member cls i => exact yields_then fun _ => yields_pure nofun
  | sealed cls => exact yields_throw
  | enumeration cls => exact yields_throw
  | absent m => exact yields_throw

theorem yields_likeFields {like : Value → Act Value} : ∀ {fs : List Field} {xs : List Value},
    (∀ f ∈ fs, ∀ m, f.initial ≠ .absent m) → (∀ x ∈ xs, Yields (like x) Immutable) →
      Yields (likeFields like fs xs) fun ys => ∀ y ∈ ys, y.Immutable
  | [], _, _, _ => yields_pure nofun
  | _ :: _, [], _, _ => yields_pure nofun
  | f :: fs, x :: xs, hfs, hxs => by
    have hrest : ∀ v : Value, v.Immutable →
        Yields (do return v :: (← likeFields like fs xs)) fun ys => ∀ y ∈ ys, Immutable y := by
      intro v hv
      refine (yields_likeFields (fun g hg => hfs g (by simp [hg])) fun y hy => hxs y (by simp [hy])).bind ?_
      intro ys hys
      refine yields_pure ?_
      simpa using ⟨hv, hys⟩
    rw [likeFields]
    split
    · exact (hxs x (by simp)).bind hrest
    · exact (yields_pure (hfs f (by simp))).bind hrest

theorem yields_likeWithin (levels : Nat) : ∀ v : Value, v.Immutable → Yields (likeWithin levels v) Immutable := by
  induction levels with
  | zero => exact fun _ _ => yields_misuse
  | succ levels ih =>
    intro v hv
    cases v with
    | atom a => exact yields_arbitraryAtom
    | tuple cls xs =>
      refine (yields_mapM fun x hx => ih x (immutableAll_iff.mp hv x hx)).bind fun ys hys => ?_
      exact yields_pure (immutableAll_iff.mpr hys)
    | set xs => exact yields_throw
    | frozen cls xs =>
      refine (yields_likeFields hv.1.2 fun x hx => ih x (immutableAll_iff.mp hv.2 x hx)).bind fun ys hys => ?_
      rw [newRecord, hv.1.1]
      exact yields_pure ⟨hv.1, immutableAll_iff.mpr hys⟩
    | ref l => exact hv.elim

/-- What is drawn of the shape of an immutable value is immutable. -/
theorem yields_arbitrary {v : Value} (h : v.Immutable) : Yields (arbitrary v) Immutable := by
  refine yields_then fun w => ?_
  split
  · exact yields_pure h
  · exact yields_likeWithin _ v h

theorem yields_floatInRange_present {low high : Value} (h : low.isNull = false) :
    Yields (floatInRange low high) fun y => y.isNull = false := by
  refine yields_then fun w => ?_
  split
  · exact yields_pure h
  · refine yields_then fun _ => ?_
    split
    · exact yields_then fun _ => yields_misuse
    · refine yields_then fun _ => yields_then fun _ => yields_then fun _ => yields_then fun n => ?_
      refine yields_then fun _ => yields_then fun m => ?_
      cases m with
      | nan =>
        rintro w x ⟨⟩
        rfl
      | _ => exact yields_pure rfl

/-- The empty value is drawn of the shape of the empty value only. -/
theorem yields_arbitrary_present {v : Value} (h : v.Immutable) (hv : v.isNull = false) :
    Yields (arbitrary v) fun y => y.isNull = false := by
  refine yields_then fun w => ?_
  split
  · exact yields_pure hv
  · unfold deepest
    cases v with
    | atom a =>
      cases a with
      | null => cases hv
      | bool b => exact yields_then fun _ => yields_pure rfl
      | int n => exact yields_then fun _ => yields_pure rfl
      | float x => exact yields_floatInRange_present rfl
      | nan m => exact yields_floatInRange_present rfl
      | text t => exact yields_then fun _ => yields_pure rfl
      | bytes bs => exact yields_then fun _ => yields_pure rfl
      | member cls i => exact yields_then fun _ => yields_pure rfl
      | sealed cls => exact yields_throw
      | enumeration cls => exact yields_throw
      | absent m => exact yields_throw
    | tuple cls xs => exact yields_then fun _ => yields_pure rfl
    | set xs => exact yields_throw
    | frozen cls xs =>
      refine yields_then fun ys => ?_
      rw [newRecord, h.1.1]
      exact yields_pure rfl
    | ref l => exact h.elim

end Draw

end Conform
