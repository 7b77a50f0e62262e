import Conform.Proofs.Immutable
import Conform.Proofs.Rebuilding

/-!
# Constants

A value that is immutable data without a NaN is compared without a look at any object. `Value.same` is what such a
comparison comes to (`Store.equal?_constant`); it is reflexive on constants (`Value.Constant.same_self`) and Euclidean
on all values (`Value.same_euclid`), and whatever is the same as a constant is one itself (`Value.Constant.of_same`).
-/

namespace Conform

namespace Value

/-- Whether a value is immutable data on at most the given number of levels, with no NaN and no stand-in for a missing
part in it. -/
def Constant : (levels : Nat) → Value → Prop
  | 0, _ => False
  | levels + 1, v =>
    match v with
    | .atom a => (∀ m, a ≠ .nan m) ∧ ∀ m, a ≠ .absent m
    | .tuple _ xs | .frozen _ xs => ∀ x ∈ xs, Constant levels x
    | .set _ | .ref _ => False

mutual

/-- Equality of contents of a value that refers to no object and another one. -/
def same : Value → Value → Bool
  | .atom a, .atom b => a.equal b
  | .tuple _ xs, .tuple _ ys => sameAll xs ys
  | .frozen c xs, .frozen d ys => c == d && sameAll xs ys
  | _, _ => false

/-- The same of two sequences. -/
def sameAll : List Value → List Value → Bool
  | [], [] => true
  | x :: xs, y :: ys => same x y && sameAll xs ys
  | _, _ => false

end

mutual

/-- Values that are the same as a third one are the same as each other. -/
theorem same_euclid : ∀ {x y z : Value}, same x y = true → same x z = true → same y z = true
  | .atom a, y, z, hy, hz => by
    cases y with
    | atom b =>
      cases z with
      | atom c =>
        rw [same] at hy hz ⊢
        exact Atom.equal_euclid hy hz
      | _ => simp [same] at hz
    | _ => simp [same] at hy
  | .tuple _ xs, y, z, hy, hz => by
    cases y with
    | tuple _ ys =>
      cases z with
      | tuple _ zs =>
        rw [same] at hy hz ⊢
        exact sameAll_euclid hy hz
      | _ => simp [same] at hz
    | _ => simp [same] at hy
  | .frozen c xs, y, z, hy, hz => by
    cases y with
    | frozen d ys =>
      cases z with
      | frozen e zs =>
        rw [same, Bool.and_eq_true, beq_iff_eq] at hy hz ⊢
        exact ⟨hy.1.symm.trans hz.1, sameAll_euclid hy.2 hz.2⟩
      | _ => simp [same] at hz
    | _ => simp [same] at hy
  | .set _, y, z, hy, _ => by simp [same] at hy
  | .ref _, y, z, hy, _ => by simp [same] at hy

theorem sameAll_euclid : ∀ {xs ys zs : List Value}, sameAll xs ys = true → sameAll xs zs = true →
    sameAll ys zs = true
  | [], ys, zs, hy, hz => by
    cases ys with
    | nil => exact hz
    | cons y ys => simp [sameAll] at hy
  | x :: xs, ys, zs, hy, hz => by
    cases ys with
    | nil => simp [sameAll] at hy
    | cons y ys =>
      cases zs with
      | nil => simp [sameAll] at hz
      | cons z zs =>
        rw [sameAll, Bool.and_eq_true] at hy hz ⊢
        exact ⟨same_euclid hy.1 hz.1, sameAll_euclid hy.2 hz.2⟩

end

namespace Constant

variable {levels : Nat} {x y : Value} {xs ys : List Value}

theorem sameAll_self (h : ∀ x ∈ xs, x.same x = true) : sameAll xs xs = true := by
  induction xs with
  | nil => simp [sameAll]
  | cons x xs ih =>
    rw [List.forall_mem_cons] at h
    rw [sameAll, h.1, ih h.2]
    rfl

theorem same_self (h : x.Constant levels) : x.same x = true := by
  induction levels generalizing x with
  | zero => exact h.elim
  | succ levels ih =>
    cases x with
    | atom a => rw [same, Atom.equal_self h.1]
    | tuple _ xs => rw [same, sameAll_self fun x hx => ih (h x hx)]
    | frozen c xs => rw [same, sameAll_self fun x hx => ih (h x hx), beq_self_eq_true, Bool.true_and]
    | set _ => exact h.elim
    | ref _ => exact h.elim

theorem same_comm (h : x.Constant levels) (hxy : x.same y = true) : y.same x = true := same_euclid hxy h.same_self

/-- Constants that are the same are the same as the same values. -/
theorem same_congr (hx : x.Constant levels) (hy : y.Constant levels) {z : Value} (hxz : x.same z = true) :
    y.same x = y.same z := by
  rw [Bool.eq_iff_iff]
  constructor
  · exact fun h => same_euclid (hy.same_comm h) hxz
  · exact fun h => same_euclid (same_euclid h hy.same_self) (hx.same_comm hxz)

theorem of_sameAll (ih : ∀ x y : Value, x.Constant levels → x.same y = true → y.Constant levels) :
    ∀ {xs ys : List Value}, (∀ x ∈ xs, x.Constant levels) → sameAll xs ys = true → ∀ y ∈ ys, y.Constant levels := by
  intro xs
  induction xs with
  | nil =>
    intro ys _ h
    cases ys with
    | nil => exact List.forall_mem_nil _
    | cons y ys => simp [sameAll] at h
  | cons x xs ihxs =>
    intro ys hxs h
    cases ys with
    | nil => exact List.forall_mem_nil _
    | cons y ys =>
      rw [List.forall_mem_cons] at hxs
      rw [sameAll, Bool.and_eq_true] at h
      exact List.forall_mem_cons.mpr ⟨ih x y hxs.1 h.1, ihxs hxs.2 h.2⟩

/-- An atom that equals another one that is no NaN is no NaN, and stands for a missing part only if the other does. -/
theorem of_equal {a b : Atom} (ha : ∀ m, a ≠ .absent m) (h : a.equal b = true) :
    (∀ m, b ≠ .nan m) ∧ ∀ m, b ≠ .absent m := by
  unfold Atom.equal at h
  constructor
  · rintro m rfl
    have hnan : (Atom.nan m).numeral? = some .nan := rfl
    rw [hnan] at h
    cases ha' : a.numeral? with
    | none =>
      rw [ha'] at h
      cases h
    | some n =>
      rw [ha'] at h
      dsimp only at h
      unfold Numeral.equal at h
      cases hn : n.rational? <;> rw [hn] at h <;> cases h
  · rintro m rfl
    have habsent : (Atom.absent m).numeral? = none := rfl
    rw [habsent] at h
    cases ha' : a.numeral? with
    | none =>
      rw [ha'] at h
      exact ha m (eq_of_beq h)
    | some n =>
      rw [ha'] at h
      cases h

/-- What is the same as a constant is a constant. -/
theorem of_same (h : x.Constant levels) (hxy : x.same y = true) : y.Constant levels := by
  induction levels generalizing x y with
  | zero => exact h.elim
  | succ levels ih =>
    cases x with
    | atom a =>
      cases y with
      | atom b =>
        rw [same] at hxy
        exact of_equal h.2 hxy
      | _ => simp [same] at hxy
    | tuple _ xs =>
      cases y with
      | tuple _ ys =>
        rw [same] at hxy
        exact of_sameAll (fun _ _ => ih) h hxy
      | _ => simp [same] at hxy
    | frozen c xs =>
      cases y with
      | frozen d ys =>
        rw [same, Bool.and_eq_true] at hxy
        exact of_sameAll (fun _ _ => ih) h hxy.2
      | _ => simp [same] at hxy
    | set _ => exact h.elim
    | ref _ => exact h.elim

/-- A constant is no object, and a copy leaves it as it is. -/
theorem bare (h : x.Constant levels) : x.Bare := by
  induction levels generalizing x with
  | zero => exact h.elim
  | succ levels ih =>
    cases x with
    | atom a =>
      cases a with
      | absent m => exact absurd rfl (h.2 m)
      | _ => exact ⟨rfl, rfl⟩
    | tuple _ xs =>
      obtain ⟨hrefs, hmarks⟩ := bare_all fun x hx => ih (h x hx)
      exact ⟨hrefs, hmarks⟩
    | frozen c xs =>
      obtain ⟨hrefs, hmarks⟩ := bare_all fun x hx => ih (h x hx)
      exact ⟨hrefs, hmarks⟩
    | set _ => exact h.elim
    | ref _ => exact h.elim

/-- A constant is the very same value as no other. -/
theorem isSame (h : x.Constant levels) (y : Value) : x.isSame y = false := by
  cases levels with
  | zero => exact h.elim
  | succ levels =>
    cases x with
    | atom a =>
      cases a with
      | nan m => exact absurd rfl (h.1 m)
      | _ => rfl
    | ref _ => exact h.elim
    | _ => rfl

end Constant

end Value

namespace Store

variable {s : Store} {levels : Nat} {x c : Value} {cs : List Value}

theorem alike?_constant {equal? : Value → Value → Option Bool} (h : c.Constant levels)
    (hequal : equal? c x = some (c.same x)) : alike? equal? c x = some (c.same x) := by
  rw [alike?, h.isSame x]
  exact hequal

theorem allAlike?_constant {equal? : Value → Value → Option Bool}
    (hequal : ∀ c x, c.Constant levels → equal? c x = some (c.same x)) : ∀ {cs xs : List Value},
    (∀ c ∈ cs, c.Constant levels) → allAlike? equal? cs xs = some (Value.sameAll cs xs) := by
  intro cs
  induction cs with
  | nil =>
    intro xs _
    cases xs <;> simp [allAlike?, Value.sameAll]
  | cons c cs ih =>
    intro xs h
    rw [List.forall_mem_cons] at h
    cases xs with
    | nil => simp [allAlike?, Value.sameAll]
    | cons x xs =>
      rw [allAlike?, alike?_constant h.1 (hequal c x h.1), Value.sameAll]
      cases hcx : c.same x with
      | true => exact ih h.2
      | false => rfl

/-- A constant is compared with any other value to the end, in whatever store. -/
theorem equalWithin?_constant (h : c.Constant levels) (x : Value) :
    s.equalWithin? levels c x = some (c.same x) := by
  induction levels generalizing c x with
  | zero => exact h.elim
  | succ levels ih =>
    -- by the constant: whatever it is compared with, the two differ in kind or their parts are compared
    cases c with
    | atom a => cases x <;> simp [equalWithin?, Value.same]
    | tuple _ cs =>
      cases x with
      | tuple _ xs =>
        rw [equalWithin?, Value.same]
        exact allAlike?_constant (fun _ _ h => ih h _) h
      | _ => simp [equalWithin?, Value.same]
    | frozen d cs =>
      cases x with
      | frozen e xs =>
        rw [equalWithin?, Value.same]
        by_cases hde : d = e
        · rw [if_pos hde, hde, beq_self_eq_true, Bool.true_and]
          exact allAlike?_constant (fun _ _ h => ih h _) h
        · rw [if_neg hde, beq_false_of_ne hde, Bool.false_and]
      | _ => simp [equalWithin?, Value.same]
    | set _ => exact h.elim
    | ref _ => exact h.elim

theorem equal?_constant (h : c.Constant deepest) : s.equal? c x = some (c.same x) := equalWithin?_constant h x

/-- Whether any value is one of several constants is found out without a look at an object. -/
theorem isIn?_constant (h : ∀ c ∈ cs, c.Constant deepest) : s.isIn? x cs = some (cs.any (·.same x)) := by
  induction cs with
  | nil => rfl
  | cons c cs ih =>
    rw [List.forall_mem_cons] at h
    rw [isIn?, alike?_constant h.1 (equal?_constant h.1), ih h.2, List.any_cons]
    cases c.same x <;> rfl

end Store

end Conform
