import Conform.Proofs.Verdict

/-!
# Leaves and the values that pass them

A leaf answers a value that passes its check, and draws nothing for it (`Fact.mutate_passing`). The answer equals the
value as it was before (`Remains`): it is the value itself, or what an equality or a counter found it equal to. Of the
objects only what a counter or a distinct fact notes down changes, and a list of two equal items, which gets the second
of them twice. A tuple of two items is made anew from them.

The ends of a range have to be numbers, or else the upper one must not be below the lower one, and a pair has to be a
list or a tuple: of every other pair a tuple is made.
-/

namespace Conform

open Act

/-! ## Numbers in order -/

/-- Numbers below each other in turn are below each other, all of them being compared by their exact values. -/
theorem Exact.less_eq_false_trans {a b c : Exact} (hba : b.less a = false) (hcb : c.less b = false) :
    c.less a = false := by
  cases a with
  | infinite p => cases b <;> cases c <;> cases p <;> simp_all [Exact.less]
  | finite x s =>
    cases c with
    | infinite r => cases b <;> cases r <;> simp_all [Exact.less]
    | finite z t =>
      cases b with
      | infinite q => cases q <;> simp_all [Exact.less]
      | finite y k =>
        simp only [Exact.less, decide_eq_false_iff_not, Int.not_lt] at hba hcb ⊢
        have hk : (0 : Int) < twoTo k := Int.natCast_pos.mpr (twoTo_pos k)
        have hs : (0 : Int) ≤ twoTo s := Int.natCast_nonneg _
        have ht : (0 : Int) ≤ twoTo t := Int.natCast_nonneg _
        refine Int.le_of_mul_le_mul_right ?_ hk
        calc x * twoTo t * twoTo k = x * twoTo k * twoTo t := Int.mul_right_comm ..
          _ ≤ y * twoTo s * twoTo t := Int.mul_le_mul_of_nonneg_right hba ht
          _ = y * twoTo t * twoTo s := Int.mul_right_comm ..
          _ ≤ z * twoTo k * twoTo s := Int.mul_le_mul_of_nonneg_right hcb hs
          _ = z * twoTo s * twoTo k := Int.mul_right_comm ..

/-- Whether an atom can be an end of a range: a number that is no NaN. -/
def Atom.IsBound : Atom → Prop
  | .bool _ | .int _ | .float _ => True
  | _ => False

theorem Atom.IsBound.exact {a : Atom} (h : a.IsBound) :
    ∃ m e, a.numeral? = some m ∧ m.rational? = some e ∧ a.className ≠ "NoneType" := by
  cases a with
  | bool b => exact ⟨_, _, rfl, rfl, by simp [Atom.className]⟩
  | int n => exact ⟨_, _, rfl, rfl, by simp [Atom.className]⟩
  | float x => exact ⟨_, _, rfl, rfl, by simp [Atom.className]⟩
  | _ => exact h.elim

/-- What is compared with a number is one. -/
theorem Data.exists_numeral_of_atomLess? {a b : Atom} {less : Bool} (h : Data.atomLess? a b = some less)
    (hbound : a.IsBound ∨ b.IsBound) : ∃ m n, a.numeral? = some m ∧ b.numeral? = some n ∧ m.less n = less := by
  unfold Data.atomLess? at h
  split at h
  · rcases hbound with h | h <;> exact h.elim
  · rcases hbound with h | h <;> exact h.elim
  · split at h
    · next m n hm hn => exact ⟨m, n, hm, hn, Option.some.inj h⟩
    · cases h

theorem Data.atomLess?_numeral {a b : Atom} {m n : Numeral} (hm : a.numeral? = some m) (hn : b.numeral? = some n) :
    Data.atomLess? a b = some (m.less n) := by
  unfold Data.atomLess?
  split
  · cases hm
  · cases hm
  · rw [hm, hn]

/-- A number that does not differ from itself has an exact value. -/
theorem Numeral.exact_of_not_isNaN {a : Atom} {m : Numeral} (hm : a.numeral? = some m)
    (h : ¬ (Data.atom a).isNaN = true) : ∃ e, m.rational? = some e := by
  cases m with
  | int n => exact ⟨_, rfl⟩
  | float x => exact ⟨_, rfl⟩
  | nan =>
    refine absurd ?_ h
    rw [Data.isNaN, Data.equal, Atom.equal, hm]
    rfl

/-- A range of numbers that something lies in is not empty. -/
theorem Range.less?_of_contains {a b : Atom} {d : Data} (ha : a.IsBound) (hb : b.IsBound)
    (h : Range.contains (.atom a) (.atom b) d = some true) : (Data.atom b).less? (.atom a) = some false := by
  obtain ⟨low, l, hlow, hl, hnamed⟩ := ha.exact
  obtain ⟨high, r, hhigh, hr, hnamed'⟩ := hb.exact
  have hopen : ((Data.atom a).className == "NoneType") = false := beq_false_of_ne hnamed
  have hopen' : ((Data.atom b).className == "NoneType") = false := beq_false_of_ne hnamed'
  simp only [Range.contains, hopen, hopen', Bool.false_eq_true, if_false] at h
  split at h
  · cases h
  · next hnan =>
    split at h
    · cases h
    · cases h
    · next hbelow =>
      split at h
      · cases h
      · next above habove =>
        cases d with
        | atom e =>
          obtain rfl : above = false := by simpa using h
          obtain ⟨k, low', hk, hlow', hless⟩ := Data.exists_numeral_of_atomLess? hbelow (.inr ha)
          obtain ⟨high', k', hhigh', hk', hless'⟩ := Data.exists_numeral_of_atomLess? habove (.inl hb)
          cases hlow.symm.trans hlow'
          cases hhigh.symm.trans hhigh'
          cases hk.symm.trans hk'
          obtain ⟨x, hx⟩ := Numeral.exact_of_not_isNaN hk hnan
          simp only [Numeral.less, hl, hr, hx] at hless hless'
          show Data.atomLess? b a = some false
          rw [Data.atomLess?_numeral hhigh hlow, Numeral.less, hl, hr]
          exact congrArg some (Exact.less_eq_false_trans hless hless')
        | _ => cases hbelow

/-! ## Leaving values alone -/

/-- Whether a value can stand for another one in a store: it is that value, or one that it equals. -/
def StandsFor (s : Store) (v y : Value) : Prop := y = v ∨ s.equal? v y = some true

/-- Whether the parts of one sequence can stand for those of another, one by one. -/
def StandFor (s : Store) (xs ys : List Value) : Prop := List.Forall₂ (StandsFor s) xs ys

/-- Whether a value is left as it was between two stores, a value being what is left of it. What is left is the value,
or stood for it before, or is a tuple whose parts did. All objects but the given ones are the same, unless the value
itself is a list whose items now are such that stood for its items before. No attributes have been given to anything. -/
structure Remains (noted : List Loc) (s t : Store) (v y : Value) : Prop where
  answer : StandsFor s v y ∨ ∃ cls xs ys, v = .tuple cls xs ∧ y = .tuple cls ys ∧ StandFor s xs ys
  objects : ∀ l ∉ noted, t.get? l = s.get? l ∨
    ∃ xs ys, v = .ref l ∧ s.get? l = some (.list xs) ∧ t.get? l = some (.list ys) ∧ StandFor s xs ys
  given : t.given = s.given

/-- Whether an action answers a value as it was before, and draws nothing. -/
def Spares (noted : List Loc) (w : World) (v : Value) (a : Act Value) : Prop :=
  ∃ y u, exec a w = (.ok y, u) ∧ u.source = w.source ∧ Remains noted w.store u.store v y

theorem StandsFor.refl (s : Store) (v : Value) : StandsFor s v v := .inl rfl

theorem Remains.of_answer {noted : List Loc} {s : Store} {v y : Value} (h : StandsFor s v y) :
    Remains noted s s v y := ⟨.inl h, fun _ _ => .inl rfl, rfl⟩

theorem Remains.of_objects {noted : List Loc} {s t : Store} {v y : Value} (h : StandsFor s v y)
    (hobjects : ∀ l ∉ noted, t.get? l = s.get? l) (hgiven : t.given = s.given) : Remains noted s t v y :=
  ⟨.inl h, fun l hl => .inl (hobjects l hl), hgiven⟩

namespace Fact

section

variable {α : Type} {w u : World} {v : Value} {c : Loc} {r : Report} {fact : Fact} {g : Option Generator} {n : Int}
  {noted : List Loc}

theorem spares_pure : Spares noted w v (pure v) := ⟨v, w, rfl, rfl, .of_answer (.refl ..)⟩

/-- What answers the value and changes nothing. -/
theorem spares_of_exec {a : Act Value} (h : exec a w = (.ok v, w)) : Spares noted w v a :=
  ⟨v, w, h, rfl, .of_answer (.refl ..)⟩

theorem exec_isIn_some {xs : List Value} {b : Bool} (h : w.store.isIn? v xs = some b) :
    exec (Act.isIn v xs) w = (.ok b, w) := by
  rw [Act.isIn, exec_bind, exec_ask, h]
  rfl

/-- A search draws nothing if it may start from an acceptable value. -/
theorem exec_run {accept : Value → Act Bool} {draw : Value → Act Value} {k : Nat}
    (h : exec (accept v) w = (.ok true, w)) : exec (Search.run accept draw k v) w = (.ok (some v), w) := by
  rw [Search.run, exec_bind, h]
  rfl

/-- What comes before an action, if it answers. -/
theorem exec_after {β : Type} {a : Act α} {k : α → Act β} {x : α} (h : exec a w = (.ok x, u)) :
    exec (a >>= k) w = exec (k x) u := by
  rw [exec_bind, h]

theorem exec_mutateDifferent (h : w.store.equal? v (w.store.slot c 0) = some false) :
    exec (mutateDifferent fact c g n v) w = (.ok v, w) := by
  have haccept : exec (do return !(← Act.equal v (w.store.slot c 0)) : Act Bool) w = (.ok true, w) := by
    rw [exec_bind, exec_equal h]
    rfl
  exact (exec_after (exec_ask _ w)).trans (exec_after (exec_run haccept))

theorem exec_mutateMembership (h : w.store.isIn? v (w.store.slots c) = some true) :
    exec (mutateMembership fact c v) w = (.ok v, w) :=
  (exec_after (exec_ask _ w)).trans (exec_after (exec_isIn_some h))

theorem exec_mutateOutside (h : exec (checkRange c false v) w = (.ok r, w)) (hr : r.ok = true) :
    exec (mutateOutside fact c v) w = (.ok v, w) := by
  refine (exec_after h).trans ?_
  rw [if_pos hr]
  rfl

/-! ### Ranges -/

/-- Whether a value can stand for an end of a range: nothing, if the range is open there, or a number. -/
def IsEnd (v : Value) : Prop := v = .null ∨ ∃ a : Atom, a.IsBound ∧ v = .atom a

/-- Whether the upper end of a range with two ends is not below the lower one. -/
def Upright (s : Store) (low high : Value) : Prop :=
  low.isNull = false → high.isNull = false → (s.view high).less? (s.view low) = some false

/-- A range of numbers that something lies in is upright. -/
theorem upright_of_contains {s : Store} {low high : Value} {d : Data} (hlow : IsEnd low) (hhigh : IsEnd high)
    (h : Range.contains (s.view low) (s.view high) d = some true) : Upright s low high := by
  intro hclosed hclosed'
  rcases hlow with rfl | ⟨a, ha, rfl⟩
  · cases hclosed
  rcases hhigh with rfl | ⟨b, hb, rfl⟩
  · cases hclosed'
  exact Range.less?_of_contains ha hb h

/-- In an upright range the value is looked at first. -/
theorem exec_mutateInside (hends : Upright w.store (w.store.slot c 0) (w.store.slot c 1))
    (h : exec (checkRange c true v) w = (.ok r, w)) (hr : r.ok = true) :
    exec (mutateInside fact c v) w = (.ok v, w) := by
  have hrest : exec (do
      if (← checkRange c true v).ok then return v
      let floating ← anyFloat [w.store.slot c 0, w.store.slot c 1, v]
      drawBetween (← fillEnds (w.store.slot c 0) (w.store.slot c 1) floating) floating : Act Value) w =
        (.ok v, w) := by
    refine (exec_after h).trans ?_
    rw [if_pos hr]
    rfl
  refine (exec_after (exec_ask _ w)).trans ((exec_after (exec_ask _ w)).trans ?_)
  split
  · next hclosed =>
    simp only [Bool.and_eq_true, Bool.not_eq_true'] at hclosed
    refine (exec_after (exec_view _ w)).trans ((exec_after (exec_view _ w)).trans ?_)
    rw [hends hclosed.1 hclosed.2]
    exact hrest
  · exact hrest

/-! ### Counters and distinct facts -/

/-- Only atoms count as numbers. -/
theorem exists_atom_of_numeral? {s : Store} {m : Numeral} (h : (s.view v).numeral? = some m) :
    ∃ a : Atom, v = .atom a := by
  by_contra hatom
  have hne := Store.view_ne_atom hatom s
  cases hview : s.view v with
  | atom a => exact hne a hview
  | _ =>
    rw [hview] at h
    cases h

/-- A sum is made of atoms. It may be a new NaN, but is never drawn. -/
theorem exec_sum_ok {x y z : Value} (h : exec (sum x y) w = (.ok z, u)) :
    (∃ a : Atom, x = .atom a) ∧ u.source = w.source ∧ u.store.objects = w.store.objects ∧
      u.store.given = w.store.given := by
  obtain ⟨d, w₁, hd, h⟩ := exec_bind_ok h
  cases hd
  obtain ⟨d', w₂, hd', h⟩ := exec_bind_ok h
  cases hd'
  split at h
  · next m k hm _ =>
    refine ⟨exists_atom_of_numeral? hm, ?_⟩
    obtain ⟨total, w₃, htotal, h⟩ := exec_bind_ok h
    rw [exec_inRange] at htotal
    cases hsum : m.add? k with
    | none =>
      rw [hsum] at htotal
      cases htotal
    | some q =>
      rw [hsum] at htotal
      cases htotal
      cases total <;> cases h <;> exact ⟨rfl, rfl, rfl⟩
  · cases h

/-- A counter answers an atom, and changes its cell. -/
theorem exec_takeNext_ok {y : Value} (h : exec (takeNext c) w = (.ok y, u)) :
    (∃ a : Atom, y = .atom a) ∧ u.source = w.source ∧ (∀ l ∉ [c], u.store.get? l = w.store.get? l) ∧
      u.store.given = w.store.given := by
  obtain ⟨initial, w₁, hinitial, h⟩ := exec_bind_ok h
  cases hinitial
  obtain ⟨expected, w₂, hexpected, h⟩ := exec_bind_ok h
  cases hexpected
  obtain ⟨next, w₃, hnext, h⟩ := exec_bind_ok h
  obtain ⟨hatom, hsource, hobjects, hgiven⟩ := exec_sum_ok hnext
  cases h
  refine ⟨hatom, hsource, fun l hl => ?_, hgiven⟩
  have hne : c ≠ l := fun heq => hl (List.mem_singleton.mpr heq.symm)
  show (w₃.store.put c _).get? l = w.store.get? l
  rw [Store.get?_put_of_ne hne, Store.get?, Store.get?, hobjects]

/-- What equals an atom does so in every store. -/
theorem equal?_atom {s t : Store} {a : Atom} (h : t.equal? v (.atom a) = some true) :
    s.equal? v (.atom a) = some true := by
  cases v with
  | atom b => exact h
  | _ => cases h

/-- A counter answers the number that the value was found equal to. -/
theorem spares_takeNext (h : exec (checkCounter c v) w = (.ok r, u)) (hr : r.ok = true) :
    Spares [c] w v (takeNext c) := by
  -- the check takes the next number too, and compares it in the store that mutation leaves
  obtain ⟨expected, t, hnext, hreport⟩ := exec_bind_ok h
  obtain ⟨same, t', hsame, hreport⟩ := exec_bind_ok hreport
  obtain rfl : same = true := (ok_of_reportUnless hreport).symm.trans hr
  obtain ⟨⟨a, rfl⟩, hsource, hobjects, hgiven⟩ := exec_takeNext_ok hnext
  exact ⟨_, t, hnext, hsource, .of_objects (.inr (equal?_atom (exec_equal_ok hsame))) hobjects hgiven⟩

/-- What a distinct fact remembers changes the list of what it has seen. -/
theorem exec_remember_ok (c : Loc) (v : Value) (w : World) :
    ∃ u, exec (remember c v) w = (.ok (), u) ∧ u.source = w.source ∧
      (∀ l ∉ (w.store.slot c 0).refs, u.store.get? l = w.store.get? l) ∧ u.store.given = w.store.given := by
  rw [remember, exec_bind, exec_ask]
  dsimp only
  split
  · next l hl =>
    refine ⟨_, rfl, rfl, fun m hm => Store.get?_put_of_ne ?_, rfl⟩
    rw [hl, Value.refs, List.mem_singleton] at hm
    exact fun heq => hm heq.symm
  · exact ⟨w, rfl, rfl, fun _ _ => rfl, rfl⟩

/-- A value that has not been seen is the first one that is tried. -/
theorem spares_mutateDistinct (h : exec (checkDistinct c v) w = (.ok r, u)) (hr : r.ok = true) :
    Spares (w.store.slot c 0).refs w v (mutateDistinct fact c g n v) := by
  obtain ⟨known, t, hseen, h⟩ := exec_bind_ok h
  cases hseen
  obtain ⟨repeated, t, hrepeated, h⟩ := exec_bind_ok h
  obtain ⟨-, t', -, hreport⟩ := exec_bind_ok h
  have hnew : (!repeated) = true := (ok_of_reportUnless hreport).symm.trans hr
  have haccept : exec (do return !(← Act.isIn v (← seen c)) : Act Bool) w = (.ok true, w) := by
    rw [exec_bind, seen, exec_ask]
    dsimp only
    rw [exec_bind, exec_isIn_some (exec_isIn_ok hrepeated), ← hnew]
    rfl
  obtain ⟨t'', hremember, hsource, hobjects, hgiven⟩ := exec_remember_ok c v w
  refine ⟨v, t'', ?_, hsource, .of_objects (.refl ..) hobjects hgiven⟩
  exact (exec_after (exec_run haccept)).trans (exec_after hremember)

/-! ### Pairs -/

/-- What is a list or a tuple. -/
def IsRow (s : Store) (v : Value) : Prop :=
  (∃ l xs, v = .ref l ∧ s.get? l = some (.list xs)) ∨ ∃ cls xs, v = .tuple cls xs

/-- The first item of a list or a tuple of two is replaced by one that can stand for it. -/
theorem spares_withFirst {a b z : Value} (hv : IsRow w.store v) (hitems : w.store.elements? v = some [a, b])
    (hz : StandsFor w.store a z) : Spares [] w v (withFirst v z b) := by
  have hall : StandFor w.store [a, b] [z, b] := .cons hz (.cons (.refl ..) .nil)
  rcases hv with ⟨l, xs, rfl, hget⟩ | ⟨cls, xs, rfl⟩
  · obtain rfl : xs = [a, b] := by simpa only [Store.elements?, hget, Option.some.injEq] using hitems
    refine ⟨.ref l, { w with store := w.store.put l (.list [z, b]) }, ?_, rfl, .inl (.refl ..), fun m _ => ?_, rfl⟩
    · refine (exec_after (exec_ask _ w)).trans ?_
      rw [hget]
      rfl
    · by_cases hm : l = m
      · subst hm
        exact .inr ⟨_, _, rfl, hget, Store.get?_put_same (Store.lt_size_of_get? hget), hall⟩
      · exact .inl (Store.get?_put_of_ne hm)
  · cases hitems
    exact ⟨_, w, rfl, rfl, .inr ⟨cls, _, _, rfl, rfl, hall⟩, fun _ _ => .inl rfl, rfl⟩

/-- A list or a tuple of two items that pass keeps its contents. -/
theorem spares_mutatePair {equal : Bool} (hv : IsRow w.store v)
    (h : exec (do let (a, b) ← items v; equalityReport equal a b) w = (.ok r, u)) (hr : r.ok = true) :
    Spares [] w v (mutatePair fact equal g n v) := by
  obtain ⟨⟨a, b⟩, t, hitems, hreport⟩ := exec_bind_ok h
  obtain rfl := quiet_items.eq_of_exec hitems
  have hequal : w.store.equal? a b = some equal := by
    rw [equal?_of_report hreport, hr, Bool.true_beq]
  have helements := exec_items hitems
  have hrun : exec (mutatePair fact equal g n v) w = exec (withFirst v (if equal then b else a) b) w := by
    refine (exec_after hitems).trans ?_
    cases equal with
    | true => rfl
    | false =>
      have haccept : exec (do return !(← Act.equal a b) : Act Bool) w = (.ok true, w) := by
        rw [exec_bind, exec_equal hequal]
        rfl
      exact exec_after (exec_run haccept)
  have hz : StandsFor w.store a (if equal then b else a) := by
    cases equal with
    | true => exact .inr hequal
    | false => exact .refl ..
  obtain ⟨y, u, hwith, hspared⟩ := spares_withFirst hv helements hz
  exact ⟨y, u, hrun.trans hwith, hspared⟩

/-! ### All leaves -/

/-- Whether a fact is a leaf that leaves alone what passes it, if the value is the given one. A range has numbers for
its ends, or is upright, and a pair is a list or a tuple. -/
def IsPlainLeaf (s : Store) (v : Value) : Fact → Prop
  | .always _ | .equality _ _ _ _ | .membership _ | .range _ false | .counter _ | .distinct _ _ _ => True
  | .range c true => IsEnd (s.slot c 0) ∧ IsEnd (s.slot c 1) ∨ Upright s (s.slot c 0) (s.slot c 1)
  | .pair _ _ _ _ => IsRow s v
  | _ => False

/-- Where a leaf notes down what it is asked: the cell of a counter, the list of a distinct fact. -/
def notebook (s : Store) : Fact → List Loc
  | .counter c => [c]
  | .distinct c _ _ => (s.slot c 0).refs
  | _ => []

/-- A leaf whose check a value passes leaves it as it was: it answers that value, or one that the value equalled before,
and draws nothing. No object changes but those in which the leaf takes notes, and a list that the value is, the items of
which are replaced by equal ones. -/
theorem mutate_passing {f : Fact} (hf : f.IsPlainLeaf w.store v) (hcheck : exec (f.check v) w = (.ok r, u))
    (hr : r.ok = true) : Spares (f.notebook w.store) w v (f.mutate v) := by
  have hpasses : f.Judges w v true := ⟨r, u, hcheck, hr⟩
  cases f with
  | always c => exact spares_pure
  | equality c equal g n =>
    cases equal with
    | true => exact ⟨_, w, rfl, rfl, .of_answer (.inr hpasses.equality)⟩
    | false => exact spares_of_exec (exec_mutateDifferent hpasses.equality)
  | membership c => exact spares_of_exec (exec_mutateMembership hpasses.membership)
  | range c inside =>
    obtain rfl := quiet_checkRange.eq_of_exec hcheck
    cases inside with
    | true =>
      have hends := hf.elim (fun hends => upright_of_contains hends.1 hends.2 hpasses.within) id
      exact spares_of_exec (exec_mutateInside hends hcheck hr)
    | false => exact spares_of_exec (exec_mutateOutside hcheck hr)
  | pair c equal g n => exact spares_mutatePair hf hcheck hr
  | counter c => exact spares_takeNext hcheck hr
  | distinct c g n => exact spares_mutateDistinct hcheck hr
  | _ => exact hf.elim

end

/-- A range from zero to ten. -/
def spanFact : Fact := .range 0 true

/-- The cell of `spanFact`, and nothing to draw from. -/
def spanWorld : World := ⟨⟨#[.slots [.int 0, .int 10]], spelledMarks, []⟩, .tape [] 0, #[]⟩

/-- A number in the range is answered, although there is nothing to draw. -/
theorem mutate_passing_span :
    exec (spanFact.check (.int 5)) spanWorld = (.ok .pass, spanWorld) ∧
      Spares [] spanWorld (.int 5) (spanFact.mutate (.int 5)) := by
  have hcontains : Range.contains (spanWorld.store.view (spanWorld.store.slot 0 0))
      (spanWorld.store.view (spanWorld.store.slot 0 1)) (spanWorld.store.view (.int 5)) = some true := by
    decide +kernel
  have hcheck : exec (spanFact.check (.int 5)) spanWorld = (.ok .pass, spanWorld) := by
    simp only [spanFact, check, checkRange, exec_bind, exec_ask, exec_view, hcontains]
    rfl
  have hends : IsEnd (spanWorld.store.slot 0 0) ∧ IsEnd (spanWorld.store.slot 0 1) :=
    ⟨.inr ⟨.int 0, trivial, rfl⟩, .inr ⟨.int 10, trivial, rfl⟩⟩
  exact ⟨hcheck, mutate_passing (f := spanFact) (.inl hends) hcheck rfl⟩

end Fact

end Conform
