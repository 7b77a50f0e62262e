import Mathlib.Data.Option.NAry
import Conform.Proofs.Diagnostics

/-!
# The verdict of a check

`Fact.Judges` says that a check of a value reports, and that the verdict of the report is the given one: yes if there
are no violations, and otherwise no. Each kind of fact has its verdict from those of its parts, which is proved here
once for each kind.

From these lemmas follows that `Fact.verdict?` is the verdict of a stateless fact (`Fact.Judges.verdict`). It reads the
verdict off a store and makes no report, so it has an answer also where the message of a violation cannot be written.
It has none where a comparison or a reading that the check depends on ends with a fault. Whatever else is said of
verdicts is derived from it.
-/

namespace Conform

open Act

/-! ## Several tests -/

/-- Whether all of several values pass a test, if it has an answer for each of them. -/
def every (test : Value → Option Bool) : List Value → Option Bool
  | [] => some true
  | x :: xs => Option.map₂ and (test x) (every test xs)

section

variable {test test' : Value → Option Bool} {xs : List Value} {b : Bool} {bs : List Bool}

theorem every_congr (h : ∀ x ∈ xs, test x = test' x) : every test xs = every test' xs := by
  induction xs with
  | nil => rfl
  | cons x xs ih =>
    rw [List.forall_mem_cons] at h
    rw [every, every, h.1, ih h.2]

theorem every_of_forall₂ (h : List.Forall₂ (fun x b => test x = some b) xs bs) :
    every test xs = some (bs.all id) := by
  induction h with
  | nil => rfl
  | cons hx _ ih =>
    rw [every, hx, ih]
    rfl

/-- Verdicts that are yes together are so one by one. -/
theorem forall_of_all {α : Type} {P : α → Bool → Prop} {as : List α} (h : List.Forall₂ P as bs)
    (hall : bs.all id = true) : ∀ a ∈ as, P a true := by
  induction h with
  | nil => exact List.forall_mem_nil _
  | cons hhead _ ih =>
    obtain ⟨rfl, htail⟩ := Bool.and_eq_true_iff.mp hall
    exact List.forall_mem_cons.mpr ⟨hhead, ih htail⟩

/-- What two tests say together is not that something fails if neither says so. -/
theorem map₂_and_ne_false {p q : Option Bool} (hp : p ≠ some false) (hq : q ≠ some false) :
    Option.map₂ and p q ≠ some false := by
  intro h
  obtain ⟨a, b, rfl, rfl, hab⟩ := Option.map₂_eq_some_iff.mp h
  cases a
  · exact hp rfl
  · cases b
    · exact hq rfl
    · cases hab

theorem map₂_or_ne_false {p q : Option Bool} (h : p ≠ some false ∨ q ≠ some false) :
    Option.map₂ or p q ≠ some false := by
  intro hor
  obtain ⟨a, b, rfl, rfl, hab⟩ := Option.map₂_eq_some_iff.mp hor
  obtain ⟨rfl, rfl⟩ := Bool.or_eq_false_iff.mp hab
  exact h.elim (fun h => h rfl) fun h => h rfl

theorem every_ne_false (h : ∀ x ∈ xs, test x ≠ some false) : every test xs ≠ some false := by
  induction xs with
  | nil => exact fun h => by cases h
  | cons x xs ih =>
    rw [List.forall_mem_cons] at h
    exact map₂_and_ne_false h.1 (ih h.2)

end

namespace Fact

section

variable {w u : World} {f g : Fact} {fs : List Fact} {v x : Value} {xs : List Value} {a : Accessor} {b : Bool}
  {c : Loc} {r : Report} {name : String} {gen : Option Generator} {n : Int} {equal inside noted : Bool}

/-! ## Reports -/

theorem ok_of_reportUnless {ok : Bool} {message : Act String} (h : exec (reportUnless ok message) w = (.ok r, u)) :
    r.ok = ok := by
  cases ok with
  | true =>
    cases h
    rfl
  | false =>
    obtain ⟨m, u', -, hpure⟩ := exec_bind_ok h
    cases hpure
    rfl

theorem exec_equal (h : w.store.equal? v x = some b) : exec (Act.equal v x) w = (.ok b, w) := by
  rw [Act.equal, exec_bind, exec_ask, h]
  rfl

/-- What a report on two values says is whether they are equal. -/
theorem equal?_of_report (h : exec (equalityReport equal v x) w = (.ok r, u)) :
    w.store.equal? v x = some (r.ok == equal) := by
  obtain ⟨same, w', hsame, hreport⟩ := exec_bind_ok h
  rw [exec_equal_ok hsame, ok_of_reportUnless hreport]
  cases same <;> cases equal <;> rfl

theorem exec_equalityReport (h : w.store.equal? v x = some equal) :
    exec (equalityReport equal v x) w = (.ok .pass, w) := by
  rw [equalityReport, exec_bind, exec_equal h]
  cases equal <;> rfl

/-- What a range says of a value, if it can be compared with the ends. -/
def within? (s : Store) (c : Loc) (v : Value) : Option Bool :=
  Range.contains (s.view (s.slot c 0)) (s.view (s.slot c 1)) (s.view v)

/-- What cannot be compared with the ends of a range is neither inside nor outside. -/
theorem ok_of_checkRange (h : exec (checkRange c inside v) w = (.ok r, u)) :
    r.ok = (within? w.store c v == some inside) := by
  obtain ⟨low, _, hlow, h⟩ := exec_bind_ok h
  cases hlow
  obtain ⟨dlow, _, hdlow, h⟩ := exec_bind_ok h
  cases hdlow
  obtain ⟨high, _, hhigh, h⟩ := exec_bind_ok h
  cases hhigh
  obtain ⟨dhigh, _, hdhigh, h⟩ := exec_bind_ok h
  cases hdhigh
  obtain ⟨d, _, hd, h⟩ := exec_bind_ok h
  cases hd
  rw [within?]
  cases hwithin : Range.contains (w.store.view (w.store.slot c 0)) (w.store.view (w.store.slot c 1))
      (w.store.view v) with
  | none =>
    simp only [hwithin] at h
    obtain ⟨span, _, -, h⟩ := exec_bind_ok h
    obtain ⟨shown, _, -, h⟩ := exec_bind_ok h
    cases h
    rfl
  | some within =>
    simp only [hwithin] at h
    exact ok_of_reportUnless h

theorem exec_items {x y : Value} (h : exec (items v) w = (.ok (x, y), u)) : w.store.elements? v = some [x, y] := by
  rw [items, exec_bind, exec_ask] at h
  dsimp only at h
  split at h
  · next hxs =>
    cases h
    exact hxs
  · cases h
  · cases h

theorem isIn?_of_checkMembership (h : exec (checkMembership c v) w = (.ok r, u)) :
    w.store.isIn? v (w.store.slots c) = some r.ok := by
  obtain ⟨xs, u', hxs, h⟩ := exec_bind_ok h
  cases hxs
  obtain ⟨found, u', hfound, hreport⟩ := exec_bind_ok h
  rw [exec_isIn_ok hfound, ok_of_reportUnless hreport]

theorem isIn?_of_checkCandidates (h : exec (checkCandidates c v) w = (.ok r, u)) :
    w.store.isIn? v (w.store.slots c) = some r.ok := by
  obtain ⟨xs, u', hxs, h⟩ := exec_bind_ok h
  cases hxs
  obtain ⟨found, u', hfound, hreport⟩ := exec_bind_ok h
  rw [exec_isIn_ok hfound, ok_of_reportUnless hreport]

theorem ok_of_checkTest {test : Data → Bool} (h : exec (checkTest name test v) w = (.ok r, u)) :
    r.ok = test (w.store.view v) := by
  obtain ⟨d, u', hd, hreport⟩ := exec_bind_ok h
  cases hd
  exact ok_of_reportUnless hreport

/-! ## Verdicts by the kind of the fact -/

/-- Whether a check of a value returns a report with the given verdict. -/
def Judges (w : World) (f : Fact) (v : Value) (b : Bool) : Prop :=
  ∃ r u, exec (f.check v) w = (.ok r, u) ∧ r.ok = b

theorem Judges.unique {b' : Bool} (h : f.Judges w v b) (h' : f.Judges w v b') : b = b' := by
  obtain ⟨r, u, hr, rfl⟩ := h
  obtain ⟨r', u', hr', rfl⟩ := h'
  cases hr.symm.trans hr'
  rfl

/-- What a stateless fact reports, it reports without a trace. -/
theorem Judges.quietly (hf : f.Formed) (hs : f.stateful = false) (h : f.Judges w v b) :
    ∃ r, exec (f.check v) w = (.ok r, w) ∧ r.ok = b := by
  obtain ⟨r, u, hr, hok⟩ := h
  obtain rfl := (quiet_check hf hs v).eq_of_exec hr
  exact ⟨r, hr, hok⟩

theorem judges_always : (Fact.always c).Judges w v b ↔ b = true :=
  ⟨by rintro ⟨r, u, ⟨⟩, rfl⟩; rfl, fun h => ⟨_, _, rfl, h.symm⟩⟩

theorem judges_never {reason : String} : (Fact.never c reason).Judges w v b ↔ b = false :=
  ⟨by rintro ⟨r, u, ⟨⟩, rfl⟩; rfl, fun h => ⟨_, _, rfl, h.symm⟩⟩

theorem Judges.equality (h : (Fact.equality c equal gen n).Judges w v b) :
    w.store.equal? v (w.store.slot c 0) = some (b == equal) := by
  obtain ⟨r, u, hr, rfl⟩ := h
  obtain ⟨x, w', hx, hreport⟩ := exec_bind_ok hr
  cases hx
  exact equal?_of_report hreport

theorem judges_equality (h : w.store.equal? v (w.store.slot c 0) = some equal) :
    (Fact.equality c equal gen n).Judges w v true :=
  ⟨.pass, w, exec_equalityReport h, rfl⟩

theorem Judges.pair (h : (Fact.pair c equal gen n).Judges w v b) :
    ∃ x y, w.store.elements? v = some [x, y] ∧ w.store.equal? x y = some (b == equal) := by
  obtain ⟨r, u, hr, rfl⟩ := h
  obtain ⟨⟨x, y⟩, w', hxy, hreport⟩ := exec_bind_ok hr
  obtain rfl := quiet_items.eq_of_exec hxy
  exact ⟨x, y, exec_items hxy, equal?_of_report hreport⟩

theorem judges_pair {x y : Value} (hv : w.store.elements? v = some [x, y]) (h : w.store.equal? x y = some equal) :
    (Fact.pair c equal gen n).Judges w v true := by
  have hitems : exec (items v) w = (.ok (x, y), w) := by
    rw [items, exec_bind, exec_ask, hv]
    rfl
  refine ⟨.pass, w, ?_, rfl⟩
  rw [check, exec_bind, hitems]
  exact exec_equalityReport h

theorem Judges.membership (h : (Fact.membership c).Judges w v b) : w.store.isIn? v (w.store.slots c) = some b := by
  obtain ⟨r, u, hr, rfl⟩ := h
  exact isIn?_of_checkMembership hr

theorem Judges.range (h : (Fact.range c inside).Judges w v b) : b = (within? w.store c v == some inside) := by
  obtain ⟨r, u, hr, rfl⟩ := h
  exact ok_of_checkRange hr

theorem Judges.within (h : (Fact.range c inside).Judges w v true) : within? w.store c v = some inside :=
  eq_of_beq h.range.symm

theorem judges_range (h : within? w.store c v = some inside) : (Fact.range c inside).Judges w v true := by
  refine ⟨.pass, w, ?_, rfl⟩
  simp only [within?] at h
  simp only [check, checkRange, exec_bind, exec_ask, exec_view, h, beq_self_eq_true]
  rfl

theorem Judges.negation (h : (Fact.negation c f n noted).Judges w v b) : f.Judges w v (!b) := by
  obtain ⟨r, u, hr, rfl⟩ := h
  obtain ⟨r', w', hf, hreport⟩ := exec_bind_ok hr
  refine ⟨r', w', hf, ?_⟩
  rw [ok_of_reportUnless hreport, Bool.not_not]

/-- A lens has the verdict on the part, and fails without one. -/
theorem judges_lens : (Fact.lens c a f noted).Judges w v b ↔
    (∃ x, a.get w.store v = .ok x ∧ f.Judges w x b) ∨
      b = false ∧ ∃ e, a.get w.store v = .error e ∧ Accessor.isMissing e = true := by
  constructor
  · rintro ⟨r, u, hr, rfl⟩
    obtain ⟨o, w', ho, hr⟩ := exec_bind_ok hr
    obtain rfl := quiet_part?.eq_of_exec ho
    rcases exec_part? ho with ⟨x, rfl, hx⟩ | ⟨rfl, hmissing⟩
    · obtain ⟨r', w', hf, hr⟩ := exec_bind_ok hr
      cases hr
      exact .inl ⟨x, hx, r', u, hf, (Report.ok_under _ r').symm⟩
    · cases hr
      exact .inr ⟨rfl, hmissing⟩
  · rintro (⟨x, hx, r, u, hf, rfl⟩ | ⟨rfl, e, he, hmissing⟩)
    · refine ⟨r.under (lensTag a), u, ?_, Report.ok_under _ r⟩
      simp only [check, part?, exec_bind, exec_get, hx, exec_pure, hf]
    · refine ⟨(Report.fail ("missing " ++ a.name)).under (lensTag a), w, ?_, rfl⟩
      simp only [check, part?, exec_bind, exec_get, he, hmissing, if_true, exec_pure]

theorem Judges.part (h : (Fact.lens c a f noted).Judges w v true) :
    ∃ x, a.get w.store v = .ok x ∧ f.Judges w x true :=
  (judges_lens.mp h).resolve_right fun hnone => Bool.false_ne_true hnone.1.symm

/-- A prism has the verdict on a part that is present, and otherwise passes. -/
theorem Judges.prism (h : (Fact.prism c a f noted).Judges w v b) :
    (∃ x, a.get w.store v = .ok x ∧ (if x.isAbsent then b = true else f.Judges w x b)) ∨
      b = true ∧ ∃ e, a.get w.store v = .error e ∧ Accessor.isMissing e = true := by
  obtain ⟨r, u, hr, rfl⟩ := h
  obtain ⟨o, w', ho, hr⟩ := exec_bind_ok hr
  obtain rfl := quiet_part?.eq_of_exec ho
  rcases exec_part? ho with ⟨x, rfl, hx⟩ | ⟨rfl, hmissing⟩
  · refine .inl ⟨x, hx, ?_⟩
    replace hr : exec (if x.isAbsent then _ else _) _ = (.ok r, u) := hr
    split at hr
    · cases hr
      rw [if_pos ‹_›]
      rfl
    · rw [if_neg ‹_›]
      obtain ⟨r', w', hf, hr⟩ := exec_bind_ok hr
      cases hr
      exact ⟨r', u, hf, (Report.ok_under _ r').symm⟩
  · cases hr
    exact .inr ⟨rfl, hmissing⟩

theorem Judges.present (h : (Fact.prism c a f noted).Judges w v b) (hx : a.get w.store v = .ok x)
    (hpresent : x.isAbsent = false) : f.Judges w x b := by
  rcases h.prism with ⟨x', hx', hpart⟩ | ⟨-, e, he, -⟩
  · cases hx.symm.trans hx'
    rwa [if_neg (Bool.eq_false_iff.mp hpresent)] at hpart
  · cases hx.symm.trans he

theorem judges_labeled : (Fact.labeled c name f noted).Judges w v b ↔ f.Judges w v b := by
  constructor
  · rintro ⟨r, u, hr, rfl⟩
    obtain ⟨r', w', hf, hr⟩ := exec_bind_ok hr
    cases hr
    exact ⟨r', u, hf, (Report.ok_under _ r').symm⟩
  · rintro ⟨r, u, hf, rfl⟩
    refine ⟨r.under name, u, ?_, Report.ok_under _ r⟩
    simp only [check, exec_bind, hf, exec_pure]

theorem Judges.either (hf : f.Formed) (hfs : f.stateful = false) (h : (Fact.either c f g noted).Judges w v b) :
    ∃ b₁ b₂, f.Judges w v b₁ ∧ g.Judges w v b₂ ∧ b = (b₁ || b₂) := by
  obtain ⟨r, u, hr, rfl⟩ := h
  obtain ⟨r₁, w', hr₁, hr⟩ := exec_bind_ok hr
  obtain rfl := (quiet_check hf hfs v).eq_of_exec hr₁
  obtain ⟨r₂, w', hr₂, hr⟩ := exec_bind_ok hr
  cases hr
  refine ⟨r₁.ok, r₂.ok, ⟨r₁, _, hr₁, rfl⟩, ⟨r₂, _, hr₂, rfl⟩, ?_⟩
  cases hok₁ : r₁.ok <;> cases hok₂ : r₂.ok <;> simp [hok₁, hok₂, Report.ok_append, Report.ok_under, Report.ok_pass]

/-- The members of a conjunction report one after the other. -/
theorem judges_checkAll (hfs : FormedAll fs) (hs : fs.any stateful = false) {i : Nat} {rs : List Report}
    (h : exec (checkAll fs i v) w = (.ok rs, u)) :
    ∃ bs, List.Forall₂ (fun f b => f.Judges w v b) fs bs ∧ (Report.combine rs).ok = bs.all id := by
  induction fs generalizing i rs u with
  | nil =>
    cases h
    exact ⟨[], .nil, rfl⟩
  | cons f fs ih =>
    rw [List.any_cons, Bool.or_eq_false_iff] at hs
    obtain ⟨r, w', hr, h⟩ := exec_bind_ok h
    obtain rfl := (quiet_check hfs.1 hs.1 v).eq_of_exec hr
    obtain ⟨rs', w', hrs, h⟩ := exec_bind_ok h
    cases h
    obtain ⟨bs, hbs, hok⟩ := ih hfs.2 hs.2 hrs
    refine ⟨r.ok :: bs, .cons ⟨r, _, hr, rfl⟩ hbs, ?_⟩
    rw [Report.combine_cons, Report.ok_append, hok]
    split
    · rw [Report.ok_under]
      rfl
    · rfl

theorem Judges.all (hfs : FormedAll fs) (hs : fs.any stateful = false) (h : (Fact.all c fs n noted).Judges w v b) :
    ∃ bs, List.Forall₂ (fun f b => f.Judges w v b) fs bs ∧ b = bs.all id := by
  obtain ⟨r, u, hr, rfl⟩ := h
  obtain ⟨rs, w', hrs, hr⟩ := exec_bind_ok hr
  cases hr
  exact judges_checkAll hfs hs hrs

/-- So do the elements of a sequence. -/
theorem Judges.each (hf : f.Formed) (hs : f.stateful = false) (h : (Fact.each c f noted).Judges w v b) :
    ∃ xs bs, w.store.elements? v = some xs ∧ List.Forall₂ (fun x b => f.Judges w x b) xs bs ∧ b = bs.all id := by
  have hreports : ∀ {xs : List Value} {i : Nat} {rs : List Report} {u : World},
      exec (checkElements f.check i xs) w = (.ok rs, u) →
        ∃ bs, List.Forall₂ (fun x b => f.Judges w x b) xs bs ∧ (Report.combine rs).ok = bs.all id := by
    intro xs
    induction xs with
    | nil =>
      intro i rs u h
      cases h
      exact ⟨[], .nil, rfl⟩
    | cons x xs ih =>
      intro i rs u h
      obtain ⟨r, w', hr, h⟩ := exec_bind_ok h
      obtain rfl := (quiet_check hf hs x).eq_of_exec hr
      obtain ⟨rs', w', hrs, h⟩ := exec_bind_ok h
      cases h
      obtain ⟨bs, hbs, hok⟩ := ih hrs
      refine ⟨r.ok :: bs, .cons ⟨r, _, hr, rfl⟩ hbs, ?_⟩
      rw [Report.combine_cons, Report.ok_append, hok, Report.ok_under]
      rfl
  obtain ⟨r, u, hr, rfl⟩ := h
  obtain ⟨xs, w', hxs, hr⟩ := exec_bind_ok hr
  obtain rfl := quiet_elements.eq_of_exec hxs
  obtain ⟨rs, w', hrs, hr⟩ := exec_bind_ok hr
  cases hr
  obtain ⟨bs, hbs, hok⟩ := hreports hrs
  exact ⟨xs, bs, exec_elements hxs, hbs, hok⟩

theorem Judges.length (h : (Fact.length c n gen).Judges w v b) :
    ∃ xs, w.store.elements? v = some xs ∧ b = ((xs.length : Int) == n) := by
  obtain ⟨r, u, hr, rfl⟩ := h
  obtain ⟨xs, w', hxs, hr⟩ := exec_bind_ok hr
  obtain rfl := quiet_elements.eq_of_exec hxs
  exact ⟨xs, exec_elements hxs, ok_of_reportUnless hr⟩

theorem checkPick_eq (d : Data) (other : Fact) (v : Value) : ∀ (tests : List (Data → Bool)) (fs : List Fact),
    checkPick d tests fs (other.check v) v = (pick d other tests fs).check v
  | [], fs => by cases fs <;> rfl
  | _ :: _, [] => rfl
  | test :: tests, f :: fs => by
    rw [checkPick, pick]
    split
    · rfl
    · exact checkPick_eq d other v tests fs

theorem Judges.mapped {tests : List (Data → Bool)} (h : (Fact.mapped c name tests fs f).Judges w v b) :
    (pick (w.store.view v) f tests fs).Judges w v b := by
  obtain ⟨r, u, hr, rfl⟩ := h
  obtain ⟨d, u', hd, hr⟩ := exec_bind_ok hr
  cases hd
  obtain ⟨r', u', hpick, hpure⟩ := exec_bind_ok hr
  cases hpure
  rw [checkPick_eq] at hpick
  exact ⟨r', _, hpick, (Report.ok_under _ r').symm⟩

theorem Judges.predicate {test : Data → Bool} (h : (Fact.predicate c name test).Judges w v b) :
    b = test (w.store.view v) := by
  obtain ⟨r, u, hr, rfl⟩ := h
  exact ok_of_checkTest hr

theorem Judges.brute {test : Data → Bool} (h : (Fact.brute c name test gen n).Judges w v b) :
    b = test (w.store.view v) := by
  obtain ⟨r, u, hr, rfl⟩ := h
  exact ok_of_checkTest hr

theorem Judges.candidate (h : (Fact.choice c none noted).Judges w v b) :
    w.store.isIn? v (w.store.slots c) = some b := by
  obtain ⟨r, u, hr, rfl⟩ := h
  exact isIn?_of_checkCandidates hr

/-- The verdict of a choice is that on being a candidate and that of the further fact. -/
theorem Judges.further (h : (Fact.choice c (some f) noted).Judges w v b) :
    ∃ found passed, w.store.isIn? v (w.store.slots c) = some found ∧ f.Judges w v passed ∧ b = (found && passed) := by
  obtain ⟨r, u, hr, rfl⟩ := h
  obtain ⟨r', u', hr', hrest⟩ := exec_bind_ok hr
  obtain rfl := quiet_checkCandidates.eq_of_exec hr'
  obtain ⟨r'', u'', hf, hpure⟩ := exec_bind_ok hrest
  cases hpure
  exact ⟨r'.ok, r''.ok, isIn?_of_checkCandidates hr', ⟨r'', _, hf, rfl⟩, Report.ok_append r' r''⟩

end

/-! ## Verdicts without reports -/

mutual

/-- Whether a value passes a stateless fact, as far as the store tells. -/
def verdict? (s : Store) : Fact → Value → Option Bool
  | .always _, _ => some true
  | .never _ _, _ => some false
  | .equality c equal _ _, v => (s.equal? v (s.slot c 0)).map (· == equal)
  | .membership c, v | .choice c none _, v => s.isIn? v (s.slots c)
  | .range c inside, v => some (within? s c v == some inside)
  | .pair _ equal _ _, v =>
    match s.elements? v with
    | some [x, y] => (s.equal? x y).map (· == equal)
    | _ => none
  | .all _ fs _ _, v => verdictAll? s fs v
  | .either _ f g _, v => Option.map₂ or (verdict? s f v) (verdict? s g v)
  | .negation _ f _ _, v => (verdict? s f v).map not
  | .lens _ a f _, v =>
    match a.get s v with
    | .ok x => verdict? s f x
    | .error e => if Accessor.isMissing e then some false else none
  | .prism _ a f _, v =>
    match a.get s v with
    | .ok x => if x.isAbsent then some true else verdict? s f x
    | .error e => if Accessor.isMissing e then some true else none
  | .each _ f _, v => (s.elements? v).bind (every (verdict? s f))
  | .length _ n _, v => (s.elements? v).map fun xs => (xs.length : Int) == n
  | .mapped _ _ tests fs f, v => verdictPick? s (s.view v) tests fs (verdict? s f v) v
  | .predicate _ _ test, v | .brute _ _ test _ _, v => some (test (s.view v))
  | .choice c (some f) _, v => Option.map₂ and (s.isIn? v (s.slots c)) (verdict? s f v)
  | .labeled _ _ f _, v => verdict? s f v
  | .counter _, _ | .distinct _ _ _, _ | .foreign _ _, _ => none

/-- Whether a value passes each of several facts. -/
def verdictAll? (s : Store) : List Fact → Value → Option Bool
  | [], _ => some true
  | f :: fs, v => Option.map₂ and (verdict? s f v) (verdictAll? s fs v)

/-- Whether a value passes the fact of the first test that holds, or else what the last one says. -/
def verdictPick? (s : Store) (d : Data) : List (Data → Bool) → List Fact → Option Bool → Value → Option Bool
  | test :: tests, f :: fs, otherwise, v =>
    if test d then verdict? s f v else verdictPick? s d tests fs otherwise v
  | _, _, otherwise, _ => otherwise

end

section

variable {w : World}

mutual

/-- What a check of a stateless fact reports is the verdict. -/
theorem Judges.verdict : ∀ {f : Fact}, f.Formed → f.stateful = false → ∀ {v : Value} {b : Bool}, f.Judges w v b →
    f.verdict? w.store v = some b
  | .always _, _, _, _, _, h => congrArg some (judges_always.mp h).symm
  | .never _ _, _, _, _, _, h => congrArg some (judges_never.mp h).symm
  | .equality c equal _ _, _, _, v, b, h => by
    rw [verdict?, h.equality]
    cases b <;> cases equal <;> rfl
  | .membership c, _, _, v, b, h => h.membership
  | .range c inside, _, _, v, b, h => congrArg some h.range.symm
  | .pair c equal _ _, _, _, v, b, h => by
    obtain ⟨x, y, hv, hxy⟩ := h.pair
    simp only [verdict?, hv, hxy]
    cases b <;> cases equal <;> rfl
  | .all c fs n noted, hf, hs, v, b, h => by
    have hstateless : fs.any stateful = false := hf.1.symm.trans hs
    obtain ⟨bs, hbs, hb⟩ := h.all hf.2 hstateless
    exact (verdictAll?_of_judges hf.2 hstateless hbs).trans (congrArg some hb.symm)
  | .either c f g noted, hf, hs, v, b, h => by
    obtain ⟨hfs, hgs⟩ := Bool.or_eq_false_iff.mp (hf.1.symm.trans hs)
    obtain ⟨b₁, b₂, hb₁, hb₂, rfl⟩ := h.either hf.2.1 hfs
    rw [verdict?, hb₁.verdict hf.2.1 hfs, hb₂.verdict hf.2.2 hgs]
    rfl
  | .negation c f n noted, hf, hs, v, b, h => by
    rw [verdict?, h.negation.verdict hf.2 hf.1.2, Option.map_some, Bool.not_not]
  | .lens c a f noted, hf, hs, v, b, h => by
    rcases judges_lens.mp h with ⟨x, hx, hpart⟩ | ⟨rfl, e, he, hmissing⟩
    · simp only [verdict?, hx, hpart.verdict hf.2 (hf.1.symm.trans hs)]
    · simp only [verdict?, he, hmissing, if_true]
  | .prism c a f noted, hf, hs, v, b, h => by
    rcases h.prism with ⟨x, hx, hpart⟩ | ⟨rfl, e, he, hmissing⟩
    · simp only [verdict?, hx]
      split at hpart
      · rw [if_pos ‹_›, hpart]
      · rw [if_neg ‹_›, hpart.verdict hf.2 (hf.1.symm.trans hs)]
    · simp only [verdict?, he, hmissing, if_true]
  | .each c f noted, hf, hs, v, b, h => by
    have hstateless := hf.1.symm.trans hs
    obtain ⟨xs, bs, hxs, hbs, hb⟩ := h.each hf.2 hstateless
    rw [verdict?, hxs, Option.bind_some, hb]
    exact every_of_forall₂ (hbs.imp fun x b hx => hx.verdict hf.2 hstateless)
  | .length c n _, _, _, v, b, h => by
    obtain ⟨xs, hxs, rfl⟩ := h.length
    rw [verdict?, hxs]
    rfl
  | .mapped c name tests fs f, hf, hs, v, b, h =>
    verdictPick?_of_judges hf.2.1 hf.1.1 h.mapped fun hlast => hlast.verdict hf.2.2 hf.1.2
  | .predicate _ _ _, _, _, v, b, h => congrArg some h.predicate.symm
  | .brute _ _ _ _ _, _, _, v, b, h => congrArg some h.brute.symm
  | .choice c none _, _, _, v, b, h => h.candidate
  | .choice c (some f) _, hf, hs, v, b, h => by
    obtain ⟨found, passed, hfound, hpassed, rfl⟩ := h.further
    rw [verdict?, hfound, hpassed.verdict hf.2 (hf.1.symm.trans hs)]
    rfl
  | .labeled c name f _, hf, hs, v, b, h => (judges_labeled.mp h).verdict hf.2 (hf.1.symm.trans hs)
  | .counter _, _, hs, _, _, _ | .distinct _ _ _, _, hs, _, _, _ => by cases hs
  | .foreign _ _, hf, _, _, _, _ => hf.elim

theorem verdictAll?_of_judges : ∀ {fs : List Fact}, FormedAll fs → fs.any stateful = false →
    ∀ {v : Value} {bs : List Bool}, List.Forall₂ (fun f b => f.Judges w v b) fs bs →
      verdictAll? w.store fs v = some (bs.all id)
  | [], _, _, _, _, .nil => rfl
  | f :: fs, hf, hs, v, _, .cons hhead htail => by
    rw [List.any_cons, Bool.or_eq_false_iff] at hs
    rw [verdictAll?, hhead.verdict hf.1 hs.1, verdictAll?_of_judges hf.2 hs.2 htail]
    rfl

theorem verdictPick?_of_judges : ∀ {fs : List Fact}, FormedAll fs → fs.any stateful = false →
    ∀ {d : Data} {other : Fact} {last : Option Bool} {tests : List (Data → Bool)} {v : Value} {b : Bool},
      (pick d other tests fs).Judges w v b → (other.Judges w v b → last = some b) →
        verdictPick? w.store d tests fs last v = some b
  | [], _, _, _, _, _, tests, _, _, h, hlast => by cases tests <;> exact hlast h
  | f :: fs, _, _, _, _, _, [], _, _, h, hlast => hlast h
  | f :: fs, hf, hs, d, other, last, test :: tests, v, b, h, hlast => by
    rw [List.any_cons, Bool.or_eq_false_iff] at hs
    rw [pick] at h
    rw [verdictPick?]
    split at h
    · rw [if_pos ‹_›]
      exact h.verdict hf.1 hs.1
    · rw [if_neg ‹_›]
      exact verdictPick?_of_judges hf.2 hs.2 h hlast

end

end

end Fact

end Conform
