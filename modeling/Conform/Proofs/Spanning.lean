import Conform.Proofs.Founding
import Conform.Proofs.Rebuilding
import Conform.Proofs.Shaping

/-!
# Integers drawn from a range

A range with integers for ends answers an integer that lies in it, or outside it, as it is asked to
(`Fact.picks_mutateInside`, `Fact.picks_mutateOutside`). Open ends are filled in on the right side of the other end,
and what is drawn between two integers lies between them, whatever the source is.

`Act.Picks` says what an action that answers leaves and answers, if it is run in a given store and only draws.
-/

namespace Conform

open Act

namespace Act

variable {α β : Type} {s : Store} {P : α → Prop} {Q : β → Prop}

/-- Whether an action that answers in a world with some store leaves that store, and its answer is as described. -/
def Picks (s : Store) (a : Act α) (P : α → Prop) : Prop :=
  ∀ w x u, w.store = s → exec a w = (.ok x, u) → u.store = s ∧ P x

theorem picks_pure {x : α} (h : P x) : Picks s (pure x) P := by
  rintro w y u hw ⟨⟩
  exact ⟨hw, h⟩

/-- What never answers. -/
theorem picks_never {a : Act α} (h : ∀ w x, (exec a w).1 ≠ .ok x) : Picks s a P :=
  fun w x _ _ hrun => absurd (congrArg Prod.fst hrun) (h w x)

theorem Picks.bind {a : Act α} {f : α → Act β} (ha : Picks s a P) (hf : ∀ x, P x → Picks s (f x) Q) :
    Picks s (a >>= f) Q := by
  intro w y u hw hrun
  obtain ⟨x, t, hx, hy⟩ := exec_bind_ok hrun
  obtain ⟨ht, hp⟩ := ha w x t hw hx
  exact hf x hp t y u ht hy

/-- What is only looked at is known in the world that it is looked at. -/
theorem Picks.after {a : Act α} {f : α → Act β} (hquiet : a.Quiet)
    (hf : ∀ w x, w.store = s → exec a w = (.ok x, w) → Picks s (f x) Q) : Picks s (a >>= f) Q := by
  intro w y u hw hrun
  obtain ⟨x, t, hx, hy⟩ := exec_bind_ok hrun
  obtain rfl := hquiet.eq_of_exec hx
  exact hf w x hw hx w y u hw hy

theorem picks_ask {f : Store → α} : Picks s (ask f) fun x => x = f s := by
  rintro w x u rfl ⟨⟩
  exact ⟨rfl, rfl⟩

theorem Picks.mono {P' : α → Prop} {a : Act α} (h : Picks s a P) (hP : ∀ x, P x → P' x) : Picks s a P' :=
  fun w x u hw hrun => (h w x u hw hrun).imp_right (hP x)

end Act

/-! ## Draws -/

namespace Draw

variable {s : Store} {a b : Int} {low high : Value}

theorem picks_fromSource {α : Type} {f : Source → α × Source} {P : α → Prop} (h : ∀ source, P (f source).1) :
    Picks s (fromSource f) P := by
  rintro w x u hw ⟨⟩
  exact ⟨hw, h w.source⟩

theorem picks_intBetween (hab : a ≤ b) : Picks s (intBetween a b) fun k => a ≤ k ∧ k ≤ b :=
  (picks_fromSource (Source.below_lt (by omega))).bind fun i (hi : i < (b - a + 1).toNat) => picks_pure (by omega)

/-- What is chosen is one of the options. -/
theorem picks_choose {α : Type} {xs : List α} : Picks s (choose xs) fun x => x ∈ xs := by
  have hindex : Picks s (index xs.length) fun _ => True := by
    unfold index
    split
    · refine .after quiet_get fun w x _ _ => picks_never fun w' y => ?_
      split <;> exact fun h => by cases h
    · split
      · exact picks_pure trivial
      · exact picks_fromSource fun _ => trivial
  refine hindex.bind fun i _ => ?_
  split
  · next x hx => exact picks_pure (List.mem_of_getElem? hx)
  · exact picks_never fun _ _ h => by cases h

/-- Whether a value is an integer between two. -/
def Between (a b : Int) (v : Value) : Prop := ∃ k, v = .int k ∧ a ≤ k ∧ k ≤ b

theorem numeral_int : Picks s (numeral (.int a)) fun m => m = .int a :=
  .after quiet_view fun w d _ hd => by
    cases hd
    exact picks_pure rfl

theorem picks_inRange {α : Type} {x : α} : Picks s (inRange (some x)) fun y => y = x := picks_pure rfl

/-- An entry of a tape is brought into the range. -/
theorem picks_offset (hab : a ≤ b) {entry : Int} : Picks s (offset (.int a) (.int b) entry) (Between a b) := by
  refine numeral_int.bind fun m hm => numeral_int.bind fun n hn => ?_
  subst hm hn
  refine picks_inRange.bind fun distance hdistance => ?_
  subst hdistance
  refine picks_inRange.bind fun size hsize => ?_
  subst hsize
  refine picks_inRange.bind fun part hpart => ?_
  subst hpart
  refine picks_inRange.bind fun total htotal => ?_
  subst htotal
  have hnonneg := Int.emod_nonneg entry (b := b - a + 1) (by omega)
  have hlt := Int.emod_lt_of_pos entry (b := b - a + 1) (by omega)
  exact picks_pure ⟨a + entry % (b - a + 1), rfl, by omega, by omega⟩

theorem picks_drawWhole : Picks s (drawWhole (.int a) (.int b)) (Between a b) := by
  refine numeral_int.bind fun n hn => ?_
  subst hn
  refine picks_inRange.bind fun past hpast => ?_
  subst hpast
  refine numeral_int.bind fun m hm => ?_
  subst hm
  refine (picks_pure (P := fun k => k = a) rfl).bind fun first hfirst => ?_
  subst hfirst
  refine (picks_pure (P := fun k => k = b + 1) rfl).bind fun last hlast => ?_
  subst hlast
  dsimp only
  split
  · exact picks_never fun _ _ h => by cases h
  · next hle =>
    refine (picks_intBetween (by omega)).bind fun k hk => picks_pure ⟨k, rfl, hk.1, by omega⟩

/-- An integer drawn from a range lies in the range. -/
theorem picks_intInRange (hab : a ≤ b) : Picks s (intInRange (.int a) (.int b)) (Between a b) := by
  refine .after quiet_get fun w x hw hx => ?_
  cases hx
  dsimp only
  split
  · exact picks_pure ⟨a, rfl, Int.le_refl a, hab⟩
  · have hordered : Picks s (requireOrdered (.int a) (.int b)) fun _ => True := by
      refine .after quiet_view fun _ lo _ _ => .after quiet_view fun _ hi _ _ => ?_
      split
      · exact picks_never fun _ _ h => by cases h
      · exact .after quiet_display fun _ x _ _ => .after quiet_display fun _ y _ _ =>
          picks_never fun _ _ h => by cases h
      · exact picks_pure trivial
    refine hordered.bind fun _ _ => ?_
    split
    · next entry source _ =>
      have hmodify : Picks s (modify fun w : World => { w with source := source } : Act PUnit) fun _ => True := by
        rintro w x u hw ⟨⟩
        exact ⟨hw, trivial⟩
      exact hmodify.bind fun _ _ => picks_offset hab
    · exact picks_drawWhole

end Draw

/-! ## Ends -/

namespace Fact

open Draw

/-- Whether a value can stand for an end of a range of integers: nothing, if the range is open there, or an integer. -/
def IsWholeEnd (v : Value) : Prop := v = .null ∨ ∃ n, v = .int n

section

variable {s : Store} {a b k : Int} {low high v : Value} {c : Loc} {fact : Fact}

theorem picks_sum : Picks s (sum (.int a) (.int b)) fun y => y = .int (a + b) :=
  .after quiet_view fun _ _ _ hd => .after quiet_view fun _ _ _ hd' => by
    cases hd
    cases hd'
    exact picks_inRange.bind fun x hx => by
      subst hx
      exact picks_pure rfl

theorem picks_difference : Picks s (difference (.int a) (.int b)) fun y => y = .int (a - b) :=
  .after quiet_view fun _ _ _ hd => .after quiet_view fun _ _ _ hd' => by
    cases hd
    cases hd'
    exact picks_inRange.bind fun x hx => by
      subst hx
      exact picks_pure rfl

/-- A fact that gives up answers nothing. -/
theorem picks_giveUp {α : Type} {P : α → Prop} {reason : String} : Picks s (fact.giveUp reason none : Act α) P :=
  .after quiet_described fun _ _ _ _ => picks_never fun _ _ h => by cases h

/-- Whether an integer is not below a lower end. -/
def notBelow (low : Value) (k : Int) : Bool :=
  match low with
  | .atom (.int n) => n ≤ k
  | _ => true

/-- Whether an integer is not above an upper end. -/
def notAbove (high : Value) (k : Int) : Bool :=
  match high with
  | .atom (.int n) => k ≤ n
  | _ => true

theorem notBelow_int : notBelow (.int a) k = true ↔ a ≤ k := decide_eq_true_iff

theorem notAbove_int : notAbove (.int b) k = true ↔ k ≤ b := decide_eq_true_iff

/-- An open end is filled in on the right side of the other one. -/
theorem picks_fillEnds (hlow : IsWholeEnd low) (hhigh : IsWholeEnd high)
    (hordered : ∀ m n, low = .int m → high = .int n → m ≤ n) : Picks s (fillEnds low high false) fun p =>
      ∃ a b, p = (.int a, .int b) ∧ a ≤ b ∧
        ∀ k, a ≤ k → k ≤ b → notBelow low k = true ∧ notAbove high k = true := by
  have hspan : 0 ≤ greatestInt - leastInt := by decide
  rcases hlow with rfl | ⟨m, rfl⟩ <;> rcases hhigh with rfl | ⟨n, rfl⟩
  · exact picks_pure ⟨leastInt, greatestInt, rfl, by decide, fun k _ _ => ⟨rfl, rfl⟩⟩
  · refine (picks_difference (b := greatestInt - leastInt)).bind fun y hy => picks_pure ?_
    subst hy
    exact ⟨n - (greatestInt - leastInt), n, rfl, by omega, fun k _ hk => ⟨rfl, notAbove_int.mpr hk⟩⟩
  · refine (picks_sum (b := greatestInt - leastInt)).bind fun y hy => picks_pure ?_
    subst hy
    exact ⟨m, m + (greatestInt - leastInt), rfl, by omega, fun k hk _ => ⟨notBelow_int.mpr hk, rfl⟩⟩
  · exact picks_pure ⟨m, n, rfl, hordered m n rfl rfl, fun k hm hn => ⟨notBelow_int.mpr hm, notAbove_int.mpr hn⟩⟩

/-- What is drawn between two ends is an integer that is not beyond them. -/
theorem picks_drawBetween (hlow : IsWholeEnd low) (hhigh : IsWholeEnd high)
    (hordered : ∀ m n, low = .int m → high = .int n → m ≤ n) :
    Picks s (do drawBetween (← fillEnds low high false) false) fun y =>
      ∃ k, y = .int k ∧ notBelow low k = true ∧ notAbove high k = true := by
  refine (picks_fillEnds hlow hhigh hordered).bind fun p hp => ?_
  obtain ⟨a, b, rfl, hab, hspanned⟩ := hp
  refine (picks_intInRange hab).mono ?_
  rintro y ⟨k, hk, hak, hkb⟩
  exact ⟨k, hk, hspanned k hak hkb⟩

/-! ## Verdicts -/

theorem less?_int : (Data.atom (.int a)).less? (.atom (.int b)) = some (decide (a < b)) := by
  simp [Data.less?, Data.atomLess?, Atom.numeral?, Atom.integer?, Numeral.less, Numeral.rational?, Exact.ofInt,
    Exact.less, twoTo]

theorem less?_low (hlow : IsWholeEnd low) :
    (if ((s.view low).className == "NoneType") = true then some false else (Data.atom (.int k)).less? (s.view low)) =
      some (!notBelow low k) := by
  rcases hlow with rfl | ⟨m, rfl⟩
  · rfl
  · rw [if_neg (by simp [Store.view, Value.view, Value.int, Data.className, Atom.className])]
    refine less?_int.trans (congrArg some ?_)
    rw [Bool.eq_iff_iff, decide_eq_true_iff, Bool.not_eq_true', ← Bool.not_eq_true, notBelow_int, Int.not_le]

theorem less?_high (hhigh : IsWholeEnd high) :
    (if ((s.view high).className == "NoneType") = true then some false
      else (s.view high).less? (.atom (.int k))) = some (!notAbove high k) := by
  rcases hhigh with rfl | ⟨n, rfl⟩
  · rfl
  · rw [if_neg (by simp [Store.view, Value.view, Value.int, Data.className, Atom.className])]
    refine less?_int.trans (congrArg some ?_)
    rw [Bool.eq_iff_iff, decide_eq_true_iff, Bool.not_eq_true', ← Bool.not_eq_true, notAbove_int, Int.not_le]

/-- An integer lies in a range of integers if it is not beyond the ends. -/
theorem within?_int (hlow : IsWholeEnd (s.slot c 0)) (hhigh : IsWholeEnd (s.slot c 1)) :
    within? s c (.int k) = some (notBelow (s.slot c 0) k && notAbove (s.slot c 1) k) := by
  have hnan : (Data.atom (.int k)).isNaN = false := by
    rw [Data.isNaN, Data.equal, Atom.equal_self fun m h => by cases h]
    rfl
  show Range.contains _ _ (.atom (.int k)) = _
  rw [Range.contains, hnan]
  simp only [Bool.false_eq_true, if_false, less?_low hlow, less?_high hhigh]
  cases notBelow (s.slot c 0) k <;> simp

/-- What a check of a range says is the verdict. -/
theorem picks_checkRange {inside : Bool} : Picks s (checkRange c inside v) fun r =>
    (Fact.range c inside).verdict? s v = some r.ok := by
  rintro w r u rfl h
  obtain rfl := quiet_checkRange.eq_of_exec h
  exact ⟨rfl, Judges.verdict (f := .range c inside) trivial rfl ⟨r, _, h, rfl⟩⟩

theorem picks_anyFloat (hlow : IsWholeEnd low) (hhigh : IsWholeEnd high) (hv : (s.view v).isFloat = false) :
    Picks s (anyFloat [low, high, v]) fun floating => floating = false := by
  rintro w b u rfl h
  cases h
  refine ⟨rfl, ?_⟩
  simp only [Store.viewAll, List.map_cons, List.map_nil, List.any_cons, List.any_nil, hv, Bool.or_false]
  rcases hlow with rfl | ⟨m, rfl⟩ <;> rcases hhigh with rfl | ⟨n, rfl⟩ <;> rfl

/-- Whether a side has room outside a range: its ends are in order, and all between them is beyond one of the range. -/
structure Beside (s : Store) (c : Loc) (p : Value × Value) : Prop where
  low : IsWholeEnd p.1
  high : IsWholeEnd p.2
  ordered : ∀ m n, p.1 = .int m → p.2 = .int n → m ≤ n
  outside : ∀ k, notBelow p.1 k = true → notAbove p.2 k = true →
    (notBelow (s.slot c 0) k && notAbove (s.slot c 1) k) = false

/-- The side below a range has the integer before the lower end for its upper end. -/
theorem picks_stepBelow (hlow : s.slot c 0 = .int a) :
    Picks s (stepOut (s.slot c 0) false false) fun y => Beside s c (.null, y) := by
  rw [hlow]
  refine (picks_difference (b := 1)).mono fun y hy => ?_
  subst hy
  refine ⟨.inl rfl, .inr ⟨_, rfl⟩, (fun m n h => by cases h), fun k _ hk => ?_⟩
  have hk : k ≤ a - 1 := notAbove_int.mp hk
  have hbelow : notBelow (s.slot c 0) k = false := by
    rw [hlow, ← Bool.not_eq_true, notBelow_int]
    omega
  rw [hbelow, Bool.false_and]

/-- The side above it has the integer after the upper end for its lower end. -/
theorem picks_stepAbove (hhigh : s.slot c 1 = .int b) :
    Picks s (stepOut (s.slot c 1) false true) fun y => Beside s c (y, .null) := by
  rw [hhigh]
  refine (picks_sum (b := 1)).mono fun y hy => ?_
  subst hy
  refine ⟨.inr ⟨_, rfl⟩, .inl rfl, (fun m n _ h => by cases h), fun k hk _ => ?_⟩
  have hk : b + 1 ≤ k := notBelow_int.mp hk
  have habove : notAbove (s.slot c 1) k = false := by
    rw [hhigh, ← Bool.not_eq_true, notAbove_int]
    omega
  rw [habove, Bool.and_false]

theorem IsWholeEnd.int (h : IsWholeEnd v) (hv : ¬ v.isNull = true) : ∃ n, v = .int n :=
  h.resolve_left fun hnull => hv (by rw [hnull]; rfl)

variable (hlow : IsWholeEnd (s.slot c 0)) (hhigh : IsWholeEnd (s.slot c 1)) (hv : (s.view v).isFloat = false)

include hlow hhigh hv

/-- A number inside a range of integers is answered. -/
theorem picks_mutateInside : Picks s (mutateInside fact c v) fun y => (Fact.range c true).verdict? s y = some true := by
  refine picks_ask.bind fun low heq => picks_ask.bind fun high heq' => ?_
  subst heq heq'
  have hrest : ∀ hordered : ∀ m n, s.slot c 0 = .int m → s.slot c 1 = .int n → m ≤ n, Picks s (do
      if (← checkRange c true v).ok then return v
      let floating ← anyFloat [s.slot c 0, s.slot c 1, v]
      drawBetween (← fillEnds (s.slot c 0) (s.slot c 1) floating) floating) fun y =>
        (Fact.range c true).verdict? s y = some true := by
    intro hordered
    refine picks_checkRange.bind fun r hr => ?_
    split
    · next hok => exact picks_pure (by rw [hr, hok])
    · refine (picks_anyFloat hlow hhigh hv).bind fun floating hfloating => ?_
      subst hfloating
      refine (picks_drawBetween hlow hhigh hordered).mono ?_
      rintro y ⟨k, rfl, hbelow, habove⟩
      rw [verdict?, within?_int hlow hhigh, hbelow, habove]
      rfl
  split
  · refine .after quiet_view fun w d hw hd => .after quiet_view fun w' d' hw' hd' => ?_
    cases hd
    cases hd'
    split
    · exact picks_never fun _ _ h => by cases h
    · exact .after quiet_ask fun _ _ _ _ => .after quiet_written fun _ _ _ _ =>
        (picks_giveUp (P := fun _ => False)).bind fun _ h => h.elim
    · next hless =>
      refine hrest fun m n hm hn => ?_
      rw [hw, hw', hm, hn] at hless
      have hless' := less?_int.symm.trans hless
      simpa using hless'
  · next hopen =>
    refine hrest fun m n hm hn => absurd ?_ hopen
    rw [hm, hn]
    rfl

/-- A number outside a range of integers is answered. -/
theorem picks_mutateOutside :
    Picks s (mutateOutside fact c v) fun y => (Fact.range c false).verdict? s y = some true := by
  refine picks_checkRange.bind fun r hr => ?_
  split
  · next hok => exact picks_pure (by rw [hr, hok])
  · refine picks_ask.bind fun low heq => picks_ask.bind fun high heq' => ?_
    subst heq heq'
    refine (picks_anyFloat hlow hhigh hv).bind fun floating hfloating => ?_
    subst hfloating
    have hsides : ∀ sides : List (Value × Value), (∀ p ∈ sides, Beside s c p) → Picks s (do
        if sides.isEmpty then fact.giveUp "nothing lies outside an unbounded range" none
        let p ← Draw.choose sides
        drawBetween (← fillEnds p.1 p.2 false) false) fun y => (Fact.range c false).verdict? s y = some true := by
      intro sides hsides
      dsimp only
      split
      · exact (picks_giveUp (P := fun _ => False)).bind fun _ h => h.elim
      · refine picks_choose.bind fun p hp => ?_
        have hp := hsides p hp
        refine (picks_drawBetween hp.low hp.high hp.ordered).mono ?_
        rintro y ⟨k, rfl, hk, hk'⟩
        rw [verdict?, within?_int hlow hhigh, hp.outside k hk hk']
        rfl
    -- there is room on the sides on which the range is not open
    dsimp only
    split
    · split
      · exact hsides [] (List.forall_mem_nil _)
      · next hclosed =>
        obtain ⟨b, hb⟩ := hhigh.int hclosed
        exact (picks_stepAbove hb).bind fun y hy => hsides [(y, .null)] (List.forall_mem_singleton.mpr hy)
    · next hclosed =>
      obtain ⟨a, ha⟩ := hlow.int hclosed
      split
      · exact (picks_stepBelow ha).bind fun x hx => hsides [(.null, x)] (List.forall_mem_singleton.mpr hx)
      · next hclosed' =>
        obtain ⟨b, hb⟩ := hhigh.int hclosed'
        refine (picks_stepBelow ha).bind fun x hx => (picks_stepAbove hb).bind fun y hy => ?_
        exact hsides [(.null, x), (y, .null)] (List.forall_mem_cons.mpr ⟨hx, List.forall_mem_singleton.mpr hy⟩)

end

end Fact

end Conform
