import Conform.Proofs.Judging
import Conform.Proofs.Keeping

/-!
# What a verdict means

`Fact.Meets s f v` says of a stateless fact when a value satisfies it, as the contents of values have it. For the
facts whose reference values stand for plain trees (`Fact.Ordinary`), the verdict on a value that stands for one is yes
if and only if the value meets the fact (`meets_of_verdict`). Values that match meet the same facts, also in a store
that has been written to but keeps its contents (`meets_congr`), which cannot be said of verdicts: a comparison that
finds one object in two places does not look into it, and otherwise may have to go down too far.
-/

namespace Conform

open Act

namespace Fact

mutual

/-- The stateless facts of a few common kinds, the reference values of which stand for plain trees. -/
def Ordinary (s : Store) : Fact → Prop
  | .always _ | .length _ _ _ => True
  | .equality c _ _ _ | .membership c | .range c _ => ∀ x ∈ s.slots c, x.Settled s
  | .all _ fs _ b => b = false ∧ OrdinaryAll s fs
  | .either _ f g b => b = false ∧ Ordinary s f ∧ Ordinary s g
  | .negation _ f _ b | .each _ f b | .labeled _ _ f b => b = false ∧ Ordinary s f
  | .lens _ a f b | .prism _ a f b => b = false ∧ a.Fixed s s ∧ Ordinary s f
  | .choice c none b => b = false ∧ ∀ x ∈ s.slots c, x.Settled s
  | .choice c (some f) b => b = false ∧ (∀ x ∈ s.slots c, x.Settled s) ∧ Ordinary s f
  | _ => False

/-- Whether several facts are ordinary. -/
def OrdinaryAll (s : Store) : List Fact → Prop
  | [] => True
  | f :: fs => Ordinary s f ∧ OrdinaryAll s fs

end

mutual

/-- Whether a value satisfies an ordinary fact. -/
def Meets (s : Store) : Fact → Value → Prop
  | .always _, _ => True
  | .equality c equal _ _, v => Matches s v s (s.slot c 0) ↔ equal = true
  | .membership c, v | .choice c none _, v => ∃ x ∈ s.slots c, Matches s x s v
  | .range c inside, v =>
    Range.contains (s.view (s.slot c 0)) (s.view (s.slot c 1)) (s.view v) = some inside
  | .all _ fs _ _, v => MeetsAll s fs v
  | .either _ f g _, v => Meets s f v ∨ Meets s g v
  | .negation _ f _ _, v => ¬ Meets s f v
  | .lens _ a f _, v => ∃ x, a.get s v = .ok x ∧ Meets s f x
  | .prism _ a f _, v => ∀ x, a.get s v = .ok x → x.isAbsent = false → Meets s f x
  | .each _ f _, v => ∀ xs, s.elements? v = some xs → ∀ x ∈ xs, Meets s f x
  | .length _ n _, v => ∀ xs, s.elements? v = some xs → (xs.length : Int) = n
  | .choice c (some f) _, v => (∃ x ∈ s.slots c, Matches s x s v) ∧ Meets s f v
  | .labeled _ _ f _, v => Meets s f v
  | _, _ => False

/-- Whether a value satisfies several facts. -/
def MeetsAll (s : Store) : List Fact → Value → Prop
  | [], _ => True
  | f :: fs, v => Meets s f v ∧ MeetsAll s fs v

end

section

variable {s t : Store} {w : World} {f : Fact} {fs : List Fact} {v x : Value} {c : Loc}

mutual

/-- Ordinary facts are formed and stateless, so checking them changes nothing. -/
theorem Ordinary.stateless : ∀ {f : Fact}, f.Ordinary s → f.Formed ∧ f.stateful = false
  | .always _, _ | .length _ _ _, _ | .equality _ _ _ _, _ | .membership _, _ | .range _ _, _ => ⟨trivial, rfl⟩
  | .all _ fs _ _, h => by
    obtain ⟨rfl, h⟩ := h
    obtain ⟨hformed, hany⟩ := OrdinaryAll.stateless h
    exact ⟨⟨hany.symm, hformed⟩, rfl⟩
  | .either _ f g _, h => by
    obtain ⟨rfl, hf, hg⟩ := h
    obtain ⟨hformed, hstateless⟩ := Ordinary.stateless hf
    obtain ⟨hformed', hstateless'⟩ := Ordinary.stateless hg
    exact ⟨⟨by rw [hstateless, hstateless']; rfl, hformed, hformed'⟩, rfl⟩
  | .negation _ f _ _, h => by
    obtain ⟨rfl, hf⟩ := h
    obtain ⟨hformed, hstateless⟩ := Ordinary.stateless hf
    exact ⟨⟨⟨rfl, hstateless⟩, hformed⟩, rfl⟩
  | .each _ f _, h | .labeled _ _ f _, h => by
    obtain ⟨rfl, hf⟩ := h
    obtain ⟨hformed, hstateless⟩ := Ordinary.stateless hf
    exact ⟨⟨hstateless.symm, hformed⟩, rfl⟩
  | .lens _ _ f _, h | .prism _ _ f _, h => by
    obtain ⟨rfl, -, hf⟩ := h
    obtain ⟨hformed, hstateless⟩ := Ordinary.stateless hf
    exact ⟨⟨hstateless.symm, hformed⟩, rfl⟩
  | .choice _ none _, h => by
    obtain ⟨rfl, -⟩ := h
    exact ⟨rfl, rfl⟩
  | .choice _ (some f) _, h => by
    obtain ⟨rfl, -, hf⟩ := h
    obtain ⟨hformed, hstateless⟩ := Ordinary.stateless hf
    exact ⟨⟨hstateless.symm, hformed⟩, rfl⟩
  | .never _ _, h | .pair _ _ _ _, h | .counter _, h | .distinct _ _ _, h | .mapped _ _ _ _ _, h
  | .predicate _ _ _, h | .brute _ _ _ _ _, h | .foreign _ _, h => h.elim

theorem OrdinaryAll.stateless : ∀ {fs : List Fact}, OrdinaryAll s fs → FormedAll fs ∧ fs.any stateful = false
  | [], _ => ⟨trivial, rfl⟩
  | f :: fs, h => by
    obtain ⟨hformed, hstateless⟩ := Ordinary.stateless h.1
    obtain ⟨hformed', hstateless'⟩ := OrdinaryAll.stateless h.2
    exact ⟨⟨hformed, hformed'⟩, by rw [List.any_cons, hstateless, hstateless']; rfl⟩

end

theorem Ordinary.quiet (h : f.Ordinary s) (v : Value) : Quiet (f.check v) :=
  quiet_check h.stateless.1 h.stateless.2 v

theorem OrdinaryAll.quiet (h : OrdinaryAll s fs) (i : Nat) (v : Value) : Quiet (checkAll fs i v) :=
  quiet_checkAll h.stateless.1 h.stateless.2 i v

/-- The values in the slots of an ordinary fact, the missing ones included. -/
theorem settled_slot (h : ∀ x ∈ s.slots c, x.Settled s) (i : Nat) : (s.slot c i).Settled s := by
  rw [Store.slot]
  cases hx : (s.slots c)[i]? with
  | none => exact .of_atom (a := .null) trivial
  | some x => exact h x (List.mem_of_getElem? hx)

/-- A part of a value that stands for a plain tree does so too. -/
theorem settled_part {a : Accessor} (hv : v.Settled s) (hs : s.Owned) (ha : a.Fixed s s) (hx : a.get s v = .ok x) :
    x.Settled s := by
  obtain ⟨y, -, hxy⟩ := hv.refl.part hs hs ha hx
  exact hxy.left

/-- The elements of a value that stands for a plain tree do so too. -/
theorem settled_elements {xs : List Value} (hv : v.Settled s) (hxs : s.elements? v = some xs) :
    ∀ x ∈ xs, x.Settled s := by
  intro x hx
  obtain ⟨ys, -, y, -, hxy⟩ := hv.refl.element hxs hx
  exact hxy.left

/-! ## The verdict -/

/-- Several verdicts are yes together if and only if all of the values meet what is asked of them. -/
theorem every_iff {test : Value → Option Bool} {p : Value → Prop} {xs : List Value} {b : Bool}
    (h : ∀ x ∈ xs, ∀ b, test x = some b → (b = true ↔ p x)) (hb : every test xs = some b) :
    b = true ↔ ∀ x ∈ xs, p x := by
  induction xs generalizing b with
  | nil =>
    cases hb
    exact iff_of_true rfl (List.forall_mem_nil _)
  | cons x xs ih =>
    obtain ⟨hhead, htail⟩ := List.forall_mem_cons.mp h
    obtain ⟨b₁, b₂, hb₁, hb₂, rfl⟩ := Option.map₂_eq_some_iff.mp hb
    rw [Bool.and_eq_true, hhead b₁ hb₁, ih htail hb₂, List.forall_mem_cons]

theorem meets_equality {equal b : Bool} {x : Value} (hv : v.Settled s) (hx : x.Settled s)
    (h : (s.equal? v x).map (· == equal) = some b) : b = true ↔ (Matches s v s x ↔ equal = true) := by
  obtain ⟨same, hsame, rfl⟩ := Option.map_eq_some_iff.mp h
  rw [← Store.equal?_iff hv hx hsame, beq_iff_eq, Bool.eq_iff_iff]

/-- What is asked of a part that is read is asked of the one part that there is. -/
theorem exists_part_iff {a : Accessor} {p : Value → Prop} (hx : a.get s v = .ok x) :
    (∃ y, a.get s v = .ok y ∧ p y) ↔ p x := by
  constructor
  · rintro ⟨y, hy, hp⟩
    cases hx.symm.trans hy
    exact hp
  · exact fun hp => ⟨x, hx, hp⟩

theorem forall_part_iff {a : Accessor} {p : Value → Prop} (hx : a.get s v = .ok x) :
    (∀ y, a.get s v = .ok y → p y) ↔ p x := by
  constructor
  · exact fun hp => hp x hx
  · intro hp y hy
    cases hx.symm.trans hy
    exact hp

mutual

/-- The verdict on a value, where there is one, is whether the value meets the fact. -/
theorem meets_of_verdict (hs : s.Owned) : ∀ {f : Fact}, f.Ordinary s → ∀ {v : Value}, v.Settled s → ∀ {b : Bool},
    f.verdict? s v = some b → (b = true ↔ f.Meets s v)
  | .always _, _, _, _, _, h => by
    cases h
    exact iff_of_true rfl trivial
  | .equality c equal _ _, h, v, hv, b, hb => meets_equality hv (settled_slot h 0) hb
  | .membership c, h, v, hv, b, hb => Store.isIn?_iff hv h hb
  | .range c inside, _, v, _, b, hb => by
    cases hb
    exact beq_iff_eq
  | .all _ fs _ _, h, v, hv, b, hb => meetsAll_of_verdict hs h.2 hv hb
  | .either _ f g _, h, v, hv, b, hb => by
    obtain ⟨b₁, b₂, hb₁, hb₂, rfl⟩ := Option.map₂_eq_some_iff.mp hb
    rw [Bool.or_eq_true, meets_of_verdict hs h.2.1 hv hb₁, meets_of_verdict hs h.2.2 hv hb₂, Meets]
  | .negation _ f _ _, h, v, hv, b, hb => by
    obtain ⟨b', hb', rfl⟩ := Option.map_eq_some_iff.mp hb
    rw [Meets, ← meets_of_verdict hs h.2 hv hb', Bool.not_eq_true', Bool.not_eq_true]
  | .lens _ a f _, h, v, hv, b, hb => by
    simp only [verdict?] at hb
    rw [Meets]
    split at hb
    · next x hx =>
      rw [exists_part_iff hx]
      exact meets_of_verdict hs h.2.2 (settled_part hv hs h.2.1 hx) hb
    · next e he =>
      split at hb
      · cases hb
        refine iff_of_false Bool.false_ne_true ?_
        rintro ⟨y, hy, -⟩
        cases he.symm.trans hy
      · cases hb
  | .prism _ a f _, h, v, hv, b, hb => by
    simp only [verdict?] at hb
    rw [Meets]
    split at hb
    · next x hx =>
      rw [forall_part_iff hx]
      split at hb
      · next habsent =>
        cases hb
        rw [habsent]
        exact iff_of_true rfl fun hpresent => by cases hpresent
      · next hpresent =>
        rw [meets_of_verdict hs h.2.2 (settled_part hv hs h.2.1 hx) hb]
        exact (imp_iff_right (Bool.eq_false_iff.mpr hpresent)).symm
    · next e he =>
      split at hb
      · cases hb
        refine iff_of_true rfl fun y hy => ?_
        cases he.symm.trans hy
      · cases hb
  | .each _ f _, h, v, hv, b, hb => by
    obtain ⟨xs, hxs, hb⟩ := Option.bind_eq_some_iff.mp hb
    have hall := every_iff (fun x hx b => meets_of_verdict hs h.2 (settled_elements hv hxs x hx)) hb
    simp only [Meets, hxs, Option.some.injEq, forall_eq', hall]
  | .length _ n _, _, v, _, b, hb => by
    obtain ⟨xs, hxs, rfl⟩ := Option.map_eq_some_iff.mp hb
    simp only [Meets, hxs, Option.some.injEq, forall_eq', beq_iff_eq]
  | .choice c none _, h, v, hv, b, hb => Store.isIn?_iff hv h.2 hb
  | .choice c (some f) _, h, v, hv, b, hb => by
    obtain ⟨b₁, b₂, hb₁, hb₂, rfl⟩ := Option.map₂_eq_some_iff.mp hb
    rw [Bool.and_eq_true, Store.isIn?_iff hv h.2.1 hb₁, meets_of_verdict hs h.2.2 hv hb₂, Meets]
  | .labeled _ _ f _, h, v, hv, b, hb => by
    rw [Meets]
    exact meets_of_verdict hs h.2 hv hb
  | .never _ _, h, _, _, _, _ | .pair _ _ _ _, h, _, _, _, _ | .counter _, h, _, _, _, _
  | .distinct _ _ _, h, _, _, _, _ | .mapped _ _ _ _ _, h, _, _, _, _ | .predicate _ _ _, h, _, _, _, _
  | .brute _ _ _ _ _, h, _, _, _, _ | .foreign _ _, h, _, _, _, _ => h.elim

theorem meetsAll_of_verdict (hs : s.Owned) : ∀ {fs : List Fact}, OrdinaryAll s fs → ∀ {v : Value}, v.Settled s →
    ∀ {b : Bool}, verdictAll? s fs v = some b → (b = true ↔ MeetsAll s fs v)
  | [], _, _, _, _, h => by
    cases h
    exact iff_of_true rfl trivial
  | f :: fs, hf, v, hv, b, hb => by
    obtain ⟨b₁, b₂, hb₁, hb₂, rfl⟩ := Option.map₂_eq_some_iff.mp hb
    rw [Bool.and_eq_true, meets_of_verdict hs hf.1 hv hb₁, meetsAll_of_verdict hs hf.2 hv hb₂, MeetsAll]

end

/-- A check of a value passes if and only if the value meets the fact. -/
theorem Judges.meets {b : Bool} (h : f.Judges w v b) (hs : w.store.Owned) (hf : f.Ordinary w.store)
    (hv : v.Settled w.store) : b = true ↔ f.Meets w.store v :=
  meets_of_verdict hs hf hv (h.verdict hf.stateless.1 hf.stateless.2)

/-! ## Verdicts on values that match -/

theorem Fixed.keep {a : Accessor} (h : a.Fixed s s) (hk : Retains s t) : a.Fixed s t ∧ a.Fixed t t := by
  cases a with
  | attr | optionalAttr => exact ⟨trivial, trivial⟩
  | item shown key =>
    rcases h with hatom | hkey
    · exact ⟨.inl hatom, .inl hatom⟩
    · have hmatch := hk.values key hkey.left
      exact ⟨.inr hmatch, .inr (hmatch.symm.trans hmatch)⟩
  | variant | custom => exact h.elim

theorem settled_slots_keep (h : ∀ x ∈ s.slots c, x.Settled s) (hk : Retains s t) : ∀ x ∈ t.slots c, x.Settled t := by
  rw [hk.slots]
  exact fun x hx => (hk.values x (h x hx)).right

mutual

theorem Ordinary.keep (hk : Retains s t) : ∀ {f : Fact}, f.Ordinary s → f.Ordinary t
  | .always _, _ | .length _ _ _, _ => trivial
  | .equality _ _ _ _, h | .membership _, h | .range _ _, h => settled_slots_keep h hk
  | .all _ _ _ _, h => ⟨h.1, OrdinaryAll.keep hk h.2⟩
  | .either _ _ _ _, h => ⟨h.1, Ordinary.keep hk h.2.1, Ordinary.keep hk h.2.2⟩
  | .negation _ _ _ _, h | .each _ _ _, h | .labeled _ _ _ _, h => ⟨h.1, Ordinary.keep hk h.2⟩
  | .lens _ _ _ _, h | .prism _ _ _ _, h => ⟨h.1, (Fixed.keep h.2.1 hk).2, Ordinary.keep hk h.2.2⟩
  | .choice _ none _, h => ⟨h.1, settled_slots_keep h.2 hk⟩
  | .choice _ (some _) _, h => ⟨h.1, settled_slots_keep h.2.1 hk, Ordinary.keep hk h.2.2⟩
  | .never _ _, h | .pair _ _ _ _, h | .counter _, h | .distinct _ _ _, h | .mapped _ _ _ _ _, h
  | .predicate _ _ _, h | .brute _ _ _ _ _, h | .foreign _ _, h => h.elim

theorem OrdinaryAll.keep (hk : Retains s t) : ∀ {fs : List Fact}, OrdinaryAll s fs → OrdinaryAll t fs
  | [], _ => trivial
  | _ :: _, h => ⟨Ordinary.keep hk h.1, OrdinaryAll.keep hk h.2⟩

end

/-- A range holds equal contents alike. -/
theorem contains_congr {low low' high high' d d' : Data} (hlow : Data.Same low low') (hhigh : Data.Same high high')
    (hd : Data.Same d d') : Range.contains low high d = Range.contains low' high' d' := by
  simp only [Range.contains, Data.isNaN, hd.equal_congr hd, hlow.className, hhigh.className, hd.less?_congr hlow,
    hhigh.less?_congr hd]
  rfl

/-- Being among the values of a cell. -/
theorem among_congr (h : ∀ x ∈ s.slots c, x.Settled s) (hk : Retains s t) {x : Value} (hm : Matches s v t x) :
    (∃ y ∈ s.slots c, Matches s y s v) ↔ ∃ y ∈ t.slots c, Matches t y t x := by
  rw [hk.slots]
  constructor
  · rintro ⟨y, hy, hyv⟩
    exact ⟨y, hy, ((hk.values y (h y hy)).symm.trans hyv).trans hm⟩
  · rintro ⟨y, hy, hyx⟩
    exact ⟨y, hy, ((hk.values y (h y hy)).trans hyx).trans hm.symm⟩

mutual

/-- Values that match meet the same facts, also in a store that keeps the contents of the first. -/
theorem meets_congr (hk : Retains s t) (hs : s.Owned) : ∀ {f : Fact}, f.Ordinary s → ∀ {v x : Value},
    Matches s v t x → (f.Meets s v ↔ f.Meets t x)
  | .always _, _, _, _, _ => Iff.rfl
  | .equality c equal _ _, h, v, x, hm => by
    have hslot := hk.values _ (settled_slot h 0)
    rw [Meets, Meets, hk.slot]
    have hmatches : Matches s v s (s.slot c 0) ↔ Matches t x t (s.slot c 0) := by
      constructor
      · exact fun hv => (hm.symm.trans hv).trans hslot
      · exact fun hx => (hm.trans hx).trans hslot.symm
    rw [hmatches]
  | .membership c, h, v, x, hm => among_congr h hk hm
  | .range c inside, h, v, x, hm => by
    rw [Meets, Meets, hk.slot, hk.slot, contains_congr (hk.values _ (settled_slot h 0)).view
      (hk.values _ (settled_slot h 1)).view hm.view]
  | .all _ fs _ _, h, v, x, hm => meetsAll_congr hk hs h.2 hm
  | .either _ f g _, h, v, x, hm => by
    rw [Meets, Meets, meets_congr hk hs h.2.1 hm, meets_congr hk hs h.2.2 hm]
  | .negation _ f _ _, h, v, x, hm => by
    rw [Meets, Meets, meets_congr hk hs h.2 hm]
  | .lens _ a f _, h, v, x, hm => by
    have ha := (Fixed.keep h.2.1 hk).1
    rw [Meets, Meets]
    constructor
    · rintro ⟨y, hy, hmeets⟩
      obtain ⟨z, hz, hyz⟩ := hm.part hs (hk.owned hs) ha hy
      exact ⟨z, hz, (meets_congr hk hs h.2.2 hyz).mp hmeets⟩
    · rintro ⟨z, hz, hmeets⟩
      obtain ⟨y, hy, hzy⟩ := hm.symm.part (hk.owned hs) hs ha.symm hz
      exact ⟨y, hy, (meets_congr hk hs h.2.2 hzy.symm).mpr hmeets⟩
  | .prism _ a f _, h, v, x, hm => by
    have ha := (Fixed.keep h.2.1 hk).1
    rw [Meets, Meets]
    constructor
    · intro hmeets z hz hpresent
      obtain ⟨y, hy, hzy⟩ := hm.symm.part (hk.owned hs) hs ha.symm hz
      exact (meets_congr hk hs h.2.2 hzy.symm).mp (hmeets y hy (hzy.isAbsent.symm.trans hpresent))
    · intro hmeets y hy hpresent
      obtain ⟨z, hz, hyz⟩ := hm.part hs (hk.owned hs) ha hy
      exact (meets_congr hk hs h.2.2 hyz).mpr (hmeets z hz (hyz.isAbsent.symm.trans hpresent))
  | .each _ f _, h, v, x, hm => by
    rw [Meets, Meets]
    constructor
    · intro hmeets zs hzs z hz
      obtain ⟨ys, hys, y, hy, hzy⟩ := hm.symm.element hzs hz
      exact (meets_congr hk hs h.2 hzy.symm).mp (hmeets ys hys y hy)
    · intro hmeets ys hys y hy
      obtain ⟨zs, hzs, z, hz, hyz⟩ := hm.element hys hy
      exact (meets_congr hk hs h.2 hyz).mpr (hmeets zs hzs z hz)
  | .length _ n _, _, v, x, hm => by
    rw [Meets, Meets]
    rcases hm.elements with ⟨hnone, hnone'⟩ | ⟨xs, ys, ⟨hxs, hys⟩, hlength, -⟩
    · rw [hnone, hnone']
    · rw [hxs, hys]
      constructor
      · rintro hn _ ⟨⟩
        rw [← hlength]
        exact hn xs rfl
      · rintro hn _ ⟨⟩
        rw [hlength]
        exact hn ys rfl
  | .choice c none _, h, v, x, hm => among_congr h.2 hk hm
  | .choice c (some f) _, h, v, x, hm => by
    rw [Meets, Meets, among_congr h.2.1 hk hm, meets_congr hk hs h.2.2 hm]
  | .labeled _ _ f _, h, v, x, hm => by
    rw [Meets, Meets, meets_congr hk hs h.2 hm]
  | .never _ _, h, _, _, _ | .pair _ _ _ _, h, _, _, _ | .counter _, h, _, _, _ | .distinct _ _ _, h, _, _, _
  | .mapped _ _ _ _ _, h, _, _, _ | .predicate _ _ _, h, _, _, _ | .brute _ _ _ _ _, h, _, _, _
  | .foreign _ _, h, _, _, _ => h.elim

theorem meetsAll_congr (hk : Retains s t) (hs : s.Owned) : ∀ {fs : List Fact}, OrdinaryAll s fs → ∀ {v x : Value},
    Matches s v t x → (MeetsAll s fs v ↔ MeetsAll t fs x)
  | [], _, _, _, _ => Iff.rfl
  | f :: fs, h, v, x, hm => by
    rw [MeetsAll, MeetsAll, meets_congr hk hs h.1 hm, meetsAll_congr hk hs h.2 hm]

end

end

end Fact

end Conform
