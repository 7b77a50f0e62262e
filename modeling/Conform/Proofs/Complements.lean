import Conform.Proofs.Founding
import Conform.Proofs.Leaves

/-!
# Complements

What a fact reports of a value and what its complement reports are compared by their verdicts alone. A fact and its
complement never pass together (`Fact.Opposes.verdict`), and one of them passes wherever the fact is defined
(`Fact.Defined`): every lens on the way finds its part, and a range meets what it can be compared with.

The relation behind this is `Fact.Opposes`. It says how the tree of a complement is made from that of the fact, up to
labels; what is proved of verdicts is proved by induction on it.
-/

namespace Conform

open Act

namespace Store

variable {s t : Store} {c : Loc}

theorem Extends.slots (h : s.Extends t) (hc : c < s.size) : t.slots c = s.slots c := by
  obtain ⟨o, ho⟩ := exists_get? hc
  rw [Store.slots, Store.slots, ho, h.grows _ _ ho]

theorem slot_eq_of_slots {d : Loc} (h : s.slots d = s.slots c) (i : Nat) : s.slot d i = s.slot c i := by
  rw [slot, slot, h]

end Store

namespace Fact

section

variable {s t : Store} {w : World} {f g : Fact} {v : Value} {b : Bool}

variable {c : Loc} {name : String} {n : Int}

theorem within?_congr {d : Loc} (h : s.slots d = s.slots c) : within? s d v = within? s c v := by
  rw [within?, within?, Store.slot_eq_of_slots h, Store.slot_eq_of_slots h]

/-! ## Where a fact is defined -/

/-- Whether a fact is defined on a value: every lens on the way finds its part, and a range meets a value that can be
compared with its ends. -/
def Defined (s : Store) : Fact → Value → Prop
  | .range c _, v => (within? s c v).isSome
  | .lens _ a f _, v => ∃ x, a.get s v = .ok x ∧ f.Defined s x
  | .labeled _ _ f _, v => f.Defined s v
  | _, _ => True

/-! ## The tree of a complement -/

/-- The fact without its labels. -/
def bare : Fact → Fact
  | .labeled _ _ f _ => f.bare
  | f => f

theorem judges_bare : ∀ {f : Fact}, f.bare.Judges w v b ↔ f.Judges w v b
  | .labeled _ _ f _ => (judges_bare (f := f)).trans judges_labeled.symm
  | .always _ | .never _ _ | .equality _ _ _ _ | .membership _ | .range _ _ | .pair _ _ _ _ | .counter _
  | .distinct _ _ _ | .all _ _ _ _ | .either _ _ _ _ | .negation _ _ _ _ | .lens _ _ _ _ | .prism _ _ _ _
  | .each _ _ _ | .length _ _ _ | .mapped _ _ _ _ _ | .predicate _ _ _ | .brute _ _ _ _ _ | .choice _ _ _
  | .foreign _ _ => Iff.rfl

theorem verdict?_bare : ∀ f : Fact, f.bare.verdict? s v = f.verdict? s v
  | .labeled _ _ f _ => verdict?_bare f
  | .always _ | .never _ _ | .equality _ _ _ _ | .membership _ | .range _ _ | .pair _ _ _ _ | .counter _
  | .distinct _ _ _ | .all _ _ _ _ | .either _ _ _ _ | .negation _ _ _ _ | .lens _ _ _ _ | .prism _ _ _ _
  | .each _ _ _ | .length _ _ _ | .mapped _ _ _ _ _ | .predicate _ _ _ | .brute _ _ _ _ _ | .choice _ _ _
  | .foreign _ _ => rfl

theorem Formed.bare : ∀ {f : Fact}, f.Formed → f.bare.Formed ∧ f.bare.stateful = f.stateful
  | .labeled _ _ f _, h => ⟨(Formed.bare (f := f) h.2).1, (Formed.bare (f := f) h.2).2.trans h.1.symm⟩
  | .always _, h | .never _ _, h | .equality _ _ _ _, h | .membership _, h | .range _ _, h | .pair _ _ _ _, h
  | .counter _, h | .distinct _ _ _, h | .all _ _ _ _, h | .either _ _ _ _, h | .negation _ _ _ _, h
  | .lens _ _ _ _, h | .prism _ _ _ _, h | .each _ _ _, h | .length _ _ _, h | .mapped _ _ _ _ _, h
  | .predicate _ _ _, h | .brute _ _ _ _ _, h | .choice _ _ _, h | .foreign _ _, h => ⟨h, rfl⟩

/-- Whether the tree of the second fact is that of the complement of the first, up to labels. Leaves that are asked
the opposite question have the same reference values. -/
inductive Opposes (s : Store) : Fact → Fact → Prop
  | always {c d : Loc} {reason : String} : Opposes s (.always c) (.never d reason)
  | never {c d : Loc} {reason : String} : Opposes s (.never c reason) (.always d)
  | equality {c d : Loc} {equal : Bool} {g g' : Option Generator} {n n' : Int} (h : s.slots d = s.slots c) :
    Opposes s (.equality c equal g n) (.equality d (!equal) g' n')
  | range {c d : Loc} {inside : Bool} (h : s.slots d = s.slots c) :
    Opposes s (.range c inside) (.range d (!inside))
  | pair {c d : Loc} {equal : Bool} {g g' : Option Generator} {n n' : Int} :
    Opposes s (.pair c equal g n) (.pair d (!equal) g' n')
  | negation {c : Loc} {f g : Fact} {n : Int} {b : Bool} (h : g.bare = f.bare) : Opposes s (.negation c f n b) g
  | lens {c d : Loc} {a : Accessor} {f g : Fact} {b b' : Bool} (h : Opposes s f g) :
    Opposes s (.lens c a f b) (.lens d a g b')
  | labeled {c : Loc} {name : String} {f g : Fact} {b : Bool} (h : Opposes s f g) : Opposes s (.labeled c name f b) g
  | named {f g : Fact} {d : Loc} {name : String} {b : Bool} (h : Opposes s f g) : Opposes s f (.labeled d name g b)

theorem Opposes.of_labeled (h : Opposes s f g) : ∀ {d name g' b}, g = .labeled d name g' b → Opposes s f g' := by
  induction h with
  | negation hbare =>
    rintro d name g' b rfl
    exact .negation hbare
  | labeled h ih => exact fun heq => .labeled (ih heq)
  | named h ih =>
    rintro d name g' b ⟨⟩
    exact h
  | _ => rintro d name g' b ⟨⟩

/-- Only what the cells of the two facts hold matters. -/
theorem Opposes.congr (h : Opposes s f g) (hst : ∀ l ∈ f.cells ++ g.cells, t.slots l = s.slots l) :
    Opposes t f g := by
  induction h with
  | always => exact .always
  | never => exact .never
  | @equality c d _ _ _ _ _ h =>
    refine .equality ?_
    rw [hst c (by simp [cells, cell]), hst d (by simp [cells, cell]), h]
  | @range c d _ h =>
    refine .range ?_
    rw [hst c (by simp [cells, cell]), hst d (by simp [cells, cell]), h]
  | pair => exact .pair
  | negation h => exact .negation h
  | lens _ ih =>
    refine .lens (ih fun l hl => hst l ?_)
    simp only [cells, List.mem_append, List.mem_cons] at hl ⊢
    exact hl.imp .inr .inr
  | labeled _ ih =>
    refine .labeled (ih fun l hl => hst l ?_)
    simp only [cells, List.mem_append, List.mem_cons] at hl ⊢
    exact hl.imp_left .inr
  | named _ ih =>
    refine .named (ih fun l hl => hst l ?_)
    simp only [cells, List.mem_append, List.mem_cons] at hl ⊢
    exact hl.imp_right .inr

/-! ## Opposite verdicts -/

/-- What fails a fact that is defined on it passes its complement. -/
theorem Opposes.passes (h : Opposes w.store f g) (hdefined : f.Defined w.store v) (hf : f.Judges w v false) :
    g.Judges w v true := by
  induction h generalizing v with
  | always => exact absurd (judges_always.mp hf) Bool.false_ne_true
  | never => exact judges_always.mpr rfl
  | @equality c d equal _ _ _ _ h =>
    refine judges_equality ?_
    rw [Store.slot_eq_of_slots h, hf.equality]
    cases equal <;> rfl
  | @range c d inside h =>
    refine judges_range ?_
    rw [within?_congr h]
    -- a value that cannot be compared with the ends fails as well, but there the fact is not defined
    obtain ⟨within, hwithin⟩ := Option.isSome_iff_exists.mp hdefined
    have hother := hf.range
    rw [hwithin] at hother ⊢
    cases within <;> cases inside <;> first | rfl | cases hother
  | @pair c d equal =>
    obtain ⟨x, y, hitems, hequal⟩ := hf.pair
    refine judges_pair hitems ?_
    rw [hequal]
    cases equal <;> rfl
  -- the complement of a negation is the negated fact, which may have got other labels
  | negation h =>
    rw [← judges_bare, h, judges_bare]
    exact hf.negation
  | lens h ih =>
    obtain ⟨x, hx, hdefined⟩ := hdefined
    rcases judges_lens.mp hf with ⟨y, hy, hf⟩ | ⟨-, e, he, -⟩
    · cases hx.symm.trans hy
      exact judges_lens.mpr (.inl ⟨x, hx, ih hdefined hf⟩)
    · cases hx.symm.trans he
  | labeled h ih => exact ih hdefined (judges_labeled.mp hf)
  | named h ih => exact judges_labeled.mpr (ih hdefined hf)

/-- What passes a fact fails its complement. -/
theorem Opposes.verdict (h : Opposes s f g) (hf : f.verdict? s v = some true) : g.verdict? s v = some false := by
  induction h generalizing v with
  | always => rfl
  | never => cases hf
  | @equality c d equal _ _ _ _ h =>
    rw [verdict?] at hf ⊢
    rw [Store.slot_eq_of_slots h]
    obtain ⟨b, hb, heq⟩ := Option.map_eq_some_iff.mp hf
    rw [hb]
    cases b <;> cases equal <;> first | rfl | cases heq
  | @range c d inside h =>
    rw [verdict?] at hf ⊢
    rw [within?_congr h, eq_of_beq (Option.some.inj hf)]
    cases inside <;> rfl
  | @pair c d equal =>
    rw [verdict?] at hf ⊢
    split at hf
    · next x y hxy =>
      obtain ⟨b, hb, heq⟩ := Option.map_eq_some_iff.mp hf
      rw [hb]
      cases b <;> cases equal <;> first | rfl | cases heq
    · cases hf
  | negation h =>
    rw [verdict?] at hf
    obtain ⟨b, hb, hnot⟩ := Option.map_eq_some_iff.mp hf
    cases b
    · rw [← verdict?_bare, h, verdict?_bare, hb]
    · cases hnot
  | lens _ ih =>
    simp only [verdict?] at hf ⊢
    split at hf
    · next x hx => exact ih hf
    · split at hf <;> cases hf
  | labeled _ ih => exact ih hf
  | named _ ih => exact ih hf

/-- A fact that has a complement is stateless, and so is the complement. -/
theorem Opposes.stateless (h : Opposes s f g) (hf : f.Formed) (hg : g.Formed) :
    f.stateful = false ∧ g.stateful = false := by
  induction h with
  | negation h =>
    refine ⟨hf.1.1, ?_⟩
    rw [← hg.bare.2, h, hf.2.bare.2]
    exact hf.1.2
  | lens _ ih =>
    obtain ⟨hinner, hinner'⟩ := ih hf.2 hg.2
    exact ⟨hf.1.trans hinner, hg.1.trans hinner'⟩
  | labeled _ ih => exact ⟨hf.1.trans (ih hf.2 hg).1, (ih hf.2 hg).2⟩
  | named _ ih => exact ⟨(ih hf hg.2).1, hg.1.trans (ih hf hg.2).2⟩
  | _ => exact ⟨rfl, rfl⟩

/-- No value passes both a fact and its complement. -/
theorem Opposes.disjoint (h : Opposes w.store f g) (hf : f.Formed) (hg : g.Formed) (hpasses : f.Judges w v true) :
    ¬ g.Judges w v true := by
  intro hboth
  obtain ⟨hs, hs'⟩ := h.stateless hf hg
  have hfails := h.verdict (hpasses.verdict hf hs)
  cases hfails.symm.trans (hboth.verdict hg hs')

/-- Where a fact is defined, its verdict and that of its complement are opposite. -/
theorem Opposes.opposite {b' : Bool} (h : Opposes w.store f g) (hf : f.Formed) (hg : g.Formed)
    (hdefined : f.Defined w.store v) (hjudges : f.Judges w v b) (hjudges' : g.Judges w v b') : b' = !b := by
  cases b with
  | false => exact hjudges'.unique (h.passes hdefined hjudges)
  | true => exact Bool.eq_false_iff.mpr fun hb => h.disjoint hf hg hjudges (hb ▸ hjudges')

/-- Where one of a fact and its complement passes, the fact is defined. -/
theorem Opposes.defined (h : Opposes w.store f g) (hpasses : f.Judges w v true ∨ g.Judges w v true) :
    f.Defined w.store v := by
  induction h generalizing v with
  | @range c d inside h =>
    rcases hpasses with hpasses | hpasses
    · rw [Defined, hpasses.within]
      rfl
    · rw [Defined, ← within?_congr h, hpasses.within]
      rfl
  | lens h ih =>
    rcases hpasses with hpasses | hpasses
    · obtain ⟨x, hx, hpasses⟩ := hpasses.part
      exact ⟨x, hx, ih (.inl hpasses)⟩
    · obtain ⟨x, hx, hpasses⟩ := hpasses.part
      exact ⟨x, hx, ih (.inr hpasses)⟩
  | labeled h ih => exact ih (hpasses.imp_left judges_labeled.mp)
  | named h ih => exact ih (hpasses.imp_right judges_labeled.mp)
  | _ => trivial

/-! ## Making a complement -/

/-- What holds of a complement in the store that it is made in. -/
structure Answers (s : Store) (f g : Fact) : Prop where
  formed : g.Formed
  bounded : ∀ l ∈ g.cells, l < s.size
  opposes : Opposes s f g

theorem Answers.mono (h : Answers s f g) (hf : ∀ l ∈ f.cells, l < s.size) (hst : s.Extends t) : Answers t f g where
  formed := h.formed
  bounded := fun l hl => Nat.lt_of_lt_of_le (h.bounded l hl) hst.size_le
  opposes := by
    refine h.opposes.congr fun l hl => hst.slots ?_
    rcases List.mem_append.mp hl with hl | hl
    · exact hf l hl
    · exact h.bounded l hl

theorem founds_twinCell (hc : c < s.size) : Founds s (twinCell c) fun t d => t.slots d = t.slots c ∧ d < t.size := by
  rintro w d u rfl hrun
  obtain ⟨vs, w', hvs, halloc⟩ := exec_bind_ok hrun
  cases hvs
  cases halloc
  have hext := Store.Extends.alloc w.store (.slots (w.store.slots c))
  have hnew := Store.get?_alloc_new (s := w.store) (o := .slots (w.store.slots c))
  refine ⟨hext, ?_, Store.lt_size_of_get? hnew⟩
  exact (Store.slots_of_get? hnew).trans (hext.slots hc).symm

theorem founds_emptyCell : Founds s emptyCell fun t d => d < t.size := by
  rintro w d u rfl ⟨⟩
  exact ⟨.alloc _ _, Store.lt_size_of_get? Store.get?_alloc_new⟩

/-- A label in the place of another one changes nothing about what the fact opposes. -/
theorem founds_relabel (hf : ∀ l ∈ f.cells, l < s.size) (h : Answers s f g) :
    Founds s (relabel name g) fun t g' => Answers t f g' := by
  have hlabel : ∀ {g' : Fact}, Answers s f g' →
      ∀ t, s.Extends t → ∀ d < t.size, Founds t (pure (.labeled d name g' g'.stateful)) fun t g' => Answers t f g' := by
    intro g' h t hst d hd
    have h := h.mono hf hst
    refine founds_pure ⟨⟨rfl, h.formed⟩, fun l hl => ?_, .named h.opposes⟩
    rcases List.mem_cons.mp hl with rfl | hl
    · exact hd
    · exact h.bounded l hl
  refine founds_emptyCell.bind fun d t hst hd => ?_
  -- a label on the outside gives way to the new one
  split
  · next c label inner noted =>
    refine hlabel ⟨h.formed.2, fun l hl => h.bounded l (List.mem_cons_of_mem _ hl), ?_⟩ t hst d hd
    exact h.opposes.of_labeled rfl
  · exact hlabel h t hst d hd

/-- A complement has the tree that opposes that of the fact. -/
theorem founds_complement : ∀ {f : Fact} {s : Store}, f.Formed → (∀ l ∈ f.cells, l < s.size) →
    Founds s f.complement fun t o => ∀ g, o = some g → Answers t f g
  | .always _, _, _, _ => founds_emptyCell.bind fun d t _ hd => founds_pure (by
      rintro g ⟨⟩
      exact ⟨trivial, by simpa [cells, cell] using hd, .always⟩)
  | .never _ _, _, _, _ => founds_emptyCell.bind fun d t _ hd => founds_pure (by
      rintro g ⟨⟩
      exact ⟨trivial, by simpa [cells, cell] using hd, .never⟩)
  | .equality c _ _ _, _, _, hc => (founds_twinCell (hc c (by simp [cells, cell]))).bind fun d t _ hd => founds_pure (by
      rintro g ⟨⟩
      exact ⟨trivial, by simpa [cells, cell] using hd.2, .equality hd.1⟩)
  | .range c _, _, _, hc => (founds_twinCell (hc c (by simp [cells, cell]))).bind fun d t _ hd => founds_pure (by
      rintro g ⟨⟩
      exact ⟨trivial, by simpa [cells, cell] using hd.2, .range hd.1⟩)
  | .pair _ _ _ _, _, _, _ => founds_emptyCell.bind fun d t _ hd => founds_pure (by
      rintro g ⟨⟩
      exact ⟨trivial, by simpa [cells, cell] using hd, .pair⟩)
  | .negation _ f _ _, _, hf, hc => founds_pure (by
      rintro g ⟨⟩
      exact ⟨hf.2, fun l hl => hc l (List.mem_cons_of_mem _ hl), .negation rfl⟩)
  | .lens _ _ f _, s, hf, hc => by
    have hcells : ∀ l ∈ f.cells, l < s.size := fun l hl => hc l (List.mem_cons_of_mem _ hl)
    refine (founds_complement hf.2 hcells).bind fun o t hst ho => ?_
    cases o with
    | none => exact founds_pure nofun
    | some g =>
      refine founds_emptyCell.bind fun d u htu hd => founds_pure ?_
      have h := (ho g rfl).mono (fun l hl => Nat.lt_of_lt_of_le (hcells l hl) hst.size_le) htu
      rintro g' ⟨⟩
      refine ⟨⟨rfl, h.formed⟩, fun l hl => ?_, .lens h.opposes⟩
      rcases List.mem_cons.mp hl with rfl | hl
      · exact hd
      · exact h.bounded l hl
  | .labeled _ name f _, s, hf, hc => by
    have hcells : ∀ l ∈ f.cells, l < s.size := fun l hl => hc l (List.mem_cons_of_mem _ hl)
    refine (founds_complement (f := f) hf.2 hcells).bind fun o t hst ho => ?_
    cases o with
    | none => exact founds_pure nofun
    | some g =>
      have hrelabel : Founds t (relabel (call "not" name) g) fun t g' => Answers t f g' :=
        founds_relabel (fun l hl => Nat.lt_of_lt_of_le (hcells l hl) hst.size_le) (ho g rfl)
      refine hrelabel.bind fun g' u _ h => founds_pure ?_
      rintro g'' ⟨⟩
      exact ⟨h.formed, h.bounded, .labeled h.opposes⟩
  | .foreign _ _, _, hf, _ => hf.elim
  | .membership _, _, _, _ | .counter _, _, _, _ | .distinct _ _ _, _, _, _ | .all _ _ _ _, _, _, _
  | .either _ _ _ _, _, _, _ | .prism _ _ _ _, _, _, _ | .each _ _ _, _, _, _ | .length _ _ _, _, _, _
  | .mapped _ _ _ _ _, _, _, _ | .predicate _ _ _, _, _, _ | .brute _ _ _ _ _, _, _, _
  | .choice _ _ _, _, _, _ => by
    unfold complement
    exact founds_pure nofun

/-- Whether a fact was answered as the complement of another one, and the cells of both hold what they held then. -/
def IsComplement (s : Store) (f g : Fact) : Prop :=
  ∃ w u, (∀ l ∈ f.cells, l < w.store.size) ∧ exec f.complement w = (.ok (some g), u) ∧
    ∀ l ∈ f.cells ++ g.cells, s.slots l = u.store.slots l

theorem IsComplement.opposes (hf : f.Formed) (h : IsComplement s f g) : g.Formed ∧ Opposes s f g := by
  obtain ⟨w, u, hcells, hrun, hslots⟩ := h
  obtain ⟨-, hanswers⟩ := founds_complement hf hcells w (some g) u rfl hrun
  exact ⟨(hanswers g rfl).formed, (hanswers g rfl).opposes.congr hslots⟩

/-- A fact and its complement `g` never pass together, and one of them passes exactly where the fact is defined. The
complement of the complement passes where the fact does, if both are defined there, and never reports otherwise. -/
theorem complement_exact {r t : Report} {z z' : World} (hf : f.Formed) (hg : IsComplement w.store f g)
    (hr : exec (f.check v) w = (.ok r, z)) (ht : exec (g.check v) w = (.ok t, z')) :
    ¬ (r.ok = true ∧ t.ok = true) ∧ (r.ok = true ∨ t.ok = true ↔ f.Defined w.store v) ∧
      ∀ h, IsComplement w.store g h → f.Defined w.store v → g.Defined w.store v →
        ((∃ q u, exec (h.check v) w = (.ok q, u) ∧ q.ok = true) ↔ r.ok = true) ∧
          ∀ q u, exec (h.check v) w = (.ok q, u) → q.ok = r.ok := by
  obtain ⟨hg', hopposes⟩ := hg.opposes hf
  have hreports : f.Judges w v r.ok := ⟨r, z, hr, rfl⟩
  have hreports' : g.Judges w v t.ok := ⟨t, z', ht, rfl⟩
  refine ⟨?_, ⟨?_, ?_⟩, ?_⟩
  · rintro ⟨hok, hok'⟩
    exact hopposes.disjoint hf hg' (hok ▸ hreports) (hok' ▸ hreports')
  · rintro (hok | hok')
    · exact hopposes.defined (.inl (hok ▸ hreports))
    · exact hopposes.defined (.inr (hok' ▸ hreports'))
  · intro hdefined
    rw [hopposes.opposite hf hg' hdefined hreports hreports']
    cases r.ok <;> simp
  · intro h hh hdefined hdefined'
    obtain ⟨hh', hback⟩ := hh.opposes hg'
    have hother := hopposes.opposite hf hg' hdefined hreports hreports'
    have hsame : ∀ {b : Bool}, h.Judges w v b → b = r.ok := by
      intro b hb
      rw [hback.opposite hg' hh' hdefined' hreports' hb, hother, Bool.not_not]
    refine ⟨⟨?_, fun hok => ?_⟩, fun q u hq => hsame ⟨q, u, hq, rfl⟩⟩
    · rintro ⟨q, u, hq, hok⟩
      exact (hsame ⟨q, u, hq, rfl⟩).symm.trans hok
    · -- the complement fails, so that its own complement passes
      refine hback.passes hdefined' ?_
      rw [hother, hok] at hreports'
      exact hreports'

end

/-- Being of age, under the name of `adult`. -/
def ageFact : Fact :=
  .lens 2 (.item "age" (.atom (.text "age"))) (.labeled 1 "adult" (.range 0 true) false) false

/-- The complement of `ageFact`. -/
def minorFact : Fact :=
  .lens 6 (.item "age" (.atom (.text "age"))) (.labeled 5 "not(adult)" (.range 4 false) false) false

/-- The complement of `minorFact`. -/
def notMinorFact : Fact :=
  .lens 9 (.item "age" (.atom (.text "age"))) (.labeled 8 "not(not(adult))" (.range 7 true) false) false

/-- The cells of `ageFact`, and somebody who is thirty years old. -/
def ageWorld : World :=
  ⟨⟨#[.slots [.int 18, .null], .slots [], .slots [], .mapping [(.atom (.text "age"), .int 30)]], spelledMarks, []⟩,
    .tape [] 0, #[]⟩

/-- The world in which `ageFact` has got a complement, and that one too. -/
def minorWorld : World := (exec minorFact.complement (exec ageFact.complement ageWorld).2).2

/-- Somebody who is thirty years old passes the fact, and the complement of its complement. -/
theorem complement_exact_age :
    IsComplement minorWorld.store ageFact minorFact ∧ IsComplement minorWorld.store minorFact notMinorFact ∧
      (∃ r t, exec (ageFact.check (.ref 3)) minorWorld = (.ok r, minorWorld) ∧
        exec (minorFact.check (.ref 3)) minorWorld = (.ok t, minorWorld) ∧ r.ok = true ∧ t.ok = false) ∧
      ∃ q u, exec (notMinorFact.check (.ref 3)) minorWorld = (.ok q, u) ∧ q.ok = true := by
  have hfirst : IsComplement minorWorld.store ageFact minorFact := by
    refine ⟨ageWorld, _, by decide +kernel, rfl, ?_⟩
    show ∀ l ∈ [2, 1, 0, 6, 5, 4], _
    simp only [List.forall_mem_cons]
    exact ⟨rfl, rfl, rfl, rfl, rfl, rfl, List.forall_mem_nil _⟩
  have hsecond : IsComplement minorWorld.store minorFact notMinorFact := by
    refine ⟨(exec ageFact.complement ageWorld).2, _, by decide +kernel, rfl, ?_⟩
    show ∀ l ∈ [6, 5, 4, 9, 8, 7], _
    simp only [List.forall_mem_cons]
    exact ⟨rfl, rfl, rfl, rfl, rfl, rfl, List.forall_mem_nil _⟩
  have hformed : ageFact.Formed := ⟨rfl, rfl, trivial⟩
  have hage : exec (ageFact.check (.ref 3)) minorWorld = (.ok .pass, minorWorld) :=
    (quiet_check hformed rfl _).exec_eq minorWorld |>.trans (congrArg (·, minorWorld) (by decide +kernel))
  have hminor : exec (minorFact.check (.ref 3)) minorWorld =
      (.ok ⟨[⟨"expected 30 to be outside 18..", ["lens(age)", "not(adult)"]⟩]⟩, minorWorld) :=
    (quiet_check (f := minorFact) ⟨rfl, rfl, trivial⟩ rfl _).exec_eq minorWorld |>.trans
      (congrArg (·, minorWorld) (by decide +kernel))
  obtain ⟨-, hdefined, hback⟩ := complement_exact hformed hfirst hage hminor
  obtain ⟨x, hx, hwithin⟩ := hdefined.mp (.inl rfl)
  -- the range of the complement has the same ends
  have hsame : within? minorWorld.store 4 x = within? minorWorld.store 0 x := within?_congr rfl
  have hdefined' : minorFact.Defined minorWorld.store (.ref 3) := ⟨x, hx, (congrArg Option.isSome hsame).trans hwithin⟩
  refine ⟨hfirst, hsecond, ⟨_, _, hage, hminor, rfl, rfl⟩, ?_⟩
  exact (hback notMinorFact hsecond ⟨x, hx, hwithin⟩ hdefined').1.mpr rfl

end Fact

end Conform
