import Conform.Proofs.Quiet
import Conform.Proofs.Quoting

/-!
# What a report says

A report lists what is violated, and where. `Fact.Failing w f v p m` is the relation of a fact, a value, a chain
of steps from the one into the other that ends at a failing leaf or at a missing part, and the message there. It
is defined without the order in which things are checked and without the paths that reports are written with.

The main result is `check_violations`: the violations of a report are these places from left to right, each with
the tags of its steps for a path, and no two of them with the same path.
-/

namespace Conform

open Act

/-! ## Chains of steps -/

/-- One step from a fact, and the value that it is used on, to a part of it. -/
inductive Step
  /-- To a member of a conjunction. -/
  | member (i : Nat)
  /-- To one side of a disjunction. -/
  | branch (second : Bool)
  /-- To the fact about a part that must be there. -/
  | lens (name : String)
  /-- To the fact about a part that may be there. -/
  | prism (name : String)
  /-- To the fact about an element. -/
  | element (i : Nat)
deriving DecidableEq

namespace Step

/-- The segment of a path that stands for a step. -/
def tag : Step → String
  | .member i => "and" ++ Fact.elementTag i
  | .branch false => "or[0]"
  | .branch true => "or[1]"
  | .lens name => Fact.call "lens" name
  | .prism name => Fact.call "prism" name
  | .element i => Fact.elementTag i

/-- Whether a step goes to the left of another one from the same place. -/
inductive Left : Step → Step → Prop
  | member {i j : Nat} : i < j → Left (.member i) (.member j)
  | branch : Left (.branch false) (.branch true)
  | element {i j : Nat} : i < j → Left (.element i) (.element j)

/-- Whether a chain of steps parts from another one and goes to the left of it. -/
inductive Before : List Step → List Step → Prop
  | here {a b : Step} {p q : List Step} : Left a b → Before (a :: p) (b :: q)
  | deeper {a : Step} {p q : List Step} : Before p q → Before (a :: p) (a :: q)

/-- The tag of an element tells its number, since the digits of a number do. -/
theorem elementTag_inj {i j : Nat} (h : Fact.elementTag i = Fact.elementTag j) : i = j := by
  have hopen : "[" ++ toString i = "[" ++ toString j := (String.append_left_inj "]").mp h
  exact toString_natural_inj ((String.append_right_inj "[").mp hopen)

/-- Steps that part have different tags. -/
theorem Left.tag_ne {a b : Step} (h : Left a b) : a.tag ≠ b.tag := by
  cases h with
  | member hlt => exact fun heq => hlt.ne (elementTag_inj ((String.append_right_inj "and").mp heq))
  | branch => decide
  | element hlt => exact fun heq => hlt.ne (elementTag_inj heq)

/-- Chains that part have different paths. -/
theorem Before.path_ne {p q : List Step} (h : Before p q) : p.map tag ≠ q.map tag := by
  induction h with
  | here hleft => exact fun heq => hleft.tag_ne (List.cons.inj heq).1
  | deeper _ ih => exact fun heq => ih (List.cons.inj heq).2

end Step

open Step

/-- Where something is violated, and what is to be said about it. -/
structure Site where
  steps : List Step
  message : String

namespace Site

/-- The violation at a site. -/
def violation (x : Site) : Violation := ⟨x.message, x.steps.map tag⟩

/-- The site as seen from one step further out. -/
def after (a : Step) (x : Site) : Site := ⟨a :: x.steps, x.message⟩

@[simp] theorem violation_after (a : Step) (x : Site) :
    (x.after a).violation = x.violation.under a.tag := rfl

end Site

namespace Report

/-! ## Reports that tell where something fails -/

/-- Whether the violations of a report are just the given places and messages, from left to right. -/
def Tells (r : Report) (F : List Step → String → Prop) : Prop :=
  ∃ sites : List Site, r.violations = sites.map Site.violation ∧
    (∀ x, x ∈ sites ↔ F x.steps x.message) ∧ sites.Pairwise fun x y => Before x.steps y.steps

variable {r t : Report} {F G : List Step → String → Prop}

theorem Tells.congr (h : r.Tells F) (hFG : ∀ p m, F p m ↔ G p m) : r.Tells G := by
  obtain ⟨sites, hr, hmem, hsorted⟩ := h
  exact ⟨sites, hr, fun x => (hmem x).trans (hFG _ _), hsorted⟩

/-- A report passes if and only if it tells of no place. -/
theorem Tells.ok_iff (h : r.Tells F) : r.ok = true ↔ ∀ p m, ¬ F p m := by
  obtain ⟨sites, hr, hmem, -⟩ := h
  rw [ok, hr, List.isEmpty_iff, List.map_eq_nil_iff, List.eq_nil_iff_forall_not_mem]
  constructor
  · intro hnone p m hF
    exact hnone ⟨p, m⟩ ((hmem _).mpr hF)
  · intro hnone x hx
    exact hnone _ _ ((hmem x).mp hx)

/-- The paths of the places that a report tells of are all different. -/
theorem Tells.nodup (h : r.Tells F) : (r.violations.map (·.path)).Nodup := by
  obtain ⟨sites, hr, -, hsorted⟩ := h
  rw [hr, List.map_map, List.Nodup, List.pairwise_map]
  exact hsorted.imp Before.path_ne

theorem tells_pass (h : ∀ p m, ¬ F p m) : pass.Tells F :=
  ⟨[], rfl, fun _ => iff_of_false List.not_mem_nil (h _ _), .nil⟩

theorem tells_fail {message : String} (h : ∀ p m, F p m ↔ p = [] ∧ m = message) :
    (fail message).Tells F := by
  refine ⟨[⟨[], message⟩], rfl, ?_, List.pairwise_singleton _ _⟩
  rintro ⟨steps, text⟩
  rw [List.mem_singleton, h]
  simp

theorem Tells.under (h : r.Tells F) (a : Step) :
    (r.under a.tag).Tells fun p m => ∃ q, p = a :: q ∧ F q m := by
  obtain ⟨sites, hr, hmem, hsorted⟩ := h
  refine ⟨sites.map (Site.after a), ?_, ?_, ?_⟩
  · simp only [Report.under, hr, List.map_map, Function.comp_def, Site.violation_after]
  · intro x
    rw [List.mem_map]
    constructor
    · rintro ⟨y, hy, rfl⟩
      exact ⟨y.steps, rfl, (hmem y).mp hy⟩
    · rintro ⟨q, hq, hF⟩
      refine ⟨⟨q, x.message⟩, (hmem _).mpr hF, ?_⟩
      cases x
      cases hq
      rfl
  · rw [List.pairwise_map]
    exact hsorted.imp Before.deeper

/-- Of two reports in a row the first tells of what lies on the left. -/
theorem Tells.append (h : r.Tells F) (k : t.Tells G)
    (hleft : ∀ p m q n, F p m → G q n → Before p q) :
    (r ++ t).Tells fun p m => F p m ∨ G p m := by
  obtain ⟨sites, hr, hmem, hsorted⟩ := h
  obtain ⟨others, ht, hmem', hsorted'⟩ := k
  refine ⟨sites ++ others, ?_, ?_, ?_⟩
  · rw [violations_append, hr, ht, List.map_append]
  · intro x
    rw [List.mem_append, hmem, hmem']
  · refine List.pairwise_append.mpr ⟨hsorted, hsorted', fun x hx y hy => ?_⟩
    exact hleft _ _ _ _ ((hmem x).mp hx) ((hmem' y).mp hy)

/-- The places that a series of parts fails at, which are numbered from `i` on. -/
def Series {α : Type} (step : Nat → Step) (F : α → List Step → String → Prop) (i : Nat) (xs : List α)
    (p : List Step) (m : String) : Prop :=
  ∃ j x q, xs[j]? = some x ∧ p = step (i + j) :: q ∧ F x q m

section

variable {α : Type} {step : Nat → Step} {F : α → List Step → String → Prop} {x : α}
  {xs : List α}
  {rs : List Report}

theorem series_nil {i : Nat} {p : List Step} {m : String} : ¬ Series step F i [] p m := by
  rintro ⟨j, x, q, hx, -⟩
  simp at hx

theorem series_cons {i : Nat} {p : List Step} {m : String} :
    Series step F i (x :: xs) p m ↔
      (∃ q, p = step i :: q ∧ F x q m) ∨ Series step F (i + 1) xs p m := by
  constructor
  · rintro ⟨_ | j, y, q, hy, rfl, hF⟩
    · cases hy
      exact .inl ⟨q, rfl, hF⟩
    · exact .inr ⟨j, y, q, hy, by rw [Nat.add_right_comm, Nat.add_assoc], hF⟩
  · rintro (⟨q, rfl, hF⟩ | ⟨j, y, q, hy, rfl, hF⟩)
    · exact ⟨0, x, q, rfl, rfl, hF⟩
    · exact ⟨j + 1, y, q, hy, by rw [Nat.add_right_comm, Nat.add_assoc], hF⟩

theorem tells_series_nil {i : Nat} : (combine []).Tells (Series step F i []) :=
  tells_pass fun _ _ => series_nil

/-- One more report in front of those of a series. -/
theorem Tells.series_cons (hstep : ∀ i j, i < j → Left (step i) (step j)) {i : Nat} (h : r.Tells (F x))
    (k : (combine rs).Tells (Series step F (i + 1) xs)) :
    (combine (r.under (step i).tag :: rs)).Tells (Series step F i (x :: xs)) := by
  rw [combine_cons]
  refine ((h.under (step i)).append k ?_).congr fun p m => Report.series_cons.symm
  rintro p m q n ⟨p', rfl, -⟩ ⟨j, y, q', -, rfl, -⟩
  exact .here (hstep i (i + 1 + j) (by omega))

end

end Report

namespace Fact

/-! ## Failing places -/

/-- Whether a fact is a leaf of a report: no other fact is consulted for the same report. A negation counts,
since it says nothing about the places inside of it. -/
def IsLeaf : Fact → Prop
  | .always _ | .never _ _ | .equality _ _ _ _ | .membership _ | .range _ _ | .pair _ _ _ _ | .length _ _ _
  | .predicate _ _ _ | .brute _ _ _ _ _ | .negation _ _ _ _ => True
  | _ => False

mutual

/-- Whether a fact is put together from leaves, without a label above a leaf. -/
def Plain : Fact → Prop
  | .all _ fs _ _ => PlainAll fs
  | .either _ f g _ => Plain f ∧ Plain g
  | .lens _ _ f _ | .prism _ _ f _ | .each _ f _ => Plain f
  | f => f.IsLeaf

/-- Whether several facts are. -/
def PlainAll : List Fact → Prop
  | [] => True
  | f :: fs => Plain f ∧ PlainAll fs

end

/-- Whether using a fact on a value fails at the end of a chain of steps, and the message there: what the leaf
says of the part that the chain leads to, or that a part is missing. A side of a disjunction counts only if
the other side fails too. -/
inductive Failing (w : World) : Fact → Value → List Step → String → Prop
  | leaf {f : Fact} {v : Value} {m : String} : f.IsLeaf →
    (exec (f.check v) w).1 = .ok (.fail m) → Failing w f v [] m
  | member {c : Loc} {fs : List Fact} {n : Int} {b : Bool} {v : Value} {i : Nat} {f : Fact}
    {p : List Step} {m : String} : fs[i]? = some f → Failing w f v p m →
    Failing w (.all c fs n b) v (.member i :: p) m
  | first {c : Loc} {f g : Fact} {b : Bool} {v : Value} {p q : List Step} {m n : String} :
    Failing w f v p m → Failing w g v q n → Failing w (.either c f g b) v (.branch false :: p) m
  | second {c : Loc} {f g : Fact} {b : Bool} {v : Value} {p q : List Step} {m n : String} :
    Failing w f v p m → Failing w g v q n → Failing w (.either c f g b) v (.branch true :: q) n
  | missing {c : Loc} {a : Accessor} {f : Fact} {b : Bool} {v : Value} {e : Fault} :
    a.get w.store v = .error e → Accessor.isMissing e = true →
    Failing w (.lens c a f b) v [.lens a.name] ("missing " ++ a.name)
  | lens {c : Loc} {a : Accessor} {f : Fact} {b : Bool} {v x : Value} {p : List Step} {m : String} :
    a.get w.store v = .ok x → Failing w f x p m → Failing w (.lens c a f b) v (.lens a.name :: p) m
  | prism {c : Loc} {a : Accessor} {f : Fact} {b : Bool} {v x : Value} {p : List Step} {m : String} :
    a.get w.store v = .ok x → x.isAbsent = false → Failing w f x p m →
    Failing w (.prism c a f b) v (.prism a.name :: p) m
  | element {c : Loc} {f : Fact} {b : Bool} {v x : Value} {xs : List Value} {i : Nat} {p : List Step}
    {m : String} : w.store.elements? v = some xs → xs[i]? = some x → Failing w f x p m →
    Failing w (.each c f b) v (.element i :: p) m

section

variable {w u : World} {f g : Fact} {fs : List Fact} {v : Value} {p : List Step} {m : String} {c : Loc}
  {a : Accessor} {b : Bool} {n : Int}

theorem failing_leaf (hf : f.IsLeaf) :
    Failing w f v p m ↔ p = [] ∧ (exec (f.check v) w).1 = .ok (.fail m) := by
  constructor
  · intro h
    cases h with
    | leaf _ hfail => exact ⟨rfl, hfail⟩
    | member | first | second | missing | lens | prism | element => exact hf.elim
  · rintro ⟨rfl, hfail⟩
    exact .leaf hf hfail

theorem failing_all :
    Failing w (.all c fs n b) v p m ↔ Report.Series .member (fun f => Failing w f v) 0 fs p m := by
  constructor
  · intro h
    cases h with
    | leaf hleaf _ => exact hleaf.elim
    | member hf hfails => exact ⟨_, _, _, hf, by rw [Nat.zero_add], hfails⟩
  · rintro ⟨i, f, q, hf, rfl, hfails⟩
    rw [Nat.zero_add]
    exact .member hf hfails

theorem failing_either :
    Failing w (.either c f g b) v p m ↔
      (∃ q, p = .branch false :: q ∧ Failing w f v q m ∧ ∃ p' m', Failing w g v p' m') ∨
      ∃ q, p = .branch true :: q ∧ (∃ p' m', Failing w f v p' m') ∧ Failing w g v q m := by
  constructor
  · intro h
    cases h with
    | leaf hleaf _ => exact hleaf.elim
    | first hf hg => exact .inl ⟨_, rfl, hf, _, _, hg⟩
    | second hf hg => exact .inr ⟨_, rfl, ⟨_, _, hf⟩, hg⟩
  · rintro (⟨q, rfl, hf, _, _, hg⟩ | ⟨q, rfl, ⟨_, _, hf⟩, hg⟩)
    · exact .first hf hg
    · exact .second hf hg

theorem failing_each :
    Failing w (.each c f b) v p m ↔ ∃ xs, w.store.elements? v = some xs ∧
      Report.Series .element (fun x => Failing w f x) 0 xs p m := by
  constructor
  · intro h
    cases h with
    | leaf hleaf _ => exact hleaf.elim
    | element hxs hx hfails => exact ⟨_, hxs, _, _, _, hx, by rw [Nat.zero_add], hfails⟩
  · rintro ⟨xs, hxs, i, x, q, hx, rfl, hfails⟩
    rw [Nat.zero_add]
    exact .element hxs hx hfails

theorem failing_lens {x : Value} (hget : a.get w.store v = .ok x) :
    Failing w (.lens c a f b) v p m ↔ ∃ q, p = .lens a.name :: q ∧ Failing w f x q m := by
  constructor
  · intro h
    cases h with
    | leaf hleaf _ => exact hleaf.elim
    | missing herror _ => exact nomatch hget.symm.trans herror
    | lens hget' hfails =>
      cases hget.symm.trans hget'
      exact ⟨_, rfl, hfails⟩
  · rintro ⟨q, rfl, hfails⟩
    exact .lens hget hfails

theorem failing_missing {e : Fault} (hget : a.get w.store v = .error e)
    (hmissing : Accessor.isMissing e = true) :
    Failing w (.lens c a f b) v p m ↔
      ∃ q, p = .lens a.name :: q ∧ q = [] ∧ m = "missing " ++ a.name := by
  constructor
  · intro h
    cases h with
    | leaf hleaf _ => exact hleaf.elim
    | missing _ _ => exact ⟨[], rfl, rfl, rfl⟩
    | lens hget' _ => exact nomatch hget.symm.trans hget'
  · rintro ⟨q, rfl, rfl, rfl⟩
    exact .missing hget hmissing

theorem failing_prism {x : Value} (hget : a.get w.store v = .ok x) (hpresent : x.isAbsent = false) :
    Failing w (.prism c a f b) v p m ↔ ∃ q, p = .prism a.name :: q ∧ Failing w f x q m := by
  constructor
  · intro h
    cases h with
    | leaf hleaf _ => exact hleaf.elim
    | prism hget' _ hfails =>
      cases hget.symm.trans hget'
      exact ⟨_, rfl, hfails⟩
  · rintro ⟨q, rfl, hfails⟩
    exact .prism hget hpresent hfails

/-- A part that cannot be read does not make a prism fail, and neither does the stand-in for a missing one. -/
theorem not_failing_prism (hget : ∀ x, a.get w.store v = .ok x → x.isAbsent = true) :
    ¬ Failing w (.prism c a f b) v p m := by
  intro h
  cases h with
  | leaf hleaf _ => exact hleaf
  | prism hget' hpresent _ => exact Bool.noConfusion ((hget _ hget').symm.trans hpresent)

/-! ## Leaves -/

/-- Whether the report of an action says one thing at most, and says it about the value itself. -/
def Brief (check : Act Report) : Prop :=
  ∀ w r u, exec check w = (.ok r, u) → r = .pass ∨ ∃ m, r = .fail m

theorem brief_pass : Brief (pure .pass) := by
  rintro w r u ⟨⟩
  exact .inl rfl

theorem brief_fail {message : String} : Brief (pure (.fail message)) := by
  rintro w r u ⟨⟩
  exact .inr ⟨message, rfl⟩

theorem brief_bind {α : Type} {act : Act α} {f : α → Act Report} (h : ∀ x, Brief (f x)) :
    Brief (act >>= f) := by
  intro w r u hrun
  obtain ⟨x, w', -, hrest⟩ := exec_bind_ok hrun
  exact h x w' r u hrest

theorem brief_reportUnless {ok : Bool} {message : Act String} : Brief (reportUnless ok message) := by
  unfold reportUnless
  split
  · exact brief_pass
  · exact brief_bind fun _ => brief_fail

theorem brief_checkRange {inside : Bool} : Brief (checkRange c inside v) := by
  refine brief_bind fun _ => brief_bind fun _ => brief_bind fun _ => brief_bind fun _ => ?_
  refine brief_bind fun _ => ?_
  split
  · exact brief_bind fun _ => brief_bind fun _ => brief_fail
  · exact brief_reportUnless

/-- A leaf says one thing at most. -/
theorem brief_check (hf : f.IsLeaf) : Brief (f.check v) := by
  cases f with
  | always c => exact brief_pass
  | never c reason => exact brief_fail
  | equality c equal g k => exact brief_bind fun _ => brief_bind fun _ => brief_reportUnless
  | membership c => exact brief_bind fun _ => brief_bind fun _ => brief_reportUnless
  | range c inside => exact brief_checkRange
  | pair c equal g k => exact brief_bind fun _ => brief_bind fun _ => brief_reportUnless
  | length c size g => exact brief_bind fun _ => brief_reportUnless
  | predicate c name test => exact brief_bind fun _ => brief_reportUnless
  | brute c name test g k => exact brief_bind fun _ => brief_reportUnless
  | negation c f k b => exact brief_bind fun _ => brief_reportUnless
  | _ => exact hf.elim

/-- Nothing without a label above a leaf has a label. -/
theorem label?_eq_none (hf : f.Plain) : f.label? = none := by
  cases f with
  | labeled c name f b => exact hf.elim
  | _ => rfl

theorem tells_leaf (hf : f.IsLeaf) {r : Report} (h : exec (f.check v) w = (.ok r, u)) :
    r.Tells (Failing w f v) := by
  rcases brief_check hf w r u h with rfl | ⟨message, rfl⟩
  · refine Report.tells_pass fun p m hfails => ?_
    have hfail := ((failing_leaf hf).mp hfails).2
    rw [h] at hfail
    cases hfail
  · refine Report.tells_fail fun p m => ?_
    rw [failing_leaf hf, h]
    constructor
    · rintro ⟨rfl, hm⟩
      cases hm
      exact ⟨rfl, rfl⟩
    · rintro ⟨rfl, rfl⟩
      exact ⟨rfl, rfl⟩

/-! ## Trees -/

/-- A disjunction tells of both sides if both of them fail, and of nothing otherwise. -/
theorem tells_either {ra rb : Report} (ha : ra.Tells (Failing w f v)) (hb : rb.Tells (Failing w g v)) :
    (if ra.ok || rb.ok then Report.pass else ra.under "or[0]" ++ rb.under "or[1]").Tells
      (Failing w (.either c f g b) v) := by
  split
  · next hok =>
    refine Report.tells_pass fun p m hfails => ?_
    rcases Bool.or_eq_true _ _ ▸ hok with hok | hok
    · rcases failing_either.mp hfails with ⟨q, -, hq, -⟩ | ⟨q, -, ⟨p', m', hp⟩, -⟩
      · exact ha.ok_iff.mp hok _ _ hq
      · exact ha.ok_iff.mp hok _ _ hp
    · rcases failing_either.mp hfails with ⟨q, -, -, p', m', hp⟩ | ⟨q, -, -, hq⟩
      · exact hb.ok_iff.mp hok _ _ hp
      · exact hb.ok_iff.mp hok _ _ hq
  · next hok =>
    -- neither side passes, so there are places on both sides
    rw [Bool.or_eq_true, not_or, ha.ok_iff, hb.ok_iff] at hok
    simp only [not_forall, not_not] at hok
    obtain ⟨hfirst, hsecond⟩ := hok
    refine ((ha.under (.branch false)).append (hb.under (.branch true)) ?_).congr fun p m => ?_
    · rintro p m q n ⟨p', rfl, -⟩ ⟨q', rfl, -⟩
      exact .here .branch
    · rw [failing_either]
      constructor
      · rintro (⟨q, rfl, hq⟩ | ⟨q, rfl, hq⟩)
        · exact .inl ⟨q, rfl, hq, hsecond⟩
        · exact .inr ⟨q, rfl, hfirst, hq⟩
      · rintro (⟨q, rfl, hq, -⟩ | ⟨q, rfl, -, hq⟩)
        · exact .inl ⟨q, rfl, hq⟩
        · exact .inr ⟨q, rfl, hq⟩

/-- What is found of a part. -/
theorem exec_part? {o : Option Value} (h : exec (part? a v) w = (.ok o, u)) :
    (∃ x, o = some x ∧ a.get w.store v = .ok x) ∨
      o = none ∧ ∃ e, a.get w.store v = .error e ∧ Accessor.isMissing e = true := by
  rw [part?, exec_bind, exec_get] at h
  cases hget : a.get w.store v with
  | ok x =>
    simp only [hget] at h
    cases h
    exact .inl ⟨x, rfl, rfl⟩
  | error e =>
    simp only [hget] at h
    split at h
    · next hmissing =>
      cases h
      exact .inr ⟨rfl, e, rfl, hmissing⟩
    · cases h

theorem exec_elements {xs : List Value} (h : exec (elements v) w = (.ok xs, u)) :
    w.store.elements? v = some xs := by
  rw [elements, exec_bind, exec_ask] at h
  cases hxs : w.store.elements? v with
  | none =>
    simp only [hxs] at h
    cases h
  | some ys =>
    simp only [hxs] at h
    cases h
    rfl

/-- The reports on elements tell where the elements fail. -/
theorem tells_checkElements {check : Value → Act Report} (hquiet : ∀ x, (check x).Quiet)
    (hcheck : ∀ x r, exec (check x) w = (.ok r, w) → r.Tells (Failing w f x)) :
    ∀ {xs : List Value} {i : Nat} {rs : List Report}, exec (checkElements check i xs) w = (.ok rs, w) →
      (Report.combine rs).Tells (Report.Series .element (fun x => Failing w f x) i xs) := by
  intro xs
  induction xs with
  | nil =>
    rintro i rs ⟨⟩
    exact Report.tells_series_nil
  | cons x xs ih =>
    intro i rs h
    rw [checkElements, (hquiet x).exec_bind] at h
    split at h
    · next r hr =>
      obtain ⟨rest, w', hrest, hpure⟩ := exec_bind_ok h
      cases hpure
      have hhead := hcheck x r (((hquiet x).exec_eq w).trans (by rw [hr]))
      exact hhead.series_cons (fun _ _ => .element) (ih hrest)
    · cases h

end

mutual

/-- The report of a tree without labels tells where the tree fails. -/
theorem tells_check : ∀ {f : Fact} {v : Value} {w : World} {r : Report}, f.Formed → f.stateful = false →
    f.Plain → exec (f.check v) w = (.ok r, w) → r.Tells (Failing w f v)
  | .all _ fs _ _, v, w, r, hf, hs, hp, h => by
    obtain ⟨rs, u, hrs, hpure⟩ := exec_bind_ok h
    cases hpure
    exact (tells_checkAll hf.2 (hf.1.symm.trans hs) hp hrs).congr fun _ _ => failing_all.symm
  | .either _ f g _, v, w, r, hf, hs, hp, h => by
    obtain ⟨hfs, hgs⟩ := Bool.or_eq_false_iff.mp (hf.1.symm.trans hs)
    obtain ⟨ra, u, ha, h⟩ := exec_bind_ok h
    obtain rfl : w = u := (quiet_check hf.2.1 hfs v).eq_of_exec ha
    obtain ⟨rb, u, hb, hpure⟩ := exec_bind_ok h
    cases hpure
    exact tells_either (tells_check hf.2.1 hfs hp.1 ha) (tells_check hf.2.2 hgs hp.2 hb)
  | .lens _ a f _, v, w, r, hf, hs, hp, h => by
    obtain ⟨o, u, hpart, h⟩ := exec_bind_ok h
    obtain rfl : w = u := quiet_part?.eq_of_exec hpart
    rcases exec_part? hpart with ⟨x, rfl, hget⟩ | ⟨rfl, e, hget, hmissing⟩
    · obtain ⟨t, u, ht, hpure⟩ := exec_bind_ok h
      cases hpure
      exact ((tells_check hf.2 (hf.1.symm.trans hs) hp ht).under (.lens a.name)).congr fun p m =>
        (failing_lens hget).symm
    · cases h
      exact ((Report.tells_fail fun _ _ => Iff.rfl).under (.lens a.name)).congr fun p m =>
        (failing_missing hget hmissing).symm
  | .prism _ a f _, v, w, r, hf, hs, hp, h => by
    obtain ⟨o, u, hpart, h⟩ := exec_bind_ok h
    obtain rfl : w = u := quiet_part?.eq_of_exec hpart
    rcases exec_part? hpart with ⟨x, rfl, hget⟩ | ⟨rfl, e, hget, hmissing⟩
    · simp only at h
      split at h
      · next habsent =>
        cases h
        exact Report.tells_pass fun p m hfails => 
          not_failing_prism (fun y hy => (Except.ok.inj (hget.symm.trans hy)) ▸ habsent) hfails
      · next habsent =>
        obtain ⟨t, u, ht, hpure⟩ := exec_bind_ok h
        cases hpure
        exact ((tells_check hf.2 (hf.1.symm.trans hs) hp ht).under (.prism a.name)).congr fun p m =>
          (failing_prism hget (Bool.eq_false_iff.mpr habsent)).symm
    · cases h
      exact Report.tells_pass fun p m hfails =>
        not_failing_prism (fun y hy => nomatch hget.symm.trans hy) hfails
  | .each _ f _, v, w, r, hf, hs, hp, h => by
    obtain ⟨xs, u, hxs, h⟩ := exec_bind_ok h
    obtain rfl : w = u := quiet_elements.eq_of_exec hxs
    obtain ⟨rs, u, hrs, hpure⟩ := exec_bind_ok h
    cases hpure
    have hquiet : ∀ x, (f.check x).Quiet := quiet_check hf.2 (hf.1.symm.trans hs)
    have helement : ∀ x t, exec (f.check x) w = (.ok t, w) → t.Tells (Failing w f x) :=
      fun x t ht => tells_check hf.2 (hf.1.symm.trans hs) hp ht
    refine (tells_checkElements hquiet helement hrs).congr fun p m => ?_
    rw [failing_each, exec_elements hxs]
    simp
  | .always _, _, _, _, _, _, hp, h | .never _ _, _, _, _, _, _, hp, h | .equality _ _ _ _, _, _, _, _, _, hp, h
  | .membership _, _, _, _, _, _, hp, h | .range _ _, _, _, _, _, _, hp, h | .pair _ _ _ _, _, _, _, _, _, hp, h
  | .length _ _ _, _, _, _, _, _, hp, h | .predicate _ _ _, _, _, _, _, _, hp, h
  | .brute _ _ _ _ _, _, _, _, _, _, hp, h | .negation _ _ _ _, _, _, _, _, _, hp, h => tells_leaf hp h
  | .counter _, _, _, _, _, _, hp, _ | .distinct _ _ _, _, _, _, _, _, hp, _
  | .mapped _ _ _ _ _, _, _, _, _, _, hp, _ | .choice _ none _, _, _, _, _, _, hp, _
  | .choice _ (some _) _, _, _, _, _, _, hp, _ | .labeled _ _ _ _, _, _, _, _, _, hp, _
  | .foreign _ _, _, _, _, _, _, hp, _ => hp.elim

/-- The reports on the members of a conjunction tell where the members fail. -/
theorem tells_checkAll : ∀ {fs : List Fact} {i : Nat} {v : Value} {w u : World} {rs : List Report},
    FormedAll fs → fs.any stateful = false → PlainAll fs → exec (checkAll fs i v) w = (.ok rs, u) →
    (Report.combine rs).Tells (Report.Series .member (fun f => Failing w f v) i fs)
  | [], _, _, _, _, _, _, _, _, h => by
    cases h
    exact Report.tells_series_nil
  | f :: fs, i, v, w, u, rs, hf, hs, hp, h => by
    rw [List.any_cons] at hs
    obtain ⟨hfs, hrest⟩ := Bool.or_eq_false_iff.mp hs
    obtain ⟨r, w', hr, h⟩ := exec_bind_ok h
    obtain rfl : w = w' := (quiet_check hf.1 hfs v).eq_of_exec hr
    obtain ⟨rest, w', htail, hpure⟩ := exec_bind_ok h
    cases hpure
    rw [label?_eq_none hp.1, Option.isNone_none, if_pos rfl]
    have hhead := tells_check hf.1 hfs hp.1 hr
    exact Report.Tells.series_cons (F := fun f => Failing w f v) (fun _ _ => .member) hhead
      (tells_checkAll hf.2 hrest hp.2 htail)

end

end Fact

open Conform.Fact

/-- The report of a stateless tree without labels is exact: its violations are the places where the tree fails,
from left to right, each with the tags of the steps that lead there, and their paths are all different. So the
tree passes if and only if it fails nowhere. -/
theorem check_violations {f : Fact} {v : Value} {w u : World} {r : Report} (hf : f.Formed)
    (hs : f.stateful = false) (hp : f.Plain) (h : exec (f.check v) w = (.ok r, u)) :
    (∃ sites : List Site, r.violations = sites.map Site.violation ∧
      (∀ x, x ∈ sites ↔ Failing w f v x.steps x.message) ∧
      sites.Pairwise fun x y => Before x.steps y.steps) ∧
    (r.violations.map (·.path)).Nodup ∧ (r.ok = true ↔ ∀ p m, ¬ Failing w f v p m) := by
  obtain rfl : w = u := (quiet_check hf hs v).eq_of_exec h
  have htells := tells_check hf hs hp h
  exact ⟨htells, htells.nodup, htells.ok_iff⟩

/-- Every element is five, and the fifth one is there or nothing is. -/
def nestedFact : Fact :=
  .all 1 [.each 2 (.equality 3 true none 100) false,
    .either 4 (.lens 5 (.item "4" (.int 4)) (.always 6) false) (.never 7 "no") false] 10 false

/-- A list of two numbers beside the cells of `nestedFact`. -/
def nestedWorld : World where
  store := ⟨#[.list [.int 5, .int 1], .slots [], .slots [], .slots [.int 5], .slots [], .slots [], .slots [],
    .slots []], spelledMarks, []⟩
  source := .tape [0] 0
  log := #[]

/-- What `nestedFact` says of the list. -/
def nestedReport : Report :=
  ⟨[⟨"expected 1 == 5", ["and[0]", "[1]"]⟩, ⟨"missing 4", ["and[1]", "or[0]", "lens(4)"]⟩,
    ⟨"never: no", ["and[1]", "or[1]"]⟩]⟩

/-- The second element, the missing fifth one and the refusal are told of, in this order. -/
theorem check_violations_nested :
    exec (nestedFact.check (.ref 0)) nestedWorld = (.ok nestedReport, nestedWorld) ∧
    (∃ sites : List Site, nestedReport.violations = sites.map Site.violation ∧
      (∀ x, x ∈ sites ↔ Failing nestedWorld nestedFact (.ref 0) x.steps x.message) ∧
      sites.Pairwise fun x y => Before x.steps y.steps) ∧
    (nestedReport.violations.map (·.path)).Nodup ∧
    (nestedReport.ok = true ↔ ∀ p m, ¬ Failing nestedWorld nestedFact (.ref 0) p m) := by
  have hformed : nestedFact.Formed := ⟨rfl, ⟨rfl, trivial⟩, ⟨rfl, ⟨rfl, trivial⟩, trivial⟩, trivial⟩
  have hplain : nestedFact.Plain := ⟨trivial, ⟨trivial, trivial⟩, trivial⟩
  have hrun : exec (nestedFact.check (.ref 0)) nestedWorld = (.ok nestedReport, nestedWorld) := by
    have hreport : (exec (nestedFact.check (.ref 0)) nestedWorld).1.toOption = some nestedReport := by
      decide +kernel
    rw [(quiet_check hformed rfl (.ref 0)).exec_eq nestedWorld]
    cases hr : (exec (nestedFact.check (.ref 0)) nestedWorld).1 with
    | error e => rw [hr] at hreport; cases hreport
    | ok r => rw [hr] at hreport; cases hreport; rfl
  exact ⟨hrun, check_violations hformed rfl hplain hrun⟩

end Conform
