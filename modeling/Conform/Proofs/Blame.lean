import Conform.Proofs.Diagnostics
import Conform.Proofs.Forming
import Conform.Proofs.Rounds
import Conform.Proofs.Silence

/-!
# What a fact is to blame for

`Fact.Blames f x` says that a violation is one that the check of `f` could name: it starts at a part of `f` that
reports on a value of its own, and its path has the tags of the way from `f` down to that part. Whatever a check
reports, the fact is to blame for (`settles_check`).

A report may also come from deep inside a run of mutation, with the fault of a conjunction that has used up its
rounds. `Fact.Brings f x` says which violations such a fault of `f` has: lenses, prisms, elements and facts
chosen from the value put their tags in front, and labels, conjunctions and disjunctions do not.
-/

namespace Conform

open Act

/-- Whether a constraint brought from outside is silent, but for a report of its own that it gives up with. -/
def Foreign.Honest (kind : Foreign) (reports : Violation → Prop) : Prop :=
  (∀ c v, Silent (kind.check c v)) ∧ ∀ c v, Settles (kind.mutate c v) (fun _ => True) reports

namespace Fact

/-- Whether a fact, or a copy of it, reports a violation of some value. -/
def Reports (f : Fact) (x : Violation) : Prop :=
  ∃ (m : Loc → Loc) (v : Value) (w u : World) (r : Report),
    exec ((f.move m).check v) w = (.ok r, u) ∧ x ∈ r.violations

/-- Whether no other fact contributes to the report of a fact, which then is about the value itself. -/
def IsWhole : Fact → Prop
  | .all _ _ _ _ | .either _ _ _ _ | .lens _ _ _ _ | .prism _ _ _ _ | .each _ _ _ | .mapped _ _ _ _ _
  | .choice _ (some _) _ | .labeled _ _ _ _ | .foreign _ _ => False
  | _ => True

/-- Whether a violation is one of a part of a fact, with the tags of the way to the part for its path: those of
labels, of members of a conjunction without a label, of sides of a disjunction, of lenses, prisms and elements, and
of facts chosen from the value. -/
inductive Blames : Fact → Violation → Prop
  | whole {f : Fact} {message : String} : f.IsWhole → f.Reports ⟨message, []⟩ → Blames f ⟨message, []⟩
  | foreign {c : Loc} {kind : Foreign} {x : Violation} :
    (Fact.foreign c kind).Reports x → Blames (.foreign c kind) x
  | member {c : Loc} {fs : List Fact} {n : Int} {b : Bool} {i : Nat} {f : Fact} {x : Violation} :
    fs[i]? = some f → f.label? = none → Blames f x →
    Blames (.all c fs n b) (x.under ("and" ++ elementTag i))
  | named {c : Loc} {fs : List Fact} {n : Int} {b : Bool} {i : Nat} {f : Fact} {name : String}
    {x : Violation} : fs[i]? = some f → f.label? = some name → Blames f x → Blames (.all c fs n b) x
  | first {c : Loc} {f g : Fact} {b : Bool} {x : Violation} :
    Blames f x → Blames (.either c f g b) (x.under "or[0]")
  | second {c : Loc} {f g : Fact} {b : Bool} {x : Violation} :
    Blames g x → Blames (.either c f g b) (x.under "or[1]")
  | missing {c : Loc} {a : Accessor} {f : Fact} {b : Bool} :
    Blames (.lens c a f b) ⟨"missing " ++ a.name, [lensTag a]⟩
  | lens {c : Loc} {a : Accessor} {f : Fact} {b : Bool} {x : Violation} :
    Blames f x → Blames (.lens c a f b) (x.under (lensTag a))
  | prism {c : Loc} {a : Accessor} {f : Fact} {b : Bool} {x : Violation} :
    Blames f x → Blames (.prism c a f b) (x.under (prismTag a))
  | element {c : Loc} {f : Fact} {b : Bool} {x : Violation} (i : Nat) :
    Blames f x → Blames (.each c f b) (x.under (elementTag i))
  | candidates {c : Loc} {f : Fact} {b : Bool} {message : String} :
    (Fact.choice c none b).Reports ⟨message, []⟩ → Blames (.choice c (some f) b) ⟨message, []⟩
  | chosen {c : Loc} {f : Fact} {b : Bool} {x : Violation} :
    Blames f x → Blames (.choice c (some f) b) x
  | picked {c : Loc} {name : String} {tests : List (Data → Bool)} {fs : List Fact} {f g : Fact}
    {x : Violation} : f ∈ fs → Blames f x → Blames (.mapped c name tests fs g) (x.under (mappedTag name))
  | otherwise {c : Loc} {name : String} {tests : List (Data → Bool)} {fs : List Fact} {g : Fact}
    {x : Violation} : Blames g x → Blames (.mapped c name tests fs g) (x.under (mappedTag name))
  | labeled {c : Loc} {name : String} {f : Fact} {b : Bool} {x : Violation} :
    Blames f x → Blames (.labeled c name f b) (x.under name)

/-- Whether a violation may come with a fault of mutation. It starts at a conjunction that has used up its rounds,
and not every fact on the way up adds its tag. -/
inductive Brings : Fact → Violation → Prop
  | conjunction {c : Loc} {fs : List Fact} {n : Int} {b : Bool} {x : Violation} :
    Blames (.all c fs n b) x → Brings (.all c fs n b) x
  | foreign {c : Loc} {kind : Foreign} {x : Violation} :
    (Fact.foreign c kind).Reports x → Brings (.foreign c kind) x
  | member {c : Loc} {fs : List Fact} {n : Int} {b : Bool} {f : Fact} {x : Violation} :
    f ∈ fs → Brings f x → Brings (.all c fs n b) x
  | first {c : Loc} {f g : Fact} {b : Bool} {x : Violation} : Brings f x → Brings (.either c f g b) x
  | second {c : Loc} {f g : Fact} {b : Bool} {x : Violation} : Brings g x → Brings (.either c f g b) x
  | negation {c : Loc} {f : Fact} {n : Int} {b : Bool} {x : Violation} :
    Brings f x → Brings (.negation c f n b) x
  | lens {c : Loc} {a : Accessor} {f : Fact} {b : Bool} {x : Violation} :
    Brings f x → Brings (.lens c a f b) (x.under (lensTag a))
  | prism {c : Loc} {a : Accessor} {f : Fact} {b : Bool} {x : Violation} :
    Brings f x → Brings (.prism c a f b) (x.under (prismTag a))
  | element {c : Loc} {f : Fact} {b : Bool} {x : Violation} (i : Nat) :
    Brings f x → Brings (.each c f b) (x.under (elementTag i))
  | chosen {c : Loc} {f : Fact} {b : Bool} {x : Violation} :
    Brings f x → Brings (.choice c (some f) b) x
  | picked {c : Loc} {name : String} {tests : List (Data → Bool)} {fs : List Fact} {f g : Fact}
    {x : Violation} : f ∈ fs → Brings f x → Brings (.mapped c name tests fs g) (x.under (mappedTag name))
  | otherwise {c : Loc} {name : String} {tests : List (Data → Bool)} {fs : List Fact} {g : Fact}
    {x : Violation} : Brings g x → Brings (.mapped c name tests fs g) (x.under (mappedTag name))
  | labeled {c : Loc} {name : String} {f : Fact} {b : Bool} {x : Violation} :
    Brings f x → Brings (.labeled c name f b) x

mutual

/-- Whether all that a fact takes from outside is silent: generators, custom accessors and foreign constraints,
but for the reports of the latter on themselves. -/
def Honest : Fact → Prop
  | .equality _ _ g _ | .pair _ _ g _ | .distinct _ g _ | .length _ _ g | .brute _ _ _ g _ =>
    ∀ x ∈ g, Generator.Silent x
  | .all _ fs _ _ => HonestAll fs
  | .either _ f g _ => Honest f ∧ Honest g
  | .negation _ f _ _ | .each _ f _ | .labeled _ _ f _ | .choice _ (some f) _ => Honest f
  | .lens _ a f _ | .prism _ a f _ => a.Silent ∧ Honest f
  | .mapped _ _ _ fs f => HonestAll fs ∧ Honest f
  | .foreign c kind => kind.Honest fun x => (Fact.foreign c kind).Reports x
  | _ => True

/-- Whether several facts are honest. -/
def HonestAll : List Fact → Prop
  | [] => True
  | f :: fs => Honest f ∧ HonestAll fs

end

/-- Whether a fact may give up with a report of its own. -/
def Gathers : Fact → Prop
  | .all _ _ _ _ | .foreign _ _ => True
  | _ => False

mutual

/-- Whether every fact on the way from a conjunction up to the root adds its tag to a fault: no conjunction lies
below a label, a member of a conjunction, a side of a disjunction or a negated fact. -/
def Forwards : Fact → Prop
  | .all _ fs _ _ => ∀ f ∈ fs, ∀ n ∈ f.everyNode, ¬ n.Gathers
  | .either _ f g _ => (∀ n ∈ f.everyNode, ¬ n.Gathers) ∧ ∀ n ∈ g.everyNode, ¬ n.Gathers
  | .negation _ f _ _ | .labeled _ _ f _ => ∀ n ∈ f.everyNode, ¬ n.Gathers
  | .lens _ _ f _ | .prism _ _ f _ | .each _ f _ | .choice _ (some f) _ => Forwards f
  | .mapped _ _ _ fs f => ForwardsAll fs ∧ Forwards f
  | _ => True

/-- Whether several facts do. -/
def ForwardsAll : List Fact → Prop
  | [] => True
  | f :: fs => Forwards f ∧ ForwardsAll fs

end

section

variable {f g : Fact} {fs : List Fact} {c : Loc} {n : Int} {b : Bool} {x y : Violation} {m : Loc → Loc}
  {a : Accessor} {v : Value} {S : Violation → Prop} {name : String}

theorem HonestAll.mem : ∀ {fs : List Fact}, HonestAll fs → ∀ f ∈ fs, f.Honest
  | _ :: _, h, _, .head _ => h.1
  | _ :: _, h, _, .tail _ hf => HonestAll.mem h.2 _ hf

theorem ForwardsAll.mem : ∀ {fs : List Fact}, ForwardsAll fs → ∀ f ∈ fs, f.Forwards
  | _ :: _, h, _, .head _ => h.1
  | _ :: _, h, _, .tail _ hf => ForwardsAll.mem h.2 _ hf

/-! ## Copies -/

theorem Reports.of_move (h : (f.move m).Reports x) : f.Reports x := by
  obtain ⟨k, v, w, u, r, hrun, hx⟩ := h
  exact ⟨k ∘ m, v, w, u, r, by rw [← move_move]; exact hrun, hx⟩

theorem IsWhole.of_move (h : (f.move m).IsWhole) : f.IsWhole := by
  cases f with
  | choice c f b => cases f <;> exact h
  | _ => exact h

mutual

theorem Honest.move : ∀ {f : Fact}, f.Honest → (f.move m).Honest
  | .always _, _ | .never _ _, _ | .predicate _ _ _, _ | .membership _, _ | .range _ _, _ | .counter _, _
  | .choice _ none _, _ => trivial
  | .pair _ _ _ _, h | .brute _ _ _ _ _, h | .equality _ _ _ _, h | .length _ _ _, h | .distinct _ _ _, h
  | .mapped _ _ _ _ _, h => h
  | .all _ _ _ _, h => HonestAll.move (show HonestAll _ from h)
  | .either _ _ _ _, h => ⟨h.1.move, h.2.move⟩
  | .negation _ f _ _, h | .each _ f _, h | .labeled _ _ f _, h | .choice _ (some f) _, h =>
    Honest.move (f := f) h
  | .lens _ _ _ _, h | .prism _ _ _ _, h => ⟨h.1, h.2.move⟩
  | .foreign c kind, h => by
    refine ⟨h.1, fun d v => (h.2 d v).mono (fun _ hx => hx) fun x hx => ?_⟩
    obtain ⟨k, v, w, u, r, hrun, hmem⟩ := hx
    -- a copy of the constraint is used at any place that the constraint itself may be moved to
    exact ⟨fun _ => k c, v, w, u, r, hrun, hmem⟩

theorem HonestAll.move : ∀ {fs : List Fact}, HonestAll fs → HonestAll (moveAll m fs)
  | [], _ => trivial
  | _ :: _, h => ⟨h.1.move, h.2.move⟩

end

mutual

/-- What a copy of a fact is blamed for, the fact is. -/
theorem Blames.of_move : ∀ {f : Fact} {x : Violation}, (f.move m).Blames x → f.Blames x
  | .always _, _, .whole hw hr | .never _ _, _, .whole hw hr | .predicate _ _ _, _, .whole hw hr
  | .membership _, _, .whole hw hr | .range _ _, _, .whole hw hr | .counter _, _, .whole hw hr
  | .choice _ none _, _, .whole hw hr | .pair _ _ _ _, _, .whole hw hr | .brute _ _ _ _ _, _, .whole hw hr
  | .equality _ _ _ _, _, .whole hw hr | .length _ _ _, _, .whole hw hr | .distinct _ _ _, _, .whole hw hr
  | .negation _ _ _ _, _, .whole hw hr => .whole hw.of_move hr.of_move
  | .all _ fs _ _, _, .member hi hl hx => by
    obtain ⟨f, hf, hlabel, hblames⟩ := Blames.of_moveAll fs hi hx
    exact .member hf (hlabel.trans hl) hblames
  | .all _ fs _ _, _, .named hi hl hx => by
    obtain ⟨f, hf, hlabel, hblames⟩ := Blames.of_moveAll fs hi hx
    exact .named hf (hlabel.trans hl) hblames
  | .either _ _ _ _, _, .first hx => .first hx.of_move
  | .either _ _ _ _, _, .second hx => .second hx.of_move
  | .lens _ _ _ _, _, .missing => .missing
  | .lens _ _ _ _, _, .lens hx => .lens hx.of_move
  | .prism _ _ _ _, _, .prism hx => .prism hx.of_move
  | .each _ _ _, _, .element i hx => .element i hx.of_move
  | .choice c (some f) b, _, .candidates hr => .candidates (Reports.of_move (m := m) hr)
  | .choice _ (some _) _, _, .chosen hx => .chosen hx.of_move
  | .mapped _ _ _ _ _, _, .picked hf hx => .picked hf hx
  | .mapped _ _ _ _ _, _, .otherwise hx => .otherwise hx
  | .labeled _ _ _ _, _, .labeled hx => .labeled hx.of_move
  | .foreign _ _, _, .foreign hr => .foreign (Reports.of_move (m := m) hr)

theorem Blames.of_moveAll : ∀ (fs : List Fact) {i : Nat} {g : Fact} {x : Violation},
    (moveAll m fs)[i]? = some g → g.Blames x → ∃ f, fs[i]? = some f ∧ f.label? = g.label? ∧ f.Blames x
  | [], _, _, _, hi, _ => by simp [moveAll] at hi
  | f :: fs, 0, g, x, hi, hx => by
    cases hi
    exact ⟨f, rfl, (label?_move m f).symm, hx.of_move⟩
  | f :: fs, i + 1, g, x, hi, hx => Blames.of_moveAll fs hi hx

end

mutual

/-- What a copy of a fact brings, the fact brings. -/
theorem Brings.of_move : ∀ {f : Fact} {x : Violation}, (f.move m).Brings x → f.Brings x
  | .always _, _, h | .never _ _, _, h | .predicate _ _ _, _, h | .membership _, _, h | .range _ _, _, h
  | .counter _, _, h | .choice _ none _, _, h | .pair _ _ _ _, _, h | .brute _ _ _ _ _, _, h
  | .equality _ _ _ _, _, h | .length _ _ _, _, h | .distinct _ _ _, _, h => nomatch h
  | .all c fs n b, _, .conjunction hx => .conjunction (Blames.of_move (f := .all c fs n b) hx)
  | .all _ fs _ _, _, .member hf hx => by
    obtain ⟨f, hf, hbrings⟩ := Brings.of_moveAll fs hf hx
    exact .member hf hbrings
  | .either _ _ _ _, _, .first hx => .first hx.of_move
  | .either _ _ _ _, _, .second hx => .second hx.of_move
  | .negation _ _ _ _, _, .negation hx => .negation hx.of_move
  | .lens _ _ _ _, _, .lens hx => .lens hx.of_move
  | .prism _ _ _ _, _, .prism hx => .prism hx.of_move
  | .each _ _ _, _, .element i hx => .element i hx.of_move
  | .choice _ (some _) _, _, .chosen hx => .chosen hx.of_move
  | .mapped _ _ _ _ _, _, .picked hf hx => .picked hf hx
  | .mapped _ _ _ _ _, _, .otherwise hx => .otherwise hx
  | .labeled _ _ _ _, _, .labeled hx => .labeled hx.of_move
  | .foreign _ _, _, .foreign hr => .foreign (Reports.of_move (m := m) hr)

theorem Brings.of_moveAll : ∀ (fs : List Fact) {g : Fact} {x : Violation},
    g ∈ moveAll m fs → g.Brings x → ∃ f ∈ fs, f.Brings x
  | f :: fs, _, x, .head _, hx => ⟨f, List.mem_cons_self, hx.of_move⟩
  | f :: fs, g, x, .tail _ hg, hx => by
    obtain ⟨f', hf', hbrings⟩ := Brings.of_moveAll fs hg hx
    exact ⟨f', List.mem_cons_of_mem f hf', hbrings⟩

end

theorem settles_copy : Settles f.copy (fun g => ∃ m, g = f.move m) S := by
  intro w
  refine ⟨?_, nofun⟩
  rintro g ⟨⟩
  exact ⟨_, rfl⟩

theorem settles_probe : Settles f.probe (fun g => ∃ m, g = f.move m) S := by
  unfold probe
  split
  · exact settles_copy
  · exact settles_pure ⟨id, (move_id f).symm⟩

/-- What a round works on. -/
theorem settles_trial (copied : Bool) :
    Settles (if copied then copyAll fs else pure fs) (fun gs => ∃ m, gs = moveAll m fs) S := by
  split
  · intro w
    refine ⟨?_, nofun⟩
    rintro g ⟨⟩
    exact ⟨_, rfl⟩
  · exact settles_pure ⟨id, (moveAll_id fs).symm⟩

/-! ## Checks -/

/-- A fact that consults no other says one thing at most. -/
theorem brief_whole (hf : f.IsWhole) : Brief (f.check v) := by
  cases f with
  | counter c => exact brief_bind fun _ => brief_bind fun _ => brief_reportUnless
  | distinct c g k => exact brief_bind fun _ => brief_bind fun _ => brief_bind fun _ => brief_reportUnless
  | choice c f b =>
    cases f with
    | none => exact brief_bind fun _ => brief_bind fun _ => brief_reportUnless
    | some f => exact hf.elim
  | always | never | equality | membership | range | pair | length | predicate | brute | negation =>
    exact brief_check trivial
  | _ => exact hf.elim

theorem settles_whole (hf : f.IsWhole) (h : Silent (f.check v)) :
    Settles (f.check v) (fun r => ∀ x ∈ r.violations, f.Blames x) fun _ => False := by
  intro w
  refine ⟨fun r hr x hx => ?_, (h w).2⟩
  have hrun : exec ((f.move id).check v) w = (.ok r, (exec (f.check v) w).2) := by
    rw [move_id, ← hr]
  rcases brief_whole hf w r _ (by rw [← hr]) with rfl | ⟨message, rfl⟩
  · cases hx
  · cases List.mem_singleton.mp hx
    exact .whole hf ⟨id, v, w, _, _, hrun, hx⟩

theorem mem_under {r : Report} {segment : String} :
    x ∈ (r.under segment).violations ↔ ∃ y ∈ r.violations, x = y.under segment := by
  simp [Report.under, eq_comm]

theorem settles_checkElements {check : Value → Act Report}
    (h : ∀ x, Settles (check x) (fun r => ∀ y ∈ r.violations, S y) fun _ => False) :
    ∀ {xs : List Value} {i : Nat}, Settles (checkElements check i xs)
      (fun rs => ∀ x ∈ (Report.combine rs).violations, ∃ j y, S y ∧ x = y.under (elementTag j))
      fun _ => False := by
  intro xs
  induction xs with
  | nil => exact settles_pure nofun
  | cons x xs ih =>
    intro i
    refine (h x).bind fun r hr => ih.bind fun rs hrs => settles_pure fun z hz => ?_
    rw [Report.combine_cons, Report.violations_append] at hz
    rcases List.mem_append.mp hz with hz | hz
    · obtain ⟨y, hy, rfl⟩ := mem_under.mp hz
      exact ⟨i, y, hr y hy, rfl⟩
    · exact hrs z hz

/-- Whether a violation is one of a member of a conjunction, of which the first has the number `i`. -/
def BlamesMember (i : Nat) (fs : List Fact) (x : Violation) : Prop :=
  ∃ j f y, fs[j]? = some f ∧ Blames f y ∧ x = if f.label?.isNone then y.under ("and" ++ elementTag (i + j)) else y

theorem BlamesMember.all (h : BlamesMember 0 fs x) : (Fact.all c fs n b).Blames x := by
  obtain ⟨j, f, y, hf, hy, rfl⟩ := h
  rw [Nat.zero_add]
  cases hl : f.label? with
  | none => exact .member hf hl hy
  | some name => exact .named hf hl hy

/-- Whether a fact is to blame for whatever a check of a value reports. -/
def Blamed (f : Fact) (v : Value) : Prop :=
  Settles (f.check v) (fun r => ∀ x ∈ r.violations, f.Blames x) fun _ => False

/-- What is reported under a tag is to be blamed on whoever the rest is, with the tag. -/
theorem settles_tagged {check : Act Report} {tag : String} {S T : Violation → Prop}
    (h : Settles check (fun r => ∀ x ∈ r.violations, S x) fun _ => False) (htag : ∀ x, S x → T (x.under tag)) :
    Settles (do return (← check).under tag) (fun r => ∀ x ∈ r.violations, T x) fun _ => False := by
  refine h.bind fun r hr => settles_pure fun x hx => ?_
  obtain ⟨y, hy, rfl⟩ := mem_under.mp hx
  exact htag y (hr y hy)

theorem Blamed.either (hf : f.Blamed v) (hg : g.Blamed v) : (Fact.either c f g b).Blamed v := by
  refine Settles.bind hf fun ra ha => Settles.bind hg fun rb hb => settles_pure fun x hx => ?_
  -- a side that passes silences the other one
  split at hx
  · cases hx
  · rw [Report.violations_append] at hx
    rcases List.mem_append.mp hx with hx | hx
    · obtain ⟨y, hy, rfl⟩ := mem_under.mp hx
      exact .first (ha y hy)
    · obtain ⟨y, hy, rfl⟩ := mem_under.mp hx
      exact .second (hb y hy)

theorem Blamed.lens (ha : ∀ v, Silent (part? a v)) (hf : ∀ p, f.Blamed p) : (Fact.lens c a f b).Blamed v := by
  refine (ha v).bind fun o => ?_
  cases o with
  | none =>
    refine settles_pure fun x hx => ?_
    cases List.mem_singleton.mp hx
    exact .missing
  | some p => exact settles_tagged (hf p) fun x hx => .lens hx

theorem Blamed.prism (ha : ∀ v, Silent (part? a v)) (hf : ∀ p, f.Blamed p) : (Fact.prism c a f b).Blamed v := by
  refine (ha v).bind fun o => ?_
  cases o with
  | none => exact settles_pure nofun
  | some p =>
    dsimp only
    split
    · exact settles_pure nofun
    · exact settles_tagged (hf p) fun x hx => .prism hx

/-- The candidates are asked about first, as in a choice without a further fact. -/
theorem Blamed.choice (hf : f.Blamed v) : (Fact.choice c (some f) b).Blamed v := by
  have hown := settles_whole (f := .choice c none b) (v := v) trivial silent_checkCandidates
  refine Settles.bind hown fun ra ha => Settles.bind hf fun rb hb => settles_pure fun x hx => ?_
  rw [Report.violations_append] at hx
  rcases List.mem_append.mp hx with hx | hx
  · cases ha x hx with
    | whole _ hr => exact .candidates hr
  · exact .chosen (hb x hx)

mutual

/-- Whatever a check reports, the fact is to blame for. -/
theorem settles_check : ∀ {f : Fact} (v : Value), f.Honest → f.Blamed v
  | .always _, _, _ | .never _ _, _, _ => settles_whole trivial silent_pure
  | .equality _ _ _ _, _, _ => settles_whole trivial (silent_ask.bind fun _ => silent_equalityReport)
  | .membership _, _, _ => settles_whole trivial silent_checkMembership
  | .range _ _, _, _ => settles_whole trivial silent_checkRange
  | .pair _ _ _ _, _, _ => settles_whole trivial (silent_items.bind fun _ => silent_equalityReport)
  | .counter _, _, _ => settles_whole trivial silent_checkCounter
  | .distinct _ _ _, _, _ => settles_whole trivial silent_checkDistinct
  | .length _ _ _, _, _ => settles_whole trivial silent_checkLength
  | .predicate _ _ _, _, _ | .brute _ _ _ _ _, _, _ => settles_whole trivial silent_checkTest
  | .choice _ none _, _, _ => settles_whole trivial silent_checkCandidates
  | .all _ _ _ _, v, h => by
    refine (settles_checkAll (show HonestAll _ from h) 0 v).bind fun rs hrs => settles_pure fun x hx => ?_
    exact (hrs x hx).all
  | .either _ f g _, v, h => (settles_check v h.1).either (settles_check v h.2)
  | .negation _ f _ _, v, h => by
    -- what the negated fact reports is not passed on
    refine settles_whole trivial (Silent.bind (Settles.silent (settles_check (f := f) v h)) fun r => ?_)
    refine silent_reportUnless ?_
    exact silent_described.bind fun _ => silent_render.bind fun _ => silent_pure
  | .lens _ a f _, v, h => .lens (fun _ => silent_part? h.1) fun p => settles_check p h.2
  | .prism _ a f _, v, h => .prism (fun _ => silent_part? h.1) fun p => settles_check p h.2
  | .each _ f _, v, h => by
    refine silent_elements.bind fun xs => ?_
    refine (settles_checkElements fun x => settles_check (f := f) x h).bind fun rs hrs => ?_
    refine settles_pure fun x hx => ?_
    obtain ⟨j, y, hy, rfl⟩ := hrs x hx
    exact .element j hy
  | .mapped _ name tests fs f, v, h => by
    refine silent_view.bind fun d => ?_
    refine settles_tagged (settles_checkPick h.1 (settles_check v h.2)) ?_
    rintro y (⟨g, hg, hblames⟩ | hblames)
    · exact .picked hg hblames
    · exact .otherwise hblames
  | .choice c (some f) b, v, h => (settles_check (f := f) v h).choice
  | .labeled _ name f _, v, h => settles_tagged (settles_check (f := f) v h) fun x hx => .labeled hx
  | .foreign c kind, v, h => by
    intro w
    refine ⟨fun r hr x hx => .foreign ⟨id, v, w, (exec (kind.check c v) w).2, r, ?_, hx⟩, (h.1 c v w).2⟩
    rw [← hr]
    rfl

/-- What the members of a conjunction report, one of them is to blame for. -/
theorem settles_checkAll : ∀ {fs : List Fact}, HonestAll fs → ∀ (i : Nat) (v : Value),
    Settles (checkAll fs i v) (fun rs => ∀ x ∈ (Report.combine rs).violations, BlamesMember i fs x)
      fun _ => False
  | [], _, _, _ => settles_pure nofun
  | f :: fs, h, i, v => by
    refine (settles_check v h.1).bind fun r hr => ?_
    refine (settles_checkAll h.2 (i + 1) v).bind fun rs hrs => settles_pure fun x hx => ?_
    rw [Report.combine_cons, Report.violations_append] at hx
    rcases List.mem_append.mp hx with hx | hx
    · cases hl : f.label? with
      | none =>
        rw [hl, Option.isNone_none, if_pos rfl] at hx
        obtain ⟨y, hy, rfl⟩ := mem_under.mp hx
        exact ⟨0, f, y, rfl, hr y hy, by rw [hl]; rfl⟩
      | some name =>
        rw [hl] at hx
        exact ⟨0, f, x, rfl, hr x hx, by rw [hl]; rfl⟩
    · obtain ⟨j, g, y, hg, hy, rfl⟩ := hrs x hx
      exact ⟨j + 1, g, y, hg, hy, by rw [Nat.add_assoc, Nat.add_comm 1 j]⟩

theorem settles_checkPick : ∀ {fs : List Fact} {d : Data} {tests : List (Data → Bool)}
    {otherwise : Act Report} {v : Value} {S : Violation → Prop}, HonestAll fs →
    Settles otherwise (fun r => ∀ x ∈ r.violations, S x) (fun _ => False) →
    Settles (checkPick d tests fs otherwise v)
      (fun r => ∀ x ∈ r.violations, (∃ f ∈ fs, f.Blames x) ∨ S x) fun _ => False
  | [], _, tests, _, _, _, _, ho => by
    cases tests <;> exact ho.mono (fun r hr x hx => .inr (hr x hx)) fun _ h => h
  | f :: fs, d, tests, _, v, S, h, ho => by
    cases tests with
    | nil => exact ho.mono (fun r hr x hx => .inr (hr x hx)) fun _ h => h
    | cons test tests =>
      rw [checkPick]
      split
      · refine (settles_check v h.1).mono (fun r hr x hx => .inl ?_) fun _ h => h
        exact ⟨f, List.mem_cons_self, hr x hx⟩
      · refine (settles_checkPick h.2 ho).mono (fun r hr x hx => ?_) fun _ h => h
        rcases hr x hx with ⟨g, hg, hblames⟩ | hS
        · exact .inl ⟨g, List.mem_cons_of_mem f hg, hblames⟩
        · exact .inr hS

end

/-- A check of a copy blames the fact. -/
theorem settles_checkCopy (hf : f.Honest) (hg : ∃ m, g = f.move m) :
    Settles (g.check v) (fun r => ∀ x ∈ r.violations, f.Blames x) fun _ => False := by
  obtain ⟨m, rfl⟩ := hg
  exact (settles_check v hf.move).mono (fun r hr x hx => (hr x hx).of_move) fun _ h => h

/-! ## Complements -/

theorem silent_emptyCell : Silent emptyCell := silent_alloc

theorem silent_twinCell : Silent (twinCell c) := silent_ask.bind fun _ => silent_alloc

theorem settles_relabel (name : String) (hf : f.Honest) (hS : ∀ x, f.Brings x → S x) :
    Settles (relabel name f) (fun g => g.Honest ∧ ∀ x, g.Brings x → S x) fun _ => False := by
  have hlabeled : ∀ {c : Loc} {g : Fact} {b : Bool}, (∀ x, g.Brings x → f.Brings x) →
      ∀ x, (Fact.labeled c name g b).Brings x → S x := by
    rintro c g b hg x (_ | _ | _ | _ | _ | _ | _ | _ | _ | _ | _ | _ | hx)
    exact hS x (hg x hx)
  refine silent_emptyCell.bind fun c => ?_
  split
  · exact settles_pure ⟨hf, hlabeled fun x hx => .labeled hx⟩
  · exact settles_pure ⟨hf, hlabeled fun x hx => hx⟩

/-- A complement brings nothing that the fact does not. -/
theorem settles_complement : ∀ {f : Fact}, f.Honest →
    Settles f.complement (fun o => ∀ g, o = some g → g.Honest ∧ ∀ x, g.Brings x → f.Brings x) fun _ => False
  | .always _, _ | .never _ _, _ =>
    silent_emptyCell.bind fun _ => settles_pure (by rintro g ⟨⟩; exact ⟨trivial, nofun⟩)
  | .equality _ _ _ _, h => silent_twinCell.bind fun _ => settles_pure (by rintro g ⟨⟩; exact ⟨h, nofun⟩)
  | .range _ _, _ => silent_twinCell.bind fun _ => settles_pure (by rintro g ⟨⟩; exact ⟨trivial, nofun⟩)
  | .pair _ _ _ _, h => silent_emptyCell.bind fun _ => settles_pure (by rintro g ⟨⟩; exact ⟨h, nofun⟩)
  | .negation _ f _ _, h => settles_pure (by rintro g ⟨⟩; exact ⟨h, fun x hx => .negation hx⟩)
  | .lens _ a f _, h => by
    refine (settles_complement h.2).bind fun o ho => ?_
    cases o with
    | none => exact settles_pure nofun
    | some g =>
      refine silent_emptyCell.bind fun _ => settles_pure ?_
      rintro _ ⟨⟩
      refine ⟨⟨h.1, (ho g rfl).1⟩, fun x hx => ?_⟩
      cases hx with
      | lens hx => exact .lens ((ho g rfl).2 _ hx)
  | .labeled _ name f _, h => by
    refine (settles_complement (f := f) h).bind fun o ho => ?_
    cases o with
    | none => exact settles_pure nofun
    | some g =>
      obtain ⟨hg, hbrings⟩ := ho g rfl
      have hrelabel := settles_relabel (call "not" name) hg hbrings
      refine hrelabel.bind fun g' hg' => settles_pure ?_
      rintro _ ⟨⟩
      exact ⟨hg'.1, fun x hx => .labeled (hg'.2 x hx)⟩
  | .foreign c kind, h => by
    unfold complement
    split
    · refine silent_ask.bind fun _ => silent_alloc.bind fun d => settles_pure ?_
      rintro _ ⟨⟩
      have hreports : ∀ x, (Fact.foreign d kind).Reports x → (Fact.foreign c kind).Reports x := by
        rintro x ⟨m, v, w, u, r, hrun, hx⟩
        exact ⟨fun _ => m d, v, w, u, r, hrun, hx⟩
      have hback : ∀ x, (Fact.foreign c kind).Reports x → (Fact.foreign d kind).Reports x := by
        rintro x ⟨m, v, w, u, r, hrun, hx⟩
        exact ⟨fun _ => m c, v, w, u, r, hrun, hx⟩
      refine ⟨⟨h.1, fun k v => (h.2 k v).mono (fun _ hx => hx) hback⟩, fun x hx => ?_⟩
      cases hx with
      | foreign hr => exact .foreign (hreports x hr)
    · exact settles_pure nofun
  | .membership _, _ | .counter _, _ | .distinct _ _ _, _ | .all _ _ _ _, _ | .either _ _ _ _, _
  | .prism _ _ _ _, _ | .each _ _ _, _ | .length _ _ _, _ | .mapped _ _ _ _ _, _
  | .predicate _ _ _, _ | .brute _ _ _ _ _, _ | .choice _ _ _, _ => settles_pure nofun

end

end Fact

end Conform
