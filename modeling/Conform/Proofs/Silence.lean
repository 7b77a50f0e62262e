import Conform.Fact.Mutate
import Conform.Proofs.Parts

/-!
# Faults that bring no report

A fact that gives up may bring a report along with its fault. `Act.Settles a P S` says of an action that its
answers are as `P` describes, and that whatever fault it raises brings violations of `S` only. An action is
*silent* if it brings none.

Drawing and searching are silent, and so are the mutations of the leaves. What is brought from outside
raises what it likes, so it is asked to be silent (`Generator.Silent`, `Accessor.Silent`).
-/

namespace Conform

open Act

/-- Whether the violations that a fault brings along are in a set. A used-up budget of attempts is no fault of
a single run of mutation, and does not count. -/
def Fault.Carries (S : Violation → Prop) : Fault → Prop
  | .exhausted _ _ (some r) => ∀ x ∈ r.violations, S x
  | .unsatisfied _ _ => False
  | _ => True

theorem Fault.Carries.mono {S T : Violation → Prop} {e : Fault} (h : e.Carries S) (hST : ∀ x, S x → T x) :
    e.Carries T := by
  cases e with
  | exhausted fact reason last =>
    cases last with
    | none => trivial
    | some r => exact fun x hx => hST x (h x hx)
  | unsatisfied n r => exact h
  | _ => trivial

/-- A segment in front of a fault is in front of all violations that it brings along. -/
theorem Fault.Carries.under {S : Violation → Prop} {e : Fault} (h : e.Carries S) (segment : String) :
    (e.under segment).Carries fun x => ∃ y, S y ∧ x = y.under segment := by
  cases e with
  | exhausted fact reason last =>
    cases last with
    | none => trivial
    | some r =>
      intro x hx
      obtain ⟨y, hy, rfl⟩ := List.mem_map.mp hx
      exact ⟨y, h y hy, rfl⟩
  | unsatisfied n r => exact h.elim
  | _ => trivial

namespace Act

variable {α β : Type} {P : α → Prop} {Q : β → Prop} {S T : Violation → Prop}

/-- Whether an action, in whatever world it runs, answers as described, or raises a fault that brings
violations of a set only. -/
def Settles (a : Act α) (P : α → Prop) (S : Violation → Prop) : Prop :=
  ∀ w, (∀ x, (exec a w).1 = .ok x → P x) ∧ ∀ e, (exec a w).1 = .error e → e.Carries S

/-- Whether no fault of an action brings a violation along. -/
def Silent (a : Act α) : Prop := Settles a (fun _ => True) fun _ => False

theorem settles_pure {x : α} (h : P x) : Settles (pure x) P S := by
  intro w
  refine ⟨?_, nofun⟩
  rintro y ⟨⟩
  exact h

theorem settles_throw {e : Fault} (h : e.Carries S) : Settles (throw e : Act α) P S := by
  intro w
  refine ⟨nofun, ?_⟩
  rintro e' ⟨⟩
  exact h

theorem settles_misuse {m : Misuse} : Settles (misuse m : Act α) P S := settles_throw trivial

theorem Settles.bind {a : Act α} {f : α → Act β} (ha : Settles a P S)
    (hf : ∀ x, P x → Settles (f x) Q S) : Settles (a >>= f) Q S := by
  intro w
  obtain ⟨hok, herr⟩ := ha w
  rw [exec_bind]
  rcases hrun : exec a w with ⟨e | x, u⟩
  · rw [hrun] at herr
    refine ⟨nofun, ?_⟩
    rintro e' ⟨⟩
    exact herr e rfl
  · rw [hrun] at hok
    exact hf x (hok x rfl) u

theorem Settles.mono {a : Act α} {P' : α → Prop} (ha : Settles a P S) (hP : ∀ x, P x → P' x)
    (hS : ∀ x, S x → T x) : Settles a P' T := by
  intro w
  obtain ⟨hok, herr⟩ := ha w
  exact ⟨fun x hx => hP x (hok x hx), fun e he => (herr e he).mono hS⟩

theorem Settles.tryCatch {a : Act α} {f : Fault → Act α} (ha : Settles a P S)
    (hf : ∀ e, e.Carries S → Settles (f e) P T) : Settles (tryCatch a f) P T := by
  intro w
  obtain ⟨hok, herr⟩ := ha w
  rw [exec_tryCatch]
  rcases hrun : exec a w with ⟨e | x, u⟩
  · rw [hrun] at herr
    exact hf e (herr e rfl) u
  · rw [hrun] at hok
    exact ⟨hok, nofun⟩

theorem Settles.under {a : Act α} (ha : Settles a P S) (segment : String) :
    Settles (mapFault (Fault.under segment) a) P fun x => ∃ y, S y ∧ x = y.under segment :=
  ha.tryCatch fun _ he => settles_throw (he.under segment)

/-- What an action answers does not matter to one that is silent. -/
theorem Silent.bind {a : Act α} {f : α → Act β} (ha : Silent a) (hf : ∀ x, Settles (f x) Q S) :
    Settles (a >>= f) Q S :=
  (ha.mono (T := S) (fun _ h => h) fun _ h => h.elim).bind fun x _ => hf x

theorem Silent.settles {a : Act α} (ha : Silent a) : Settles a (fun _ => True) S :=
  ha.mono (fun _ h => h) fun _ h => h.elim

theorem Settles.silent {a : Act α} (ha : Settles a P fun _ => False) : Silent a :=
  ha.mono (fun _ _ => trivial) fun _ h => h

theorem silent_pure {x : α} : Silent (pure x : Act α) := settles_pure trivial

theorem silent_throw {e : Fault} (h : e.Carries fun _ => False) : Silent (throw e : Act α) := settles_throw h

theorem silent_misuse {m : Misuse} : Silent (misuse m : Act α) := settles_misuse

theorem silent_ask {f : Store → α} : Silent (ask f) := fun _ => ⟨fun _ _ => trivial, nofun⟩

theorem silent_get : Silent (get : Act World) := fun _ => ⟨fun _ _ => trivial, nofun⟩

theorem silent_set {w : World} : Silent (set w : Act PUnit) := fun _ => ⟨fun _ _ => trivial, nofun⟩

theorem silent_modify {f : World → World} : Silent (modify f : Act PUnit) :=
  fun _ => ⟨fun _ _ => trivial, nofun⟩

theorem silent_onStore {f : Store → α × Store} : Silent (onStore f) := fun _ => ⟨fun _ _ => trivial, nofun⟩

theorem silent_put {l : Loc} {o : Object} : Silent (put l o) := silent_onStore

theorem silent_alloc {o : Object} : Silent (alloc o) := silent_onStore

theorem silent_view {v : Value} : Silent (view v) := silent_ask

theorem silent_viewAll {vs : List Value} : Silent (viewAll vs) := silent_ask

theorem silent_log {level : Level} {logger message : String} : Silent (log level logger message) :=
  silent_modify

theorem silent_decided {o : Option Bool} : Silent (decided o) := by
  cases o with
  | none => exact silent_misuse
  | some b => exact silent_pure

theorem silent_written {o : Option String} : Silent (written o) := by
  cases o with
  | none => exact silent_misuse
  | some t => exact silent_pure

theorem silent_inRange {o : Option α} : Silent (inRange o) := by
  cases o with
  | none => exact silent_misuse
  | some x => exact silent_pure

theorem silent_equal {v w : Value} : Silent (equal v w) := silent_ask.bind fun _ => silent_decided

theorem silent_isIn {v : Value} {vs : List Value} : Silent (isIn v vs) :=
  silent_ask.bind fun _ => silent_decided

theorem silent_render {v : Value} : Silent (render v) := silent_view.bind fun _ => silent_written

theorem silent_display {v : Value} : Silent (display v) := silent_view.bind fun _ => silent_written

theorem silent_number {n : Numeral} : Silent (number n) := by
  cases n with
  | nan => exact silent_onStore
  | _ => exact silent_pure

theorem silent_mapM {f : α → Act β} : ∀ {xs : List α}, (∀ x ∈ xs, Silent (f x)) → Silent (xs.mapM f) := by
  intro xs
  induction xs with
  | nil => exact fun _ => silent_pure
  | cons x xs ih =>
    intro h
    rw [List.mapM_cons]
    refine (h x List.mem_cons_self).bind fun _ => ?_
    exact (ih fun y hy => h y (List.mem_cons_of_mem x hy)).bind fun _ => silent_pure

end Act

/-! ## Drawing -/

namespace Draw

theorem silent_below {n : Nat} : Silent (below n) :=
  silent_get.bind fun _ => silent_set.bind fun _ => silent_pure

theorem silent_unit : Silent unit := silent_get.bind fun _ => silent_set.bind fun _ => silent_pure

theorem silent_intBetween {low high : Int} : Silent (intBetween low high) :=
  silent_below.bind fun _ => silent_pure

theorem silent_index {n : Nat} : Silent (index n) := by
  unfold index
  split
  · refine silent_get.bind fun w => ?_
    split
    · exact silent_misuse
    · exact silent_throw trivial
  · split
    · exact silent_pure
    · exact silent_below

theorem silent_choose {α : Type} {xs : List α} : Silent (choose xs) := by
  refine silent_index.bind fun i => ?_
  split
  · exact silent_pure
  · exact silent_misuse

theorem silent_boolean : Silent boolean := by
  refine silent_get.bind fun w => ?_
  split
  · exact silent_pure
  · exact silent_unit.bind fun _ => silent_pure

theorem silent_requireOrdered {low high : Value} : Silent (requireOrdered low high) := by
  refine silent_view.bind fun lo => silent_view.bind fun hi => ?_
  split
  · exact silent_misuse
  · exact silent_display.bind fun _ => silent_display.bind fun _ => silent_throw trivial
  · exact silent_pure

theorem silent_numeral {v : Value} : Silent (numeral v) := by
  refine silent_view.bind fun d => ?_
  split
  · exact silent_pure
  · exact silent_misuse

theorem silent_whole {n : Numeral} : Silent (whole n) := by
  unfold whole
  split
  · exact silent_pure
  · exact silent_misuse
  · split
    · exact silent_misuse
    · split
      · exact silent_pure
      · exact silent_misuse

theorem silent_offset {low high : Value} {entry : Int} : Silent (offset low high entry) := by
  refine silent_numeral.bind fun a => silent_numeral.bind fun b => silent_inRange.bind fun distance => ?_
  refine silent_inRange.bind fun size => silent_inRange.bind fun part => ?_
  exact silent_inRange.bind fun n => silent_number

theorem silent_drawWhole {low high : Value} : Silent (drawWhole low high) := by
  refine silent_numeral.bind fun a => silent_inRange.bind fun past => silent_numeral.bind fun b => ?_
  refine silent_whole.bind fun first => silent_whole.bind fun last => ?_
  dsimp only
  split
  · exact silent_misuse.bind fun _ => silent_intBetween.bind fun _ => silent_pure
  · exact silent_intBetween.bind fun _ => silent_pure

theorem silent_intInRange {low high : Value} : Silent (intInRange low high) := by
  refine silent_get.bind fun w => ?_
  dsimp only
  split
  · exact silent_pure
  · refine silent_requireOrdered.bind fun _ => ?_
    split
    · exact silent_modify.bind fun _ => silent_offset
    · exact silent_drawWhole

theorem silent_floatInRange {low high : Value} : Silent (floatInRange low high) := by
  refine silent_get.bind fun w => ?_
  split
  · exact silent_pure
  · refine silent_requireOrdered.bind fun _ => ?_
    split
    · exact silent_unit.bind fun _ => silent_misuse
    · refine silent_numeral.bind fun a => silent_numeral.bind fun b => silent_inRange.bind fun span => ?_
      refine silent_unit.bind fun r => silent_inRange.bind fun part => ?_
      exact silent_inRange.bind fun n => silent_number

theorem silent_arbitraryAtom {a : Atom} : Silent (arbitraryAtom a) := by
  cases a with
  | null => exact silent_pure
  | bool b => exact silent_boolean.bind fun _ => silent_pure
  | int n => exact silent_intBetween.bind fun _ => silent_pure
  | float x => exact silent_floatInRange
  | nan m => exact silent_floatInRange
  | text t =>
    refine Silent.bind (a := arbitraryText) ?_ fun _ => silent_pure
    exact silent_intBetween.bind fun _ => (silent_mapM fun _ _ => silent_choose).bind fun _ => silent_pure
  | bytes bs =>
    refine Silent.bind (a := arbitraryBytes) ?_ fun _ => silent_pure
    exact silent_intBetween.bind fun _ => silent_mapM fun _ _ => silent_below.bind fun _ => silent_pure
  | member cls i => exact silent_index.bind fun _ => silent_pure
  | sealed cls => exact silent_throw trivial
  | enumeration cls => exact silent_throw trivial
  | absent m => exact silent_throw trivial

theorem silent_newRecord {cls : RecordClass} {xs : List Value} : Silent (newRecord cls xs) := by
  unfold newRecord
  split
  · exact silent_pure
  · exact silent_alloc.bind fun _ => silent_pure

theorem silent_likeFields {like : Value → Act Value} (hlike : ∀ v, Silent (like v)) :
    ∀ {fs : List Field} {xs : List Value}, Silent (likeFields like fs xs) := by
  intro fs
  induction fs with
  | nil => exact silent_pure
  | cons f fs ih =>
    intro xs
    cases xs with
    | nil => exact silent_pure
    | cons x xs =>
      rw [likeFields]
      split
      · exact (hlike x).bind fun _ => ih.bind fun _ => silent_pure
      · exact silent_pure.bind fun _ => ih.bind fun _ => silent_pure

theorem silent_likeObject {like : Value → Act Value} (hlike : ∀ v, Silent (like v)) {o : Object} :
    Silent (likeObject like o) := by
  unfold likeObject
  split
  · exact silent_alloc.bind fun _ => silent_pure
  · refine silent_intBetween.bind fun n => (silent_mapM fun _ _ => hlike _).bind fun items => ?_
    exact silent_alloc.bind fun _ => silent_pure
  · next es =>
    have hentries : Silent (es.mapM fun e => do return (e.1, ← like e.2)) :=
      silent_mapM fun e _ => (hlike e.2).bind fun _ => silent_pure
    exact hentries.bind fun entries => silent_alloc.bind fun _ => silent_pure
  · next cls xs extras =>
    split
    · exact settles_throw trivial
    · exact (silent_likeFields hlike).bind fun _ => silent_newRecord
  · exact silent_misuse

theorem silent_likeWithin (levels : Nat) : ∀ v : Value, Silent (likeWithin levels v) := by
  induction levels with
  | zero => exact fun _ => silent_misuse
  | succ levels ih =>
    intro v
    cases v with
    | atom a => exact silent_arbitraryAtom
    | tuple cls xs => exact (silent_mapM fun x _ => ih x).bind fun _ => silent_pure
    | set xs => exact silent_throw trivial
    | frozen cls xs => exact (silent_likeFields ih).bind fun _ => silent_newRecord
    | ref l =>
      refine silent_ask.bind fun o => ?_
      split
      · exact silent_likeObject ih
      · exact silent_misuse

theorem silent_arbitrary {v : Value} : Silent (arbitrary v) := by
  refine silent_get.bind fun w => ?_
  split
  · exact silent_pure
  · exact silent_likeWithin _ v

end Draw

open Draw

/-- Whether a recipe that fails brings no report. -/
def Recipe.Silent (r : Recipe) : Prop := ∀ e, r = .error e → e.Carries fun _ => False

/-- Whether all recipes of a generator are silent. -/
def Generator.Silent : Generator → Prop
  | .int low high => low.Silent ∧ high.Silent
  | .const r | .arbitrary r => r.Silent
  | .choose rs => ∀ r ∈ rs, Recipe.Silent r

theorem Recipe.silent_make {r : Recipe} (h : r.Silent) : Act.Silent r.make := by
  cases r with
  | ok d => exact silent_pure.bind fun _ => silent_onStore
  | error e => exact (silent_throw (h e rfl)).bind fun _ => silent_onStore

theorem Generator.silent_draw {g : Generator} (h : g.Silent) : Act.Silent g.draw := by
  cases g with
  | int low high =>
    exact (Recipe.silent_make h.1).bind fun _ => (Recipe.silent_make h.2).bind fun _ => silent_intInRange
  | const r => exact Recipe.silent_make h
  | choose rs => exact (silent_mapM fun r hr => Recipe.silent_make (h r hr)).bind fun _ => silent_choose
  | arbitrary r => exact (Recipe.silent_make h).bind fun _ => silent_arbitrary

/-- Whether an accessor brings no report when it fails. Only one that brings its own reading and writing may. -/
def Accessor.Silent : Accessor → Prop
  | .custom _ get set => (∀ s v e, get s v = .error e → e.Carries fun _ => False) ∧
    ∀ s v part e, set s v part = .error e → e.Carries fun _ => False
  | _ => True

namespace Fact

/-! ## Searching -/

section

variable {f : Fact} {c : Loc} {g : Option Generator} {n : Int} {v : Value} {α : Type}

theorem silent_described : Silent f.described := silent_ask.bind fun _ => silent_written

/-- A fact that gives up without a report is silent. -/
theorem silent_giveUp {reason : String} : Silent (f.giveUp reason none : Act α) :=
  silent_described.bind fun _ => silent_throw trivial

/-- A fact that gives up with a report brings the violations of it. -/
theorem settles_giveUp {P : α → Prop} {S : Violation → Prop} {reason : String} {r : Report}
    (h : ∀ x ∈ r.violations, S x) : Settles (f.giveUp reason (some r) : Act α) P S :=
  silent_described.bind fun _ => settles_throw h

theorem silent_drawLike {template : Value} : Silent (f.drawLike template) := by
  refine Settles.tryCatch silent_arbitrary fun e he => ?_
  split
  · exact silent_giveUp
  · exact silent_throw he

theorem silent_drawCandidate (hg : ∀ x ∈ g, x.Silent) {template : Value} :
    Silent (f.drawCandidate g template) := by
  cases g with
  | none => exact silent_drawLike
  | some x => exact Generator.silent_draw (hg x rfl)

theorem silent_drawUntil {accept : Value → Act Bool} {draw : Value → Act Value}
    (haccept : ∀ x, Silent (accept x)) (hdraw : ∀ x, Silent (draw x)) :
    ∀ {k : Nat} {v : Value}, Silent (Search.drawUntil accept draw k v) := by
  intro k
  induction k with
  | zero => exact silent_pure
  | succ k ih =>
    intro v
    refine (hdraw v).bind fun x => (haccept x).bind fun ok => ?_
    split
    · exact silent_pure
    · exact ih

theorem silent_search {accept : Value → Act Bool} {draw : Value → Act Value}
    (haccept : ∀ x, Silent (accept x)) (hdraw : ∀ x, Silent (draw x)) {k : Nat} {v : Value} :
    Silent (Search.run accept draw k v) := by
  refine (haccept v).bind fun ok => ?_
  split
  · exact silent_pure
  · exact silent_drawUntil haccept hdraw

/-! ## Checking leaves -/

theorem silent_reportUnless {ok : Bool} {message : Act String} (h : Silent message) :
    Silent (reportUnless ok message) := by
  unfold reportUnless
  split
  · exact silent_pure
  · exact h.bind fun _ => silent_pure

theorem silent_equalityReport {equal : Bool} {x y : Value} : Silent (equalityReport equal x y) := by
  refine silent_equal.bind fun _ => silent_reportUnless ?_
  exact silent_render.bind fun _ => silent_render.bind fun _ => silent_pure

theorem silent_checkRange {inside : Bool} : Silent (checkRange c inside v) := by
  have hspan : Silent (do Act.written (← Act.ask (spanText · c))) :=
    silent_ask.bind fun _ => silent_written
  refine silent_ask.bind fun low => silent_view.bind fun dl => silent_ask.bind fun high => ?_
  refine silent_view.bind fun dh => silent_view.bind fun d => ?_
  split
  · exact hspan.bind fun _ => silent_render.bind fun _ => silent_pure
  · exact silent_reportUnless (silent_render.bind fun _ => hspan.bind fun _ => silent_pure)

theorem silent_items : Silent (items v) := by
  refine silent_ask.bind fun o => ?_
  split
  · exact silent_pure
  · exact silent_misuse
  · exact silent_misuse

theorem silent_elements : Silent (elements v) := by
  refine silent_ask.bind fun o => ?_
  split
  · exact silent_pure
  · exact silent_misuse

theorem silent_sum {a b : Value} : Silent (sum a b) := by
  refine silent_view.bind fun _ => silent_view.bind fun _ => ?_
  split
  · exact silent_inRange.bind fun _ => silent_number
  · exact silent_misuse

theorem silent_takeNext : Silent (takeNext c) :=
  silent_ask.bind fun _ => silent_ask.bind fun _ => silent_sum.bind fun _ =>
    silent_put.bind fun _ => silent_pure

theorem silent_remember : Silent (remember c v) := by
  refine silent_ask.bind fun o => ?_
  split
  · exact silent_ask.bind fun _ => silent_put
  · exact silent_pure

theorem silent_checkCounter : Silent (checkCounter c v) := by
  refine silent_takeNext.bind fun _ => silent_equal.bind fun _ => silent_reportUnless ?_
  refine silent_ask.bind fun _ => silent_display.bind fun _ => ?_
  exact silent_render.bind fun _ => silent_render.bind fun _ => silent_pure

theorem silent_checkDistinct : Silent (checkDistinct c v) := by
  refine silent_ask.bind fun _ => silent_isIn.bind fun _ => silent_remember.bind fun _ => ?_
  exact silent_reportUnless (silent_render.bind fun _ => silent_pure)

theorem silent_checkTest {name : String} {test : Data → Bool} : Silent (checkTest name test v) :=
  silent_view.bind fun _ => silent_reportUnless (silent_render.bind fun _ => silent_pure)

theorem silent_checkMembership : Silent (checkMembership c v) := by
  refine silent_ask.bind fun _ => silent_isIn.bind fun _ => silent_reportUnless ?_
  exact silent_ask.bind fun _ => silent_written.bind fun _ => silent_render.bind fun _ => silent_pure

theorem silent_checkCandidates : Silent (checkCandidates c v) :=
  silent_ask.bind fun _ => silent_isIn.bind fun _ =>
    silent_reportUnless (silent_render.bind fun _ => silent_pure)

theorem silent_checkLength {size : Int} : Silent (checkLength size v) :=
  silent_elements.bind fun _ => silent_reportUnless (silent_render.bind fun _ => silent_pure)

/-! ## Mutating leaves -/

theorem silent_mutateDifferent (hg : ∀ x ∈ g, x.Silent) : Silent (mutateDifferent f c g n v) := by
  refine silent_ask.bind fun value => Silent.bind (silent_search (fun _ => ?_) fun _ => ?_) fun o => ?_
  · exact silent_equal.bind fun _ => silent_pure
  · exact silent_drawCandidate hg
  · split
    · exact silent_pure
    · exact silent_render.bind fun _ => silent_giveUp

theorem silent_mutateMembership : Silent (mutateMembership f c v) := by
  refine silent_ask.bind fun options => silent_isIn.bind fun found => ?_
  dsimp only
  split
  · exact silent_pure
  · split
    · exact silent_giveUp.bind fun _ => silent_choose
    · exact silent_choose

theorem silent_difference {a b : Value} : Silent (difference a b) := by
  refine silent_view.bind fun _ => silent_view.bind fun _ => ?_
  split
  · exact silent_inRange.bind fun _ => silent_number
  · exact silent_misuse

theorem silent_readFloating {t : String} : Silent (readFloating t) := by
  unfold readFloating
  split
  · exact silent_number
  · exact silent_misuse

theorem silent_toFloating : Silent (toFloating v) := by
  refine silent_view.bind fun d => ?_
  split
  · exact silent_readFloating
  · split
    · exact silent_readFloating
    · exact silent_misuse
  · exact silent_pure
  · split
    · exact silent_inRange.bind fun _ => silent_pure
    · exact silent_misuse

theorem silent_fillEnds {low high : Value} {floating : Bool} : Silent (fillEnds low high floating) := by
  unfold fillEnds
  dsimp only
  split
  · exact silent_pure
  · split
    · exact silent_difference.bind fun _ => silent_pure
    · split
      · exact silent_sum.bind fun _ => silent_pure
      · exact silent_pure

theorem silent_drawBetween {ends : Value × Value} {floating : Bool} : Silent (drawBetween ends floating) := by
  unfold drawBetween
  split
  · exact silent_toFloating.bind fun _ => silent_toFloating.bind fun _ => silent_floatInRange
  · exact silent_intInRange

theorem silent_anyFloat {vs : List Value} : Silent (anyFloat vs) := silent_viewAll.bind fun _ => silent_pure

theorem silent_mutateInside : Silent (mutateInside f c v) := by
  have hrest : ∀ low high : Value, Silent (do
      if (← checkRange c true v).ok then return v
      let floating ← anyFloat [low, high, v]
      drawBetween (← fillEnds low high floating) floating) := by
    intro low high
    refine silent_checkRange.bind fun r => ?_
    split
    · exact silent_pure
    · exact silent_anyFloat.bind fun _ => silent_fillEnds.bind fun _ => silent_drawBetween
  refine silent_ask.bind fun low => silent_ask.bind fun high => ?_
  split
  · refine silent_view.bind fun dh => silent_view.bind fun dl => ?_
    split
    · exact silent_misuse.bind fun _ => hrest low high
    · refine silent_ask.bind fun _ => silent_written.bind fun _ => ?_
      exact silent_giveUp.bind fun _ => hrest low high
    · exact hrest low high
  · exact hrest low high

theorem silent_stepOut {bound : Value} {floating up : Bool} : Silent (stepOut bound floating up) := by
  unfold stepOut
  split
  · refine silent_view.bind fun d => ?_
    split
    · exact silent_inRange.bind fun _ => silent_number
    · exact silent_misuse
  · split
    · exact silent_sum
    · exact silent_difference

theorem silent_drawBeside (f : Fact) (sides : List (Value × Value)) {floating : Bool} : Silent (do
    if sides.isEmpty then f.giveUp "nothing lies outside an unbounded range" none
    let (low, high) ← Draw.choose sides
    drawBetween (← fillEnds low high floating) floating) := by
  dsimp only
  split
  · exact silent_giveUp.bind fun _ => silent_choose.bind fun _ => silent_fillEnds.bind fun _ => silent_drawBetween
  · exact silent_choose.bind fun _ => silent_fillEnds.bind fun _ => silent_drawBetween

theorem silent_mutateOutside : Silent (mutateOutside f c v) := by
  refine silent_checkRange.bind fun r => ?_
  split
  · exact silent_pure
  · refine silent_ask.bind fun low => silent_ask.bind fun high => silent_anyFloat.bind fun floating => ?_
    dsimp only
    split <;> split
    · exact silent_drawBeside f []
    · exact silent_stepOut.bind fun y => silent_drawBeside f [(y, Value.null)]
    · exact silent_stepOut.bind fun x => silent_drawBeside f [(Value.null, x)]
    · refine silent_stepOut.bind fun x => silent_stepOut.bind fun y => ?_
      exact silent_drawBeside f [(Value.null, x), (y, Value.null)]

theorem silent_withFirst {a b : Value} : Silent (withFirst v a b) := by
  unfold withFirst
  split
  · refine silent_ask.bind fun o => ?_
    split
    · exact silent_put.bind fun _ => silent_pure
    · exact silent_pure
  · exact silent_pure
  · exact silent_pure

theorem silent_mutatePair {equal : Bool} (hg : ∀ x ∈ g, x.Silent) :
    Silent (mutatePair f equal g n v) := by
  refine silent_items.bind fun p => ?_
  dsimp only
  split
  · exact silent_withFirst
  · refine Silent.bind (silent_search (fun _ => ?_) fun _ => ?_) fun o => ?_
    · exact silent_equal.bind fun _ => silent_pure
    · exact silent_drawCandidate hg
    · split
      · exact silent_withFirst
      · exact silent_render.bind fun _ => silent_giveUp

theorem silent_mutateDistinct (hg : ∀ x ∈ g, x.Silent) : Silent (mutateDistinct f c g n v) := by
  refine Silent.bind (silent_search (fun _ => ?_) fun _ => ?_) fun o => ?_
  · exact silent_ask.bind fun _ => silent_isIn.bind fun _ => silent_pure
  · exact silent_drawCandidate hg
  · split
    · exact silent_remember.bind fun _ => silent_pure
    · exact silent_giveUp

theorem silent_mutateBrute {test : Data → Bool} (hg : ∀ x ∈ g, x.Silent) :
    Silent (mutateBrute f test g n v) := by
  refine Silent.bind (silent_search (fun _ => ?_) fun _ => ?_) fun o => ?_
  · exact silent_view.bind fun _ => silent_pure
  · exact silent_drawCandidate hg
  · split
    · exact silent_pure
    · exact silent_giveUp

theorem silent_rebuild {xs : List Value} : Silent (f.rebuild v xs) := by
  refine silent_get.bind fun w => ?_
  split
  · exact silent_modify.bind fun _ => silent_pure
  · exact silent_written.bind fun _ => silent_giveUp

theorem silent_drawElement (hg : ∀ x ∈ g, x.Silent) : Silent (f.drawElement c g v) := by
  unfold drawElement
  split
  · next x => exact Generator.silent_draw (hg x rfl)
  · refine silent_ask.bind fun like => ?_
    split
    · have hletters : ∀ letters : String, Silent (do
          if letters = "" then
            f.giveUp "cannot extend an empty str without `like` or `generate`" none
          Draw.choose (Store.characters letters)) := by
        intro letters
        split
        · exact silent_giveUp.bind fun _ => silent_choose
        · exact silent_choose
      exact hletters _
    · refine silent_elements.bind fun own => ?_
      have htemplate : ∀ template : Value, Silent (do
          if template.isNull then
            f.giveUp "cannot extend an empty sequence without `like` or `generate`" none
          f.drawLike template) := by
        intro template
        split
        · exact silent_giveUp.bind fun _ => silent_drawLike
        · exact silent_drawLike
      exact htemplate _

theorem silent_mutateLength {size : Int} (hg : ∀ x ∈ g, x.Silent) :
    Silent (f.mutateLength c size g v) := by
  refine silent_ask.bind fun o => ?_
  split
  · exact silent_misuse
  · exact (silent_mapM fun _ _ => silent_drawElement hg).bind fun _ => silent_rebuild

/-! ## Parts -/

theorem carries_misuse {S : Violation → Prop} {e : Fault} (h : ∃ m, e = .misuse m) : e.Carries S := by
  obtain ⟨m, rfl⟩ := h
  trivial

theorem silent_part? {a : Accessor} (ha : a.Silent) : Silent (part? a v) := by
  refine silent_get.bind fun w => ?_
  have hget : ∀ e, a.get w.store v = .error e → e.Carries fun _ => False := by
    intro e he
    cases a with
    | attr name => exact carries_misuse (Accessor.getAttribute_misuse he)
    | item shown key => exact carries_misuse (Accessor.getItem_misuse he)
    | optionalAttr name =>
      simp only [Accessor.get, Accessor.getOptional] at he
      split at he <;> cases he
    | variant cls => cases he
    | custom name get set => exact ha.1 _ _ e he
  split
  · exact silent_pure
  · next e he =>
    split
    · exact silent_pure
    · exact silent_throw (hget e he)

theorem silent_write {a : Accessor} (ha : a.Silent) {part : Value} : Silent (a.write v part) := by
  refine silent_get.bind fun w => ?_
  have hset : ∀ e, a.set w.store v part = .error e → e.Carries fun _ => False := by
    intro e he
    cases a with
    | attr name => exact carries_misuse (Accessor.setAttribute_misuse he)
    | item shown key => exact carries_misuse (Accessor.setItem_misuse he)
    | optionalAttr name => exact carries_misuse (Accessor.setAttribute_misuse he)
    | variant cls => cases he
    | custom name get set => exact ha.2 _ _ _ e he
  split
  · exact silent_set.bind fun _ => silent_pure
  · next e he => exact silent_throw (hset e he)

end

end Fact

end Conform
