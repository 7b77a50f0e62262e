import Conform.Proofs.Focus
import Conform.Proofs.Stocked

/-!
# The parts that stateful facts see

A stateful fact is followed in one of two ways. Piece by piece it is followed if its counters and distinct facts are
reached through labels, lenses and prisms on entries, the elements of sequences, and conjunctions of lenses and prisms
under different texts (`Fact.Tracked`). `Fact.watched` are then the parts of a value that each of them sees, and
`Fact.path` is the objects that lead to them. A value is laid out for the fact if these objects are guarded, and
different ones lead to what different members or elements see (`Fact.Laid`). All of this stays while the objects on the
path do (`Fact.Tracked.unmoved`).

As a whole a fact is followed if it is made of counters, lenses, labels, conjunctions and facts that do not advance
(`Fact.Tallied`). Whatever the values are, each counter is used a fixed number of times (`Fact.rate`), so it is enough
that a value is apart from what is guarded. Below a lens a fact is followed piece by piece where this may be possible
(`Fact.piecewise`), and else as a whole.
-/

namespace Conform

open Act

/-- The part of a value that a lens uses its fact on, or a prism, for which a part that is absent counts as missing. -/
def Accessor.used? (a : Accessor) (prism : Bool) (s : Store) (v : Value) : Option Value :=
  match a.get s v with
  | .ok x => if prism && x.isAbsent then none else some x
  | .error _ => none

/-- The elements of a tuple or a list. -/
def Store.row? (s : Store) : Value → Option (List Value)
  | .tuple _ xs => some xs
  | .ref l =>
    match s.get? l with
    | some (.list xs) => some xs
    | _ => none
  | _ => none

/-- Whether a generator draws immutable values that are not empty. -/
def Generator.Plain (g : Generator) : Prop := Yields g.draw fun x => x.Immutable ∧ x.isNull = false

namespace Fact

open Conform.Accessor

/-! ## Facts -/

/-- The text under which a lens or a prism finds its part. -/
def key? : Fact → Option String
  | .lens _ a _ _ =>
    match a.key? with
    | some (.text n) => some n
    | _ => none
  | .prism _ a _ _ =>
    match a.slot? with
    | some (.text n) => some n
    | _ => none
  | .labeled _ _ f _ => f.key?
  | _ => none

/-- Whether facts are lenses and prisms under different texts. -/
structure Apiece (fs : List Fact) : Prop where
  some : ∀ f ∈ fs, f.key?.isSome
  differ : fs.Pairwise fun f g => f.key? ≠ g.key?

instance (fs : List Fact) : Decidable (Apiece fs) :=
  decidable_of_iff ((∀ f ∈ fs, f.key?.isSome) ∧ fs.Pairwise fun f g => f.key? ≠ g.key?)
    ⟨fun h => ⟨h.1, h.2⟩, fun h => ⟨h.1, h.2⟩⟩

/-- Whether a fact that advances may be followed piece by piece. -/
def piecewise : Fact → Bool
  | .counter _ | .distinct _ _ _ => true
  | .labeled _ _ f _ => f.piecewise
  | .lens _ a f _ => f.stateful && a.key?.isSome
  | .prism _ _ f _ | .each _ f _ => f.stateful
  | .all _ fs _ b => b && decide (Apiece fs)
  | _ => false

/-- Whether a fact uses each of its counters a fixed number of times, and nothing else of it advances. -/
inductive Tallied : Fact → Prop
  | still {f : Fact} : f.stateful = false → Tallied f
  | counter {c : Loc} : Tallied (.counter c)
  | labeled {c : Loc} {name : String} {f : Fact} {b : Bool} : Tallied f → Tallied (.labeled c name f b)
  | lens {c : Loc} {a : Accessor} {f : Fact} {b : Bool} : Tallied f → Tallied (.lens c a f b)
  | all {c : Loc} {fs : List Fact} {n : Int} {b : Bool} : (∀ f ∈ fs, Tallied f) → Tallied (.all c fs n b)

/-- Whether a fact leads to what advances in it through labels, lenses and prisms on entries, elements, and conjunctions
of lenses and prisms under different texts, and to facts that are followed as a whole. -/
inductive Tracked : Fact → Prop
  | counter {c : Loc} : Tracked (.counter c)
  | distinct {c : Loc} {g : Option Generator} {n : Int} : (∀ r ∈ g, r.Plain) → Tracked (.distinct c g n)
  | labeled {c : Loc} {name : String} {f : Fact} {b : Bool} : Tracked f → Tracked (.labeled c name f b)
  | lens {c : Loc} {a : Accessor} {f : Fact} {b : Bool} : a.key?.isSome → (f.piecewise = true → Tracked f) →
    (f.piecewise = false → f.Tallied) → Tracked (.lens c a f b)
  | prism {c : Loc} {a : Accessor} {f : Fact} {b : Bool} : a.slot?.isSome → (f.piecewise = true → Tracked f) →
    (f.piecewise = false → f.stateful = false) → Tracked (.prism c a f b)
  | each {c : Loc} {f : Fact} {b : Bool} : (f.piecewise = true → Tracked f) → (f.piecewise = false → f.Tallied) →
    Tracked (.each c f b)
  | all {c : Loc} {fs : List Fact} {n : Int} : Apiece fs → (∀ f ∈ fs, Tracked f) → Tracked (.all c fs n true)

/-- Whether facts can be followed, piece by piece or as a whole. -/
structure Followed (p : Bool) (fs : List Fact) : Prop where
  tracked : p = true → ∀ f ∈ fs, f.Tracked
  tallied : p = false → ∀ f ∈ fs, f.Tallied

mutual

/-- How often a fact that is followed as a whole uses the counter at a cell. -/
def rate (c : Loc) : Fact → Nat
  | .counter d => if d = c then 1 else 0
  | .labeled _ _ f _ | .lens _ _ f _ => f.rate c
  | .all _ fs _ _ => rateAll c fs
  | _ => 0

/-- How often several facts do. -/
def rateAll (c : Loc) : List Fact → Nat
  | [] => 0
  | f :: fs => f.rate c + rateAll c fs

end

/-! ## Values -/

/-- The parts of a value that a lens, a prism or a fact about elements uses its fact on. -/
def pieces (s : Store) : Fact → Value → List Value
  | .lens _ a _ _, v => (a.used? false s v).toList
  | .prism _ a _ _, v => (a.used? true s v).toList
  | .each _ _ _, v => (s.row? v).getD []
  | _, _ => []

mutual

/-- The objects that lead to the parts that stateful facts see. -/
def path (s : Store) : Fact → Value → Set Loc
  | .labeled _ _ f _, v => f.path s v
  | g@(.lens _ _ f _), v | g@(.prism _ _ f _), v | g@(.each _ f _), v =>
    {l | v = .ref l ∨ ∃ x ∈ g.pieces s v, f.piecewise = true ∧ l ∈ f.path s x}
  | .all _ fs _ _, v => pathAll s fs v
  | _, _ => ∅

/-- The objects for several facts. -/
def pathAll (s : Store) : List Fact → Value → Set Loc
  | [], _ => ∅
  | f :: fs, v => f.path s v ∪ pathAll s fs v

end

mutual

/-- The parts that the counter or the distinct fact at a cell sees, in the order in which it sees them. A fact that is
followed as a whole counts as seeing its value as often as it uses the counter. -/
def watched (s : Store) (c : Loc) : Fact → Value → List Value
  | .counter d, v | .distinct d _ _, v => if d = c then [v] else []
  | .labeled _ _ f _, v => f.watched s c v
  | g@(.lens _ _ f _), v | g@(.prism _ _ f _), v | g@(.each _ f _), v =>
    (g.pieces s v).flatMap fun x => if f.piecewise then f.watched s c x else List.replicate (f.rate c) x
  | .all _ fs _ _, v => watchedAll s c fs v
  | _, _ => []

/-- The parts for several facts. -/
def watchedAll (s : Store) (c : Loc) : List Fact → Value → List Value
  | [], _ => []
  | f :: fs, v => f.watched s c v ++ watchedAll s c fs v

end

/-- Whether a value is a guarded object or no object, and takes no attributes that it shares with others. -/
structure Opens (s : Store) (X : Set Loc) (v : Value) : Prop where
  guarded : ∀ l, v = .ref l → l ∈ X
  complete : ∀ l o, v = .ref l → s.get? l = some o → o.Complete
  plain : ∀ c, v = .atom c → c.owner? = none

/-- Whether a value has the parts that a fact is used on: elements are those of a tuple or a list. -/
def Divides (s : Store) : Fact → Value → Prop
  | .each _ _ _, v => (s.row? v).isSome
  | _, _ => True

mutual

/-- Whether the objects that lead to what stateful facts see are guarded, not part of themselves, and different for
different elements and members of a conjunction, which is about an object. What a distinct fact sees is immutable, and
what is followed as a whole is apart from what is guarded. -/
def Laid (s : Store) (X : Set Loc) : Fact → Value → Prop
  | .counter _, _ => True
  | .distinct _ _ _, v => v.Immutable
  | .labeled _ _ f _, v => f.Laid s X v
  | g@(.lens _ _ f _), v | g@(.prism _ _ f _), v | g@(.each _ f _), v =>
    (Opens s X v ∧ g.Divides s v) ∧
      (∀ x ∈ g.pieces s v, (f.piecewise = true → f.Laid s X x ∧ ∀ l, v = .ref l → l ∉ f.path s x) ∧
        (f.piecewise = false → x.Clear X s.size)) ∧
      (g.pieces s v).Pairwise fun x y => f.piecewise = true → ∀ l ∈ f.path s x, l ∉ f.path s y
  | .all _ fs _ _, v => (∃ l, v = .ref l) ∧ LaidAll s X fs v
  | _, _ => False

/-- Whether they are for several facts. -/
def LaidAll (s : Store) (X : Set Loc) : List Fact → Value → Prop
  | [], _ => True
  | f :: fs, v => f.Laid s X v ∧ LaidAll s X fs v ∧ ∀ l ∈ f.path s v, l ∈ pathAll s fs v → v = .ref l

end

/-! ## Following facts either way -/

/-- The objects that lead to what facts see that are followed piece by piece. -/
def trail (s : Store) (p : Bool) (fs : List Fact) (v : Value) : Set Loc := {l | p = true ∧ l ∈ pathAll s fs v}

/-- What facts see at a cell, followed in either way. -/
def noticed (s : Store) (p : Bool) (c : Loc) (fs : List Fact) (v : Value) : List Value :=
  if p then watchedAll s c fs v else List.replicate (rateAll c fs) v

/-- Whether a value is laid out for facts that are followed piece by piece, or apart from what is guarded. -/
structure Rests (s : Store) (X : Set Loc) (p : Bool) (fs : List Fact) (v : Value) : Prop where
  laid : p = true → LaidAll s X fs v
  clear : p = false → v.Clear X s.size

/-- Whether a fact is a lens or a prism to another one, or about elements. -/
inductive Over : Fact → Fact → Prop
  | lens {c : Loc} {a : Accessor} {f : Fact} {b : Bool} : Over (.lens c a f b) f
  | prism {c : Loc} {a : Accessor} {f : Fact} {b : Bool} : Over (.prism c a f b) f
  | each {c : Loc} {f : Fact} {b : Bool} : Over (.each c f b) f

variable {s t : Store} {X Y : Set Loc} {f g : Fact} {fs : List Fact} {p : Bool} {v w x : Value} {c l : Loc}
  {m : Loc → Loc}

section

variable {a : Accessor} {name : String} {k : Int} {b : Bool}

theorem used?_eq_some {o : Bool} : a.used? o s v = some x ↔ a.get s v = .ok x ∧ (o = true → x.isAbsent = false) := by
  unfold Accessor.used?
  cases a.get s v with
  | error e => simp
  | ok y =>
    simp only [Except.ok.injEq, Option.ite_none_left_eq_some, Bool.and_eq_true, not_and, Bool.not_eq_true,
      Option.some.injEq]
    constructor
    · rintro ⟨hy, rfl⟩
      exact ⟨rfl, hy⟩
    · rintro ⟨rfl, hy⟩
      exact ⟨hy, rfl⟩

theorem mem_pathAll_cons : l ∈ pathAll s (f :: fs) v ↔ l ∈ f.path s v ∨ l ∈ pathAll s fs v := by
  rw [pathAll]
  rfl

theorem pathAll_singleton : pathAll s [f] v = f.path s v := by
  rw [pathAll, pathAll, Set.union_empty]

theorem watchedAll_singleton : watchedAll s c [f] v = f.watched s c v := by
  rw [watchedAll, watchedAll, List.append_nil]

theorem laidAll_singleton : LaidAll s X [f] v ↔ f.Laid s X v := by
  rw [LaidAll, LaidAll]
  exact ⟨fun h => h.1, fun h => ⟨h, trivial, fun _ _ hl => hl.elim⟩⟩

theorem laid_of_mem (h : LaidAll s X fs v) (hf : f ∈ fs) : f.Laid s X v := by
  induction fs with
  | nil => cases hf
  | cons g fs ih =>
    rcases List.mem_cons.mp hf with rfl | hf
    · exact h.1
    · exact ih h.2.1 hf

theorem rateAll_singleton : rateAll c [f] = f.rate c := by
  rw [rateAll, rateAll, Nat.add_zero]

theorem path_labeled : (Fact.labeled c name f b).path s v = f.path s v := by
  rw [path]

theorem laid_labeled : (Fact.labeled c name f b).Laid s X v ↔ f.Laid s X v := by
  rw [Laid]

theorem opens_ref (hl : l ∈ X) (ho : ∀ o, s.get? l = some o → o.Complete) : Opens s X (.ref l) := by
  refine ⟨?_, ?_, fun _ hc => by cases hc⟩
  · rintro m ⟨⟩
    exact hl
  · rintro m o ⟨⟩ hget
    exact ho o hget

theorem Followed.head (h : Followed p (f :: fs)) : Followed p [f] where
  tracked := fun hp g hg => h.tracked hp g (by simp [List.mem_singleton.mp hg])
  tallied := fun hp g hg => h.tallied hp g (by simp [List.mem_singleton.mp hg])

theorem Followed.tail (h : Followed p (f :: fs)) : Followed p fs where
  tracked := fun hp g hg => h.tracked hp g (by simp [hg])
  tallied := fun hp g hg => h.tallied hp g (by simp [hg])

theorem followed_singleton : Followed p [f] ↔ (p = true → f.Tracked) ∧ (p = false → f.Tallied) :=
  ⟨fun h => ⟨fun hp => h.tracked hp f (by simp), fun hp => h.tallied hp f (by simp)⟩,
    fun h => ⟨fun hp _ hg => List.mem_singleton.mp hg ▸ h.1 hp, fun hp _ hg => List.mem_singleton.mp hg ▸ h.2 hp⟩⟩

theorem rests_singleton : Rests s X p [f] v ↔ (p = true → f.Laid s X v) ∧ (p = false → v.Clear X s.size) :=
  ⟨fun h => ⟨fun hp => laidAll_singleton.mp (h.laid hp), h.clear⟩,
    fun h => ⟨fun hp => laidAll_singleton.mpr (h.1 hp), h.2⟩⟩

theorem followed_pieces : Followed true fs ↔ ∀ f ∈ fs, f.Tracked :=
  ⟨fun h => h.tracked rfl, fun h => ⟨fun _ => h, fun hp => by cases hp⟩⟩

theorem followed_whole : Followed false fs ↔ ∀ f ∈ fs, f.Tallied :=
  ⟨fun h => h.tallied rfl, fun h => ⟨fun hp => (by cases hp), fun _ => h⟩⟩

theorem rests_pieces : Rests s X true fs v ↔ LaidAll s X fs v :=
  ⟨fun h => h.laid rfl, fun h => ⟨fun _ => h, fun hp => by cases hp⟩⟩

theorem rests_whole : Rests s X false fs v ↔ v.Clear X s.size :=
  ⟨fun h => h.clear rfl, fun h => ⟨fun hp => (by cases hp), fun _ => h⟩⟩

theorem rests_piece : Rests s X true [f] v ↔ f.Laid s X v := rests_pieces.trans laidAll_singleton

theorem mem_trail_singleton : l ∈ trail s p [f] v ↔ p = true ∧ l ∈ f.path s v := by
  rw [← pathAll_singleton]
  rfl

theorem mem_trail_cons : l ∈ trail s p (f :: fs) v ↔ l ∈ trail s p [f] v ∨ l ∈ trail s p fs v := by
  rw [mem_trail_singleton]
  show p = true ∧ l ∈ pathAll s (f :: fs) v ↔ _ ∨ p = true ∧ l ∈ pathAll s fs v
  rw [mem_pathAll_cons, and_or_left]

theorem Rests.head (h : Rests s X p (f :: fs) v) : Rests s X p [f] v :=
  rests_singleton.mpr ⟨fun hp => (h.laid hp).1, h.clear⟩

theorem Rests.tail (h : Rests s X p (f :: fs) v) : Rests s X p fs v := ⟨fun hp => (h.laid hp).2.1, h.clear⟩

theorem Rests.cons (h : Rests s X p [f] v) (hs : Rests s X p fs v)
    (happart : ∀ l ∈ trail s p [f] v, l ∈ trail s p fs v → v = .ref l) : Rests s X p (f :: fs) v where
  laid := fun hp => ⟨(rests_singleton.mp h).1 hp, hs.laid hp,
    fun l hl hl' => happart l (mem_trail_singleton.mpr ⟨hp, hl⟩) ⟨hp, hl'⟩⟩
  clear := h.clear

theorem trail_true : trail s true fs v = pathAll s fs v := by simp [trail]

theorem trail_false : trail s false fs v = ∅ := by simp [trail]

theorem not_mem_trail_false : l ∉ trail s false fs v := by simp [trail]

end

namespace Over

theorem mem_path (h : Over g f) : l ∈ g.path s v ↔ v = .ref l ∨ ∃ x ∈ g.pieces s v, l ∈ trail s f.piecewise [f] x := by
  simp only [mem_trail_singleton]
  cases h <;> simp only [path] <;> rfl

theorem watched_eq (h : Over g f) : g.watched s c v = (g.pieces s v).flatMap (noticed s f.piecewise c [f]) := by
  have hpiece : noticed s f.piecewise c [f] =
      fun x => if f.piecewise then f.watched s c x else List.replicate (f.rate c) x := by
    funext x
    rw [noticed, watchedAll_singleton, rateAll_singleton]
  rw [hpiece]
  cases h <;> rw [watched]

theorem laid_iff (h : Over g f) : g.Laid s X v ↔ (Opens s X v ∧ g.Divides s v) ∧
    (∀ x ∈ g.pieces s v, Rests s X f.piecewise [f] x ∧ ∀ l, v = .ref l → l ∉ trail s f.piecewise [f] x) ∧
      (g.pieces s v).Pairwise fun x y => ∀ l ∈ trail s f.piecewise [f] x, l ∉ trail s f.piecewise [f] y := by
  have hpiece : ∀ x, (f.piecewise = true → f.Laid s X x ∧ ∀ l, v = .ref l → l ∉ f.path s x) ∧
      (f.piecewise = false → x.Clear X s.size) ↔
        Rests s X f.piecewise [f] x ∧ ∀ l, v = .ref l → l ∉ trail s f.piecewise [f] x := by
    intro x
    simp only [rests_singleton, mem_trail_singleton]
    constructor
    · rintro ⟨hlaid, hclear⟩
      exact ⟨⟨fun hp => (hlaid hp).1, hclear⟩, fun l hl hmem => (hlaid hmem.1).2 l hl hmem.2⟩
    · rintro ⟨⟨hlaid, hclear⟩, hroot⟩
      exact ⟨fun hp => ⟨hlaid hp, fun l hl hmem => hroot l hl ⟨hp, hmem⟩⟩, hclear⟩
  have hapart : ∀ x y, (f.piecewise = true → ∀ l ∈ f.path s x, l ∉ f.path s y) ↔
      ∀ l ∈ trail s f.piecewise [f] x, l ∉ trail s f.piecewise [f] y := by
    intro x y
    simp only [mem_trail_singleton]
    exact ⟨fun h l hl hmem => h hl.1 l hl.2 hmem.2, fun h hp l hl hmem => h l ⟨hp, hl⟩ ⟨hp, hmem⟩⟩
  simp only [← hpiece, ← hapart]
  cases h <;> rw [Laid]

end Over

/-! ## Guarded paths -/

mutual

theorem path_guarded : ∀ {f : Fact} {v : Value}, f.Laid s X v → l ∈ f.path s v → l ∈ X
  | .labeled _ _ f _, v, h, hl => by
    rw [laid_labeled] at h
    rw [path_labeled] at hl
    exact path_guarded h hl
  | .lens _ _ f _, v, h, hl | .prism _ _ f _, v, h, hl | .each _ f _, v, h, hl => by
    rw [Over.laid_iff (by constructor)] at h
    rcases (Over.mem_path (by constructor)).mp hl with hl | ⟨x, hx, hl⟩
    · exact h.1.1.guarded l hl
    · obtain ⟨hp, hl⟩ := mem_trail_singleton.mp hl
      exact path_guarded ((rests_singleton.mp (h.2.1 x hx).1).1 hp) hl
  | .all _ fs _ _, v, h, hl => by
    rw [Laid] at h
    rw [path] at hl
    exact pathAll_guarded h.2 hl
  | .choice _ _ _, _, _, hl | .always _, _, _, hl | .never _ _, _, _, hl | .predicate _ _ _, _, _, hl
  | .pair _ _ _ _, _, _, hl | .brute _ _ _ _ _, _, _, hl | .membership _, _, _, hl | .range _ _, _, _, hl
  | .equality _ _ _ _, _, _, hl | .length _ _ _, _, _, hl | .mapped _ _ _ _ _, _, _, hl
  | .foreign _ _, _, _, hl | .either _ _ _ _, _, _, hl | .negation _ _ _ _, _, _, hl
  | .counter _, _, _, hl | .distinct _ _ _, _, _, hl => by
    simp [path] at hl

theorem pathAll_guarded : ∀ {fs : List Fact} {v : Value}, LaidAll s X fs v → l ∈ pathAll s fs v → l ∈ X
  | [], _, _, hl => by
    rw [pathAll] at hl
    exact hl.elim
  | f :: fs, v, h, hl => by
    rw [LaidAll] at h
    rcases mem_pathAll_cons.mp hl with hl | hl
    · exact path_guarded h.1 hl
    · exact pathAll_guarded h.2.1 hl

end

theorem Rests.guarded (h : Rests s X p fs v) (hl : l ∈ trail s p fs v) : l ∈ X :=
  pathAll_guarded (h.laid hl.1) hl.2

/-! ## Moving cells -/

theorem key?_move : ∀ f : Fact, (f.move m).key? = f.key?
  | .labeled _ _ f _ => key?_move f
  | .choice _ f _ => by cases f <;> rfl
  | .always _ | .never _ _ | .predicate _ _ _ | .pair _ _ _ _ | .brute _ _ _ _ _ | .membership _
  | .range _ _ | .counter _ | .equality _ _ _ _ | .length _ _ _ | .distinct _ _ _ | .mapped _ _ _ _ _
  | .foreign _ _ | .all _ _ _ _ | .either _ _ _ _ | .negation _ _ _ _ | .lens _ _ _ _ | .prism _ _ _ _
  | .each _ _ _ => rfl

theorem apiece_move : Apiece (moveAll m fs) ↔ Apiece fs := by
  have hmap : moveAll m fs = fs.map (Fact.move m) := by
    induction fs with
    | nil => rfl
    | cons f fs ih => rw [moveAll, ih, List.map_cons]
  have hsome : (∀ f ∈ moveAll m fs, f.key?.isSome) ↔ ∀ f ∈ fs, f.key?.isSome := by
    simp only [hmap, List.forall_mem_map, key?_move]
  have hdiffer : ((moveAll m fs).Pairwise fun f g => f.key? ≠ g.key?) ↔ fs.Pairwise fun f g => f.key? ≠ g.key? := by
    simp only [hmap, List.pairwise_map, key?_move]
  exact ⟨fun h => ⟨hsome.mp h.some, hdiffer.mp h.differ⟩, fun h => ⟨hsome.mpr h.some, hdiffer.mpr h.differ⟩⟩

theorem piecewise_move : ∀ f : Fact, (f.move m).piecewise = f.piecewise
  | .labeled _ _ f _ => piecewise_move f
  | .lens _ _ f _ | .prism _ _ f _ | .each _ f _ => by simp only [move, piecewise, stateful_move]
  | .all _ fs _ _ => by simp only [move, piecewise, apiece_move]
  | .choice _ f _ => by cases f <;> rfl
  | .always _ | .never _ _ | .predicate _ _ _ | .pair _ _ _ _ | .brute _ _ _ _ _ | .membership _
  | .range _ _ | .counter _ | .equality _ _ _ _ | .length _ _ _ | .distinct _ _ _ | .mapped _ _ _ _ _
  | .foreign _ _ | .either _ _ _ _ | .negation _ _ _ _ => rfl

theorem Over.move (h : Over g f) : Over (g.move m) (f.move m) := by
  cases h <;> constructor

mutual

theorem path_move : ∀ (f : Fact) (v : Value), (f.move m).path s v = f.path s v
  | .labeled _ _ f _, v => path_move f v
  | .lens _ _ f _, v | .prism _ _ f _, v | .each _ f _, v => by
    simp only [move, path, piecewise_move, path_move f, pieces]
  | .all _ fs _ _, v => by simp only [move, path, pathAll_move fs]
  | .choice _ f _, v => by cases f <;> rfl
  | .always _, _ | .never _ _, _ | .predicate _ _ _, _ | .pair _ _ _ _, _ | .brute _ _ _ _ _, _
  | .membership _, _ | .range _ _, _ | .counter _, _ | .equality _ _ _ _, _ | .length _ _ _, _
  | .distinct _ _ _, _ | .mapped _ _ _ _ _, _ | .foreign _ _, _ | .either _ _ _ _, _ | .negation _ _ _ _, _ => rfl

theorem pathAll_move : ∀ (fs : List Fact) (v : Value), pathAll s (moveAll m fs) v = pathAll s fs v
  | [], _ => rfl
  | f :: fs, v => by simp only [moveAll, pathAll, path_move f, pathAll_move fs]

end

mutual

theorem laid_move : ∀ (f : Fact) (v : Value), (f.move m).Laid s X v ↔ f.Laid s X v
  | .labeled _ _ f _, v => laid_move f v
  | .lens _ _ f _, v | .prism _ _ f _, v | .each _ f _, v => by
    simp only [move, Laid, piecewise_move, path_move f, laid_move f, pieces, Divides]
  | .all _ fs _ _, v => by simp only [move, Laid, laidAll_move fs]
  | .choice _ f _, v => by cases f <;> rfl
  | .always _, _ | .never _ _, _ | .predicate _ _ _, _ | .pair _ _ _ _, _ | .brute _ _ _ _ _, _
  | .membership _, _ | .range _ _, _ | .counter _, _ | .equality _ _ _ _, _ | .length _ _ _, _
  | .distinct _ _ _, _ | .mapped _ _ _ _ _, _ | .foreign _ _, _ | .either _ _ _ _, _
  | .negation _ _ _ _, _ => Iff.rfl

theorem laidAll_move : ∀ (fs : List Fact) (v : Value), LaidAll s X (moveAll m fs) v ↔ LaidAll s X fs v
  | [], _ => Iff.rfl
  | f :: fs, v => by simp only [moveAll, LaidAll, path_move f, pathAll_move fs, laid_move f, laidAll_move fs]

end

theorem trail_move : trail s p (moveAll m fs) v = trail s p fs v := by
  rw [trail, trail, pathAll_move]

theorem rests_move : Rests s X p (moveAll m fs) v ↔ Rests s X p fs v :=
  ⟨fun h => ⟨fun hp => (laidAll_move fs v).mp (h.laid hp), h.clear⟩,
    fun h => ⟨fun hp => (laidAll_move fs v).mpr (h.laid hp), h.clear⟩⟩

theorem mem_moveAll : g ∈ moveAll m fs ↔ ∃ f ∈ fs, f.move m = g := by
  induction fs with
  | nil => simp [moveAll]
  | cons f fs ih => simp [moveAll, ih, eq_comm]

theorem Tallied.move (h : f.Tallied) : (f.move m).Tallied := by
  induction h with
  | still hs => exact .still ((stateful_move m _).trans hs)
  | counter => exact .counter
  | labeled _ ih => exact .labeled ih
  | lens _ ih => exact .lens ih
  | all _ ih =>
    rw [Fact.move]
    refine .all fun g hg => ?_
    obtain ⟨f, hf, rfl⟩ := mem_moveAll.mp hg
    exact ih f hf

theorem Tracked.move (h : f.Tracked) : (f.move m).Tracked := by
  induction h with
  | counter => exact .counter
  | distinct hg => exact .distinct hg
  | labeled _ ih => exact .labeled ih
  | lens ha _ hwhole ih =>
    refine .lens ha (fun hp => ih ((piecewise_move _).symm.trans hp)) fun hp => ?_
    exact (hwhole ((piecewise_move _).symm.trans hp)).move
  | prism ha _ hwhole ih =>
    refine .prism ha (fun hp => ih ((piecewise_move _).symm.trans hp)) fun hp => ?_
    exact (stateful_move m _).trans (hwhole ((piecewise_move _).symm.trans hp))
  | each _ hwhole ih =>
    refine .each (fun hp => ih ((piecewise_move _).symm.trans hp)) fun hp => ?_
    exact (hwhole ((piecewise_move _).symm.trans hp)).move
  | all hap _ ih =>
    rw [Fact.move]
    refine .all (apiece_move.mpr hap) fun g hg => ?_
    obtain ⟨f, hf, rfl⟩ := mem_moveAll.mp hg
    exact ih f hf

theorem Followed.move (h : Followed p fs) : Followed p (moveAll m fs) where
  tracked := fun hp g hg => by
    obtain ⟨f, hf, rfl⟩ := mem_moveAll.mp hg
    exact (h.tracked hp f hf).move
  tallied := fun hp g hg => by
    obtain ⟨f, hf, rfl⟩ := mem_moveAll.mp hg
    exact (h.tallied hp f hf).move

mutual

/-- The copy of a counter is used as often as the counter. -/
theorem rate_move : ∀ {f : Fact}, (∀ n ∈ f.nodes, m n.cell = m c → n.cell = c) → (f.move m).rate (m c) = f.rate c
  | .counter d, h => by
    have hd : m d = m c ↔ d = c := ⟨h _ (self_mem_nodes _), congrArg m⟩
    simp only [move, rate, hd]
  | .labeled _ _ f _, h => rate_move (f := f) fun n hn => h n (by simp [nodes, hn])
  | .lens _ _ f _, h => rate_move (f := f) fun n hn => h n (by simp [nodes, hn])
  | .all _ fs _ _, h => by
    show rateAll (m c) (moveAll m fs) = rateAll c fs
    exact rateAll_move fun n hn => h n (by simp [nodes, hn])
  | .choice _ f _, _ => by cases f <;> rfl
  | .always _, _ | .never _ _, _ | .predicate _ _ _, _ | .pair _ _ _ _, _ | .brute _ _ _ _ _, _
  | .membership _, _ | .range _ _, _ | .equality _ _ _ _, _ | .length _ _ _, _ | .distinct _ _ _, _
  | .mapped _ _ _ _ _, _ | .foreign _ _, _ | .either _ _ _ _, _ | .negation _ _ _ _, _ | .prism _ _ _ _, _
  | .each _ _ _, _ => rfl

theorem rateAll_move : ∀ {fs : List Fact}, (∀ n ∈ nodesAll fs, m n.cell = m c → n.cell = c) →
    rateAll (m c) (moveAll m fs) = rateAll c fs
  | [], _ => rfl
  | f :: fs, h => by
    rw [moveAll, rateAll, rateAll, rate_move fun n hn => h n (by simp [nodesAll, hn]),
      rateAll_move fun n hn => h n (by simp [nodesAll, hn])]

end

mutual

/-- What the copy of a cell sees is what the cell sees. -/
theorem watched_move : ∀ {f : Fact} {v : Value}, (∀ n ∈ f.nodes, m n.cell = m c → n.cell = c) →
    (f.move m).watched s (m c) v = f.watched s c v
  | .counter d, v, h | .distinct d _ _, v, h => by
    have hd : m d = m c ↔ d = c := ⟨h _ (self_mem_nodes _), congrArg m⟩
    simp only [move, watched, hd]
  | .labeled _ _ f _, v, h => watched_move (f := f) fun n hn => h n (by simp [nodes, hn])
  | .lens _ _ f _, v, h | .prism _ _ f _, v, h | .each _ f _, v, h => by
    have hbelow : ∀ n ∈ f.nodes, m n.cell = m c → n.cell = c := fun n hn => h n (by simp [nodes, hn])
    have hwatched : ∀ x, (f.move m).watched s (m c) x = f.watched s c x := fun x => watched_move hbelow
    simp only [move, watched, piecewise_move, rate_move hbelow, hwatched, pieces]
  | .all _ fs _ _, v, h => show watchedAll s (m c) (moveAll m fs) v = watchedAll s c fs v from
    watchedAll_move fun n hn => h n (by simp [nodes, hn])
  | .choice _ f _, v, _ => by cases f <;> rfl
  | .always _, _, _ | .never _ _, _, _ | .predicate _ _ _, _, _ | .pair _ _ _ _, _, _
  | .brute _ _ _ _ _, _, _ | .membership _, _, _ | .range _ _, _, _ | .equality _ _ _ _, _, _
  | .length _ _ _, _, _ | .mapped _ _ _ _ _, _, _ | .foreign _ _, _, _ | .either _ _ _ _, _, _
  | .negation _ _ _ _, _, _ => rfl

theorem watchedAll_move : ∀ {fs : List Fact} {v : Value}, (∀ n ∈ nodesAll fs, m n.cell = m c → n.cell = c) →
    watchedAll s (m c) (moveAll m fs) v = watchedAll s c fs v
  | [], _, _ => rfl
  | f :: fs, v, h => by
    rw [moveAll, watchedAll, watchedAll, watched_move fun n hn => h n (by simp [nodesAll, hn]),
      watchedAll_move fun n hn => h n (by simp [nodesAll, hn])]

end

theorem noticed_move (h : ∀ n ∈ nodesAll fs, m n.cell = m c → n.cell = c) :
    noticed s p (m c) (moveAll m fs) v = noticed s p c fs v := by
  rw [noticed, noticed, watchedAll_move h, rateAll_move h]

/-! ## Cells that see nothing -/

mutual

theorem rate_eq_zero : ∀ {f : Fact}, (∀ n ∈ f.nodes, n.cell = c → n.kind? ≠ some .counter) → f.rate c = 0
  | .counter d, h => if_neg fun hd => h _ (self_mem_nodes _) hd rfl
  | .labeled _ _ f _, h => rate_eq_zero (f := f) fun n hn => h n (by simp [nodes, hn])
  | .lens _ _ f _, h => rate_eq_zero (f := f) fun n hn => h n (by simp [nodes, hn])
  | .all _ fs _ _, h => by
    show rateAll c fs = 0
    exact rateAll_eq_zero fun n hn => h n (by simp [nodes, hn])
  | .choice _ _ _, _ | .always _, _ | .never _ _, _ | .predicate _ _ _, _ | .pair _ _ _ _, _ | .brute _ _ _ _ _, _
  | .membership _, _ | .range _ _, _ | .equality _ _ _ _, _ | .length _ _ _, _ | .distinct _ _ _, _
  | .mapped _ _ _ _ _, _ | .foreign _ _, _ | .either _ _ _ _, _ | .negation _ _ _ _, _ | .prism _ _ _ _, _
  | .each _ _ _, _ => rfl

theorem rateAll_eq_zero : ∀ {fs : List Fact}, (∀ n ∈ nodesAll fs, n.cell = c → n.kind? ≠ some .counter) →
    rateAll c fs = 0
  | [], _ => rfl
  | f :: fs, h => by
    rw [rateAll, rate_eq_zero fun n hn => h n (by simp [nodesAll, hn]),
      rateAll_eq_zero fun n hn => h n (by simp [nodesAll, hn])]

end

mutual

/-- Cells of other nodes see nothing. -/
theorem watched_eq_nil : ∀ {f : Fact} {v : Value},
    (∀ n ∈ f.nodes, n.cell = c → n.kind? ≠ some .counter ∧ n.kind? ≠ some .memory) → f.watched s c v = []
  | .counter d, v, h => if_neg fun hd => (h _ (self_mem_nodes _) hd).1 rfl
  | .distinct d _ _, v, h => if_neg fun hd => (h _ (self_mem_nodes _) hd).2 rfl
  | .labeled _ _ f _, v, h => watched_eq_nil (f := f) fun n hn => h n (by simp [nodes, hn])
  | .lens _ _ f _, v, h | .prism _ _ f _, v, h | .each _ f _, v, h => by
    have hbelow : ∀ n ∈ f.nodes, n.cell = c → n.kind? ≠ some .counter ∧ n.kind? ≠ some .memory := fun n hn =>
      h n (by simp [nodes, hn])
    have hwatched : ∀ x, f.watched s c x = [] := fun x => watched_eq_nil hbelow
    have hrate : f.rate c = 0 := rate_eq_zero fun n hn hc => (hbelow n hn hc).1
    simp only [watched, hwatched, hrate, List.replicate_zero, ite_self, List.flatMap_eq_nil_iff, implies_true]
  | .all _ fs _ _, v, h => show watchedAll s c fs v = [] from
    watchedAll_eq_nil fun n hn => h n (by simp [nodes, hn])
  | .choice _ _ _, _, _ | .always _, _, _ | .never _ _, _, _ | .predicate _ _ _, _, _ | .pair _ _ _ _, _, _
  | .brute _ _ _ _ _, _, _ | .membership _, _, _ | .range _ _, _, _ | .equality _ _ _ _, _, _
  | .length _ _ _, _, _ | .mapped _ _ _ _ _, _, _ | .foreign _ _, _, _ | .either _ _ _ _, _, _
  | .negation _ _ _ _, _, _ => rfl

theorem watchedAll_eq_nil : ∀ {fs : List Fact} {v : Value},
    (∀ n ∈ nodesAll fs, n.cell = c → n.kind? ≠ some .counter ∧ n.kind? ≠ some .memory) →
      watchedAll s c fs v = []
  | [], _, _ => rfl
  | f :: fs, v, h => by
    rw [watchedAll, watched_eq_nil fun n hn => h n (by simp [nodesAll, hn]),
      watchedAll_eq_nil fun n hn => h n (by simp [nodesAll, hn])]
    rfl

end

theorem noticed_eq_nil (h : ∀ n ∈ nodesAll fs, n.cell = c → n.kind? ≠ some .counter ∧ n.kind? ≠ some .memory) :
    noticed s p c fs v = [] := by
  rw [noticed, watchedAll_eq_nil h, rateAll_eq_zero fun n hn hc => (h n hn hc).1, List.replicate_zero, ite_self]

/-- Facts that do not advance see nothing that is noted. -/
theorem noticed_of_stateless (hf : f.Formed) (hs : f.stateful = false) : noticed s p c [f] v = [] := by
  refine noticed_eq_nil fun n hn _ => ?_
  rw [nodesAll, nodesAll, List.append_nil] at hn
  refine ⟨fun hk => ?_, fun hk => ?_⟩
  · cases kind_of_stateless hf hs n hn _ hk
  · cases kind_of_stateless hf hs n hn _ hk

/-! ## What a path depends on -/

/-- Whether what a fact sees of a value, and by what path, is the same in two stores. -/
structure Unmoved (f : Fact) (v : Value) (s t : Store) : Prop where
  path : f.path t v = f.path s v
  watched : ∀ c, f.watched t c v = f.watched s c v
  laid : ∀ {X Y}, f.Laid s X v → Grown s X Y → s.size ≤ t.size → f.Laid t Y v

/-- Whether it is the same for several facts, followed in either way. -/
structure UnmovedAll (p : Bool) (fs : List Fact) (v : Value) (s t : Store) : Prop where
  trail : trail t p fs v = trail s p fs v
  noticed : ∀ c, noticed t p c fs v = noticed s p c fs v
  rests : ∀ {X Y}, Rests s X p fs v → Grown s X Y → s.size ≤ t.size → Rests t Y p fs v

/-- What is followed as a whole is unmoved anyway. -/
theorem unmovedAll_false : UnmovedAll false fs v s t where
  trail := by rw [trail_false, trail_false]
  noticed := fun _ => rfl
  rests := fun h hg hsize => rests_whole.mpr ((rests_whole.mp h).grow hg hsize)

theorem unmovedAll_nil : UnmovedAll true [] v s t where
  trail := by rw [trail_true, trail_true, pathAll, pathAll]
  noticed := fun _ => rfl
  rests := fun _ _ _ => rests_pieces.mpr trivial

theorem UnmovedAll.cons (h : Unmoved f v s t) (hs : UnmovedAll true fs v s t) : UnmovedAll true (f :: fs) v s t := by
  have hpaths : pathAll t fs v = pathAll s fs v := by
    rw [← trail_true, hs.trail, trail_true]
  refine ⟨by rw [trail_true, trail_true, pathAll, pathAll, h.path, hpaths], fun c => ?_, fun hl hg hsize => ?_⟩
  · have hseen := hs.noticed c
    simp only [Fact.noticed, if_true, watchedAll, h.watched] at hseen ⊢
    rw [hseen]
  · obtain ⟨hfirst, hrest, hapart⟩ := rests_pieces.mp hl
    have hrests := hs.rests (rests_pieces.mpr hrest) hg hsize
    refine rests_pieces.mpr ⟨h.laid hfirst hg hsize, rests_pieces.mp hrests, ?_⟩
    rw [h.path, hpaths]
    exact hapart

theorem unmovedAll_singleton (h : Unmoved f v s t) : UnmovedAll true [f] v s t := .cons h unmovedAll_nil

/-- A lens is unmoved if it reads the same part, and what is below it is unmoved; and so are facts like it. -/
theorem Over.unmoved (h : Over g f) (hpieces : g.pieces t v = g.pieces s v)
    (hopens : ∀ {X Y}, Opens s X v → Grown s X Y → Opens t Y v) (hdivides : g.Divides s v → g.Divides t v)
    (hbelow : ∀ x ∈ g.pieces s v, UnmovedAll f.piecewise [f] x s t) : Unmoved g v s t := by
  refine ⟨?_, fun c => ?_, fun hl hg hsize => ?_⟩
  · ext l
    rw [h.mem_path, h.mem_path, hpieces]
    refine or_congr Iff.rfl (exists_congr fun x => and_congr_right fun hx => ?_)
    rw [(hbelow x hx).trail]
  · rw [h.watched_eq, h.watched_eq, hpieces]
    exact List.flatMap_congr fun x hx => (hbelow x hx).noticed c
  · rw [h.laid_iff] at hl ⊢
    obtain ⟨⟨hopen, hdivide⟩, hparts, hapart⟩ := hl
    rw [hpieces]
    refine ⟨⟨hopens hopen hg, hdivides hdivide⟩, fun x hx => ?_, ?_⟩
    · rw [(hbelow x hx).trail]
      exact ⟨(hbelow x hx).rests (hparts x hx).1 hg hsize, (hparts x hx).2⟩
    · refine hapart.imp_of_mem fun {x y} hx hy hxy => ?_
      rw [(hbelow x hx).trail, (hbelow y hy).trail]
      exact hxy

theorem Opens.same (hsame : ∀ l, v = .ref l → t.get? l = s.get? l) (h : Opens s X v) (hg : Grown s X Y) :
    Opens t Y v where
  guarded := fun l hl => hg.old (h.guarded l hl)
  complete := fun l o hl ho => h.complete l o hl ((hsame l hl).symm.trans ho)
  plain := h.plain

theorem row?_same (hsame : ∀ l, v = .ref l → t.get? l = s.get? l) : t.row? v = s.row? v := by
  cases v with
  | ref l => simp only [Store.row?, hsame l rfl]
  | _ => rfl

theorem used?_congr {a : Accessor} {o : Bool} (h : a.get t v = a.get s v) : a.used? o t v = a.used? o s v := by
  rw [Accessor.used?, Accessor.used?, h]

/-- The pieces of a value depend on no other object. -/
theorem Tracked.pieces_same (h : g.Tracked) (hover : Over g f) (hs : s.Owned) (ht : t.Owned)
    (hsame : ∀ l, v = .ref l → t.get? l = s.get? l) (hplain : ∀ c, v = .atom c → c.owner? = none) :
    g.pieces t v = g.pieces s v := by
  cases h with
  | lens ha =>
    obtain ⟨b, hb⟩ := Option.isSome_iff_exists.mp ha
    simp only [pieces]
    rw [used?_congr (get_congr (slot?_of_key? hb) hs ht hsame hplain)]
  | prism ha =>
    obtain ⟨b, hb⟩ := Option.isSome_iff_exists.mp ha
    simp only [pieces]
    rw [used?_congr (get_congr hb hs ht hsame hplain)]
  | each => simp only [pieces, row?_same hsame]
  | _ => cases hover

theorem divides_same (hsame : ∀ l, v = .ref l → t.get? l = s.get? l) (h : g.Divides s v) : g.Divides t v := by
  cases g with
  | each c f b =>
    show (t.row? v).isSome
    rw [row?_same hsame]
    exact h
  | _ => trivial

/-- What is below is followed piece by piece or as a whole. -/
theorem Tracked.inner (h : g.Tracked) (hover : Over g f) : Followed f.piecewise [f] := by
  rw [followed_singleton]
  cases h with
  | lens _ htracked htallied =>
    cases hover
    exact ⟨htracked, htallied⟩
  | prism _ htracked hstill =>
    cases hover
    exact ⟨htracked, fun hp => .still (hstill hp)⟩
  | each htracked htallied =>
    cases hover
    exact ⟨htracked, htallied⟩
  | _ => cases hover

theorem Over.formed (h : Over g f) (hg : g.Formed) : f.Formed := by
  cases h <;> exact hg.2

/-- Facts are unmoved together if each of them is. -/
theorem unmovedAll_of (h : ∀ f ∈ fs, f.Laid s X v → (∀ l ∈ f.path s v, t.get? l = s.get? l) → Unmoved f v s t)
    (hl : LaidAll s X fs v) (hsame : ∀ l ∈ pathAll s fs v, t.get? l = s.get? l) : UnmovedAll true fs v s t := by
  induction fs with
  | nil => exact unmovedAll_nil
  | cons f fs ih =>
    rw [LaidAll] at hl
    refine .cons (h f (by simp) hl.1 fun l hl => hsame l (mem_pathAll_cons.mpr (.inl hl))) ?_
    exact ih (fun g hg => h g (by simp [hg])) hl.2.1 fun l hl => hsame l (mem_pathAll_cons.mpr (.inr hl))

/-- What is below is unmoved while the objects that lead to it do not change. -/
theorem Tracked.unmoved_over (h : g.Tracked) (hover : Over g f) (hs : s.Owned) (ht : t.Owned) (hl : g.Laid s X v)
    (hsame : ∀ l ∈ g.path s v, t.get? l = s.get? l) (hbelow : f.piecewise = true → ∀ x, f.Laid s X x →
      (∀ l ∈ f.path s x, t.get? l = s.get? l) → Unmoved f x s t) : Unmoved g v s t := by
  obtain ⟨⟨hopens, -⟩, hpieces, -⟩ := hover.laid_iff.mp hl
  have hroot : ∀ l, v = .ref l → t.get? l = s.get? l := fun l hl => hsame l (hover.mem_path.mpr (.inl hl))
  refine hover.unmoved (h.pieces_same hover hs ht hroot hopens.plain) (Opens.same hroot)
    (divides_same hroot) fun x hx => ?_
  cases hp : f.piecewise with
  | false => exact unmovedAll_false
  | true =>
    refine unmovedAll_singleton (hbelow hp x ((rests_singleton.mp (hpieces x hx).1).1 hp) fun l hl => ?_)
    exact hsame l (hover.mem_path.mpr (.inr ⟨x, hx, mem_trail_singleton.mpr ⟨hp, hl⟩⟩))

theorem unmoved_labeled {d : Loc} {name : String} {b : Bool} (h : Unmoved f v s t) :
    Unmoved (.labeled d name f b) v s t where
  path := by rw [path_labeled, path_labeled, h.path]
  watched := fun c => by rw [Fact.watched, Fact.watched, h.watched]
  laid := fun hl hg hsize => laid_labeled.mpr (h.laid (laid_labeled.mp hl) hg hsize)

/-- What stateful facts see does not change while the objects that lead to it do not. -/
theorem Tracked.unmoved (h : f.Tracked) (hs : s.Owned) (ht : t.Owned) : ∀ {v : Value}, f.Laid s X v →
    (∀ l ∈ f.path s v, t.get? l = s.get? l) → Unmoved f v s t := by
  induction h with
  | counter => exact fun {v} _ _ => ⟨by simp only [path], fun _ => by simp only [watched], fun _ _ _ => trivial⟩
  | distinct _ =>
    intro v _ _
    exact ⟨by simp only [path], fun _ => by simp only [watched], fun h _ _ => by simpa only [Laid] using h⟩
  | labeled _ ih =>
    intro v hl hsame
    rw [path_labeled] at hsame
    exact unmoved_labeled (ih (laid_labeled.mp hl) hsame)
  | lens ha htracked htallied ih =>
    intro v hl hsame
    exact (Tracked.lens ha htracked htallied).unmoved_over .lens hs ht hl hsame fun hp _ => ih hp
  | prism ha htracked hstill ih =>
    intro v hl hsame
    exact (Tracked.prism ha htracked hstill).unmoved_over .prism hs ht hl hsame fun hp _ => ih hp
  | each htracked htallied ih =>
    intro v hl hsame
    exact (Tracked.each htracked htallied).unmoved_over .each hs ht hl hsame fun hp _ => ih hp
  | @all c fs n hap _ ih =>
    intro v hl hsame
    rw [Laid] at hl
    rw [path] at hsame
    have hunmoved := unmovedAll_of (fun f hf => ih f hf) hl.2 hsame
    refine ⟨?_, fun c => ?_, fun hl hg hsize => ?_⟩
    · rw [path, path, ← trail_true, hunmoved.trail, trail_true]
    · simpa only [noticed, if_true, watched] using hunmoved.noticed c
    · rw [Laid] at hl ⊢
      exact ⟨hl.1, rests_pieces.mp (hunmoved.rests (rests_pieces.mpr hl.2) hg hsize)⟩

/-- This holds of several facts, followed in either way. -/
theorem Followed.unmoved (h : Followed p fs) (hs : s.Owned) (ht : t.Owned) (hl : Rests s X p fs v)
    (hsame : ∀ l ∈ trail s p fs v, t.get? l = s.get? l) : UnmovedAll p fs v s t := by
  cases p with
  | false => exact unmovedAll_false
  | true =>
    rw [trail_true] at hsame
    exact unmovedAll_of (fun f hf => (h.tracked rfl f hf).unmoved hs ht) (hl.laid rfl) hsame

/-! ## What is read under other texts -/

/-- Whether an object is as before but for what is read under the texts of some facts. -/
structure Resembles (fs : List Fact) (l : Loc) (s t : Store) : Prop where
  opens : ∀ {X Y}, Opens s X (.ref l) → Grown s X Y → Opens t Y (.ref l)
  reads : ∀ n, (∀ f ∈ fs, f.key? ≠ some n) → ReadsAlike n (.ref l) s t

theorem used?_alike {a : Accessor} {o : Bool} {n : String} (h : ReadsAlike n v s t) (ha : a.slot? = some (.text n)) :
    a.used? o t v = a.used? o s v := used?_congr (h.get ha)

theorem lens_key? {d : Loc} {a : Accessor} {b : Bool} {n : String} (h : (Fact.lens d a f b).key? = some n) :
    a.key? = some (.text n) := by
  rw [key?] at h
  split at h
  · next heq => rw [heq, Option.some.inj h]
  · cases h

theorem prism_slot? {d : Loc} {a : Accessor} {b : Bool} {n : String} (h : (Fact.prism d a f b).key? = some n) :
    a.slot? = some (.text n) := by
  rw [key?] at h
  split at h
  · next heq => rw [heq, Option.some.inj h]
  · cases h

/-- What a lens under a text leads to is unmoved if the same is read under the text and the objects behind it do not
change. -/
theorem Tracked.unmoved_entry (h : f.Tracked) (hs : s.Owned) (ht : t.Owned) {n : String} (hkey : f.key? = some n)
    (hreads : ReadsAlike n v s t) (hopens : ∀ {X Y}, Opens s X v → Grown s X Y → Opens t Y v) (hl : f.Laid s X v)
    (hsame : ∀ l ∈ f.path s v, v ≠ .ref l → t.get? l = s.get? l) : Unmoved f v s t := by
  have hbelow : ∀ {g f' : Fact}, g.Tracked → Over g f' → g.Laid s X v → (∀ l ∈ g.path s v, v ≠ .ref l →
      t.get? l = s.get? l) → ∀ x ∈ g.pieces s v, UnmovedAll f'.piecewise [f'] x s t := by
    intro g f' hg hover hl hsame x hx
    obtain ⟨-, hpieces, -⟩ := hover.laid_iff.mp hl
    refine (hg.inner hover).unmoved hs ht (hpieces x hx).1 fun l hl => ?_
    exact hsame l (hover.mem_path.mpr (.inr ⟨x, hx, hl⟩)) fun heq => (hpieces x hx).2 l heq hl
  induction h with
  | labeled _ ih =>
    rw [path_labeled] at hsame
    exact unmoved_labeled (ih hkey (laid_labeled.mp hl) hsame)
  | lens ha htracked htallied _ =>
    refine Over.lens.unmoved ?_ hopens (fun _ => trivial) (hbelow (.lens ha htracked htallied) .lens hl hsame)
    simp only [pieces, used?_alike hreads (slot?_of_key? (lens_key? hkey))]
  | prism ha htracked hstill _ =>
    refine Over.prism.unmoved ?_ hopens (fun _ => trivial) (hbelow (.prism ha htracked hstill) .prism hl hsame)
    simp only [pieces, used?_alike hreads (prism_slot? hkey)]
  | _ => cases hkey

/-- So are facts under texts under which others have changed nothing. -/
theorem Resembles.unmoved {gs : List Fact} (h : Resembles gs l s t) (hs : s.Owned) (ht : t.Owned)
    (htracked : ∀ f ∈ fs, f.Tracked) (hkeys : ∀ f ∈ fs, f.key?.isSome)
    (hdiffer : ∀ f ∈ fs, ∀ g ∈ gs, g.key? ≠ f.key?) (hl : LaidAll s X fs (.ref l))
    (hsame : ∀ m ∈ pathAll s fs (.ref l), m ≠ l → t.get? m = s.get? m) : UnmovedAll true fs (.ref l) s t := by
  induction fs with
  | nil => exact unmovedAll_nil
  | cons f fs ih =>
    rw [LaidAll] at hl
    obtain ⟨n, hn⟩ := Option.isSome_iff_exists.mp (hkeys f (by simp))
    refine .cons ((htracked f (by simp)).unmoved_entry hs ht hn (h.reads n fun g hg heq =>
      hdiffer f (by simp) g hg (heq.trans hn.symm)) h.opens hl.1 fun m hm hne => ?_) ?_
    · exact hsame m (mem_pathAll_cons.mpr (.inl hm)) fun heq => hne (heq ▸ rfl)
    · exact ih (fun g hg => htracked g (by simp [hg])) (fun g hg => hkeys g (by simp [hg]))
        (fun g hg => hdiffer g (by simp [hg])) hl.2.1 fun m hm => hsame m (mem_pathAll_cons.mpr (.inr hm))

end Fact

end Conform
