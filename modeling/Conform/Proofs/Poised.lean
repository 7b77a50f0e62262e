import Conform.Proofs.CheckAttributes
import Conform.Proofs.Rounds
import Conform.Proofs.Tracking

/-!
# Values poised for facts

A value is poised for facts if it is laid out for them, what their cells hold is stocked, and no object is both
(`Fact.Poised`). This is what every step of mutation needs and leaves: taking copies (`Poised.copy`), whatever
writes to new objects only (`Poised.later`), and taking over what copies hold (`Poised.commit`). What has been
noted then is the parts that the facts see (`Fact.Noting`).
-/

namespace Conform

open Act

/-! ## Notes -/

/-- What becomes of the notes of a cell that notes some values one after the other: a counter notes the integer
that it expects next, which is the value if notes are exact, and a distinct fact notes a value that is not among its
notes. -/
inductive Fact.Noting (exact : Prop) : CellKind → List Value → List Value → List Value → Prop
  | none {k : CellKind} {xs : List Value} : Noting exact k xs [] xs
  | next {a b : Atom} {j : Int} {v : Value} {vs ys : List Value} : b.integer? = some j → (exact → v = .atom b) →
    Noting exact .counter [.atom a, .int (j + 1)] vs ys → Noting exact .counter [.atom a, .atom b] (v :: vs) ys
  | unseen {v : Value} {xs vs ys : List Value} : Store.empty.isIn? v xs = some false →
    Noting exact .memory (xs ++ [v]) vs ys → Noting exact .memory xs (v :: vs) ys

namespace Fact

section

variable {exact weaker : Prop} {k : CellKind} {xs ys zs us vs : List Value}

theorem Noting.append (h : Noting exact k xs us ys) (h' : Noting exact k ys vs zs) :
    Noting exact k xs (us ++ vs) zs := by
  induction h with
  | none => exact h'
  | next hj hv _ ih => exact .next hj hv (ih h')
  | unseen hnew _ ih => exact .unseen hnew (ih h')

theorem Noting.mono (h : Noting exact k xs us ys) (hexact : weaker → exact) : Noting weaker k xs us ys := by
  induction h with
  | none => exact .none
  | next hj hv _ ih => exact .next hj (fun hw => hv (hexact hw)) ih
  | unseen hnew _ ih => exact .unseen hnew ih

/-- A counter notes as many values of any kind, if notes need not be exact. -/
theorem Noting.replicate (h : Noting False .counter xs us ys) (v : Value) :
    Noting False .counter xs (List.replicate us.length v) ys := by
  generalize hk : CellKind.counter = k at h
  induction h with
  | none => exact .none
  | next hj _ _ ih =>
    rw [List.length_cons, List.replicate_succ]
    exact .next hj False.elim (ih rfl)
  | unseen => cases hk

end

/-- Whether nothing in a fact that advances is followed as a whole. -/
inductive Exact : Fact → Prop
  | counter {c : Loc} : Exact (.counter c)
  | distinct {c : Loc} {g : Option Generator} {n : Int} : Exact (.distinct c g n)
  | labeled {c : Loc} {name : String} {f : Fact} {b : Bool} : Exact f → Exact (.labeled c name f b)
  | above {f g : Fact} : Over g f → (f.piecewise = true → Exact f) → (f.piecewise = false → f.stateful = false) →
    Exact g
  | all {c : Loc} {fs : List Fact} {n : Int} {b : Bool} : (∀ f ∈ fs, Exact f) → Exact (.all c fs n b)

/-- Whether nothing in facts that advances is, if they are followed piece by piece or as a whole. -/
structure ExactAll (p : Bool) (fs : List Fact) : Prop where
  pieces : p = true → ∀ f ∈ fs, f.Exact
  whole : p = false → ∀ f ∈ fs, f.stateful = false

/-! ## Facts among nodes -/

theorem Tame.sub {fs gs : List Fact} (h : Tame fs) (hf : FormedAll gs)
    (hsub : ∀ n ∈ everyNodeAll gs, n ∈ everyNodeAll fs) : Tame gs where
  formed := hf
  accessors := fun n hn => h.accessors n (hsub n hn)
  generators := fun n hn => h.generators n (hsub n hn)

/-- Whether facts can be followed, and all their nodes are among the given ones. -/
structure Suited (ns : List Fact) (p : Bool) (fs : List Fact) : Prop extends Tame fs where
  followed : Followed p fs
  nodes : ∀ n ∈ everyNodeAll fs, n ∈ ns

variable {ns ms fs gs : List Fact} {p : Bool} {f : Fact} {s t : Store} {X Y Z : Set Loc} {v y : Value} {w : World}
  {k : CellKind} {xs ys : List Value} {c : Loc}

theorem ExactAll.head (h : ExactAll p (f :: fs)) : ExactAll p [f] where
  pieces := fun hp g hg => h.pieces hp g (by simp [List.mem_singleton.mp hg])
  whole := fun hp g hg => h.whole hp g (by simp [List.mem_singleton.mp hg])

theorem ExactAll.tail (h : ExactAll p (f :: fs)) : ExactAll p fs where
  pieces := fun hp g hg => h.pieces hp g (by simp [hg])
  whole := fun hp g hg => h.whole hp g (by simp [hg])

theorem exactAll_singleton : ExactAll p [f] ↔ (p = true → f.Exact) ∧ (p = false → f.stateful = false) :=
  ⟨fun h => ⟨fun hp => h.pieces hp f (List.mem_singleton_self f), fun hp => h.whole hp f (List.mem_singleton_self f)⟩,
    fun h => ⟨fun hp _ hg => List.mem_singleton.mp hg ▸ h.1 hp, fun hp _ hg => List.mem_singleton.mp hg ▸ h.2 hp⟩⟩

theorem exactAll_pieces : ExactAll true fs ↔ ∀ f ∈ fs, f.Exact :=
  ⟨fun h => h.pieces rfl, fun h => ⟨fun _ => h, fun hp => by cases hp⟩⟩

theorem exactAll_whole : ExactAll false fs ↔ ∀ f ∈ fs, f.stateful = false :=
  ⟨fun h => h.whole rfl, fun h => ⟨fun hp => (by cases hp), fun _ => h⟩⟩

theorem Exact.inner {g : Fact} (h : g.Exact) (hover : Over g f) : ExactAll f.piecewise [f] := by
  cases h with
  | above hover' hpieces hwhole =>
    cases hover <;> cases hover' <;> exact exactAll_singleton.mpr ⟨hpieces, hwhole⟩
  | _ => cases hover

theorem Exact.move {m : Loc → Loc} (h : f.Exact) : (f.move m).Exact := by
  induction h with
  | counter => exact .counter
  | distinct => exact .distinct
  | labeled _ ih => exact .labeled ih
  | above hover _ hwhole ih =>
    refine .above hover.move (fun hp => ih ((piecewise_move _).symm.trans hp)) fun hp => ?_
    exact (stateful_move m _).trans (hwhole ((piecewise_move _).symm.trans hp))
  | all _ ih =>
    rw [Fact.move]
    refine .all fun g hg => ?_
    obtain ⟨f, hf, rfl⟩ := mem_moveAll.mp hg
    exact ih f hf

theorem ExactAll.move {m : Loc → Loc} (h : ExactAll p fs) : ExactAll p (moveAll m fs) where
  pieces := fun hp g hg => by
    obtain ⟨f, hf, rfl⟩ := mem_moveAll.mp hg
    exact (h.pieces hp f hf).move
  whole := fun hp g hg => by
    obtain ⟨f, hf, rfl⟩ := mem_moveAll.mp hg
    exact (stateful_move m f).trans (h.whole hp f hf)

namespace Suited

theorem sub (h : Suited ns p fs) {q : Bool} (hf : FormedAll gs) (ht : Followed q gs)
    (hsub : ∀ n ∈ everyNodeAll gs, n ∈ everyNodeAll fs) : Suited ns q gs where
  toTame := h.toTame.sub hf hsub
  followed := ht
  nodes := fun n hn => h.nodes n (hsub n hn)

theorem head (h : Suited ns p (f :: fs)) : Suited ns p [f] :=
  h.sub ⟨h.formed.1, trivial⟩ h.followed.head fun n hn => by
    rcases everyNodeAll_cons.mp hn with hn | hn
    · exact everyNodeAll_cons.mpr (.inl hn)
    · cases hn

theorem tail (h : Suited ns p (f :: fs)) : Suited ns p fs :=
  h.sub h.formed.2 h.followed.tail fun _ hn => everyNodeAll_cons.mpr (.inr hn)

theorem cells (h : Suited ns p fs) : ∀ n ∈ nodesAll fs, n ∈ ns := fun n hn =>
  h.nodes n (List.mem_append_left _ hn)

/-- Copies of suited facts are suited. -/
theorem move (h : Suited ns p fs) (r : Relocation) : Suited (withCopies ns fs r) p (moveAll r.place fs) where
  toTame := h.toTame.move
  followed := h.followed.move
  nodes := fun n hn => by
    rcases List.mem_append.mp hn with hn | hn
    · exact List.mem_append_right _ hn
    · rw [chosenAll_move] at hn
      exact List.mem_append_left _ (h.nodes n (List.mem_append_right _ hn))

/-- What facts note that are followed as a whole does not depend on what they see. -/
theorem noting_false {n : Fact} (h : Suited ns false fs) (hst : Stocked s X ns) (hn : n ∈ ns) (hk : n.kind? = some k)
    (hnoted : Noting (ExactAll false fs) k xs (noticed s false n.cell fs v) ys) :
    Noting (ExactAll false fs) k xs (noticed t false n.cell fs y) ys := by
  simp only [noticed, Bool.false_eq_true, if_false] at hnoted ⊢
  by_cases hzero : ∀ m ∈ nodesAll fs, m.cell = n.cell → m.kind? ≠ some .counter
  · rw [rateAll_eq_zero hzero, List.replicate_zero] at hnoted ⊢
    exact hnoted
  · push Not at hzero
    obtain ⟨m, hm, hcell, hcounter⟩ := hzero
    have hkind := hst.kinds m (h.cells m hm) n hn hcell
    rw [hk, hcounter] at hkind
    cases hkind
    have hexact : ¬ ExactAll false fs := fun he => by
      have hstill : fs.any stateful = false := List.any_eq_false.mpr fun f hf => by simp [he.whole rfl f hf]
      cases kindAll_of_stateless h.formed hstill m hm _ hcounter
    have hloose : Noting False .counter xs (List.replicate (rateAll n.cell fs) v) ys := hnoted.mono False.elim
    have hany := hloose.replicate y
    rw [List.length_replicate] at hany
    exact hany.mono hexact

end Suited

/-- Cells hold what they held if they have kept their lists or have come to hold new ones. -/
theorem heldBy_of_lists (h : ∀ n ∈ ns, ∀ l, t.slots n.cell = [.ref l] → s.slots n.cell = [.ref l] ∨ s.size ≤ l)
    (hms : ∀ n ∈ ms, n ∈ ns) {l : Loc} (hl : l ∈ heldBy t ms) : l ∈ heldBy s ms ∨ s.size ≤ l := by
  obtain ⟨n, hn, rfl | hl⟩ := hl
  · exact .inl ⟨n, hn, .inl rfl⟩
  · exact (h n (hms n hn) l hl).imp (fun hl => ⟨n, hn, .inr hl⟩) id

/-! ## Poised values -/

/-- Whether a value is laid out for facts among some nodes, in objects that none of their cells holds. -/
structure Poised (ns : List Fact) (p : Bool) (fs : List Fact) (v : Value) (s : Store) (X : Set Loc) : Prop where
  guarded : s.Guarded X
  stocked : Stocked s X ns
  rests : Rests s X p fs v
  free : ∀ l ∈ trail s p fs v, l ∉ heldBy s ns
  bounded : v.bound ≤ s.size

namespace Poised

theorem trail_lt (h : Poised ns p fs v s X) {l : Loc} (hl : l ∈ trail s p fs v) : l < s.size :=
  h.guarded.bounded l (h.rests.guarded hl)

theorem held_lt (h : Poised ns p fs v s X) {l : Loc} (hl : l ∈ heldBy s ns) : l < s.size :=
  h.guarded.bounded l (h.stocked.held_guarded hl)

theorem head (h : Poised ns p (f :: fs) v s X) : Poised ns p [f] v s X where
  guarded := h.guarded
  stocked := h.stocked
  rests := h.rests.head
  free := fun l hl => h.free l (mem_trail_cons.mpr (.inl hl))
  bounded := h.bounded

theorem tail (h : Poised ns p (f :: fs) v s X) : Poised ns p fs v s X where
  guarded := h.guarded
  stocked := h.stocked
  rests := h.rests.tail
  free := fun l hl => h.free l (mem_trail_cons.mpr (.inr hl))
  bounded := h.bounded

theorem cons (h : Poised ns p [f] v s X) (hs : Poised ns p fs v s X)
    (happart : ∀ l ∈ trail s p [f] v, l ∈ trail s p fs v → v = .ref l) : Poised ns p (f :: fs) v s X where
  guarded := h.guarded
  stocked := h.stocked
  rests := h.rests.cons hs.rests happart
  free := fun l hl => by
    rcases mem_trail_cons.mp hl with hl | hl
    · exact h.free l hl
    · exact hs.free l hl
  bounded := h.bounded

/-- A value stays poised if what the facts see stays and cells come to hold new objects only. -/
theorem of_unmoved (h : Poised ns p fs v s X) (hun : UnmovedAll p fs v s t) (hg : t.Guarded Y)
    (hst : Stocked t Y ns) (hgrown : Grown s X Y) (hsize : s.size ≤ t.size)
    (hheld : ∀ l ∈ heldBy t ns, l ∈ heldBy s ns ∨ s.size ≤ l) : Poised ns p fs v t Y := by
  refine ⟨hg, hst, hun.rests h.rests hgrown hsize, fun l hl => ?_, Nat.le_trans h.bounded hsize⟩
  rw [hun.trail] at hl
  intro hmem
  rcases hheld l hmem with hold | hle
  · exact h.free l hl hold
  · exact Nat.not_lt.mpr hle (h.trail_lt hl)

/-- A value stays poised while the objects that lead to its parts stay as they are, and cells come to hold new objects
only. -/
theorem framed (h : Poised ns p fs v s X) (hsuited : Suited ns p fs) (hg : t.Guarded Y) (hst : Stocked t Y ns)
    (hgrown : Grown s X Y) (hsize : s.size ≤ t.size) (hheld : ∀ l ∈ heldBy t ns, l ∈ heldBy s ns ∨ s.size ≤ l)
    (hsame : ∀ l ∈ trail s p fs v, t.get? l = s.get? l) : Poised ns p fs v t Y ∧ UnmovedAll p fs v s t := by
  have hun := hsuited.followed.unmoved h.guarded.whole.owned hg.whole.owned h.rests hsame
  exact ⟨h.of_unmoved hun hg hst hgrown hsize hheld, hun⟩

/-- A value stays poised while the objects that lead to its parts, and those that cells hold, stay as they
are. -/
theorem keep (h : Poised ns p fs v s X) (hsuited : Suited ns p fs) (hg : t.Guarded Y) (hgrown : Grown s X Y)
    (hsize : s.size ≤ t.size)
    (hsame : ∀ l, l ∈ trail s p fs v ∨ l ∈ heldBy s ns → t.get? l = s.get? l) :
    Poised ns p fs v t Y ∧ UnmovedAll p fs v s t := by
  have hheld : heldBy t ns = heldBy s ns := heldBy_of_same fun n hn => hsame _ (.inr ⟨n, hn, .inl rfl⟩)
  have hst := h.stocked.frame hgrown.old fun l hl => hsame l (.inr hl)
  exact h.framed hsuited hg hst hgrown hsize (fun l hl => .inl (hheld ▸ hl)) fun l hl => hsame l (.inl hl)

/-- The same facts with cells elsewhere are led to by the same objects. -/
theorem of_move {m : Loc → Loc} (h : Poised ns p (moveAll m fs) v s X) (hms : ∀ n ∈ ms, n ∈ ns) :
    Poised ms p fs v s X where
  guarded := h.guarded
  stocked := h.stocked.subset hms
  rests := rests_move.mp h.rests
  free := fun l hl hmem => h.free l (by rwa [trail_move]) (heldBy_mono hms hmem)
  bounded := h.bounded

theorem move {m : Loc → Loc} (h : Poised ns p fs v s X) (hst : Stocked s X ms)
    (hfree : ∀ l ∈ trail s p fs v, l ∉ heldBy s ms) : Poised ms p (moveAll m fs) v s X where
  guarded := h.guarded
  stocked := hst
  rests := rests_move.mpr h.rests
  free := fun l hl => hfree l (by rwa [trail_move] at hl)
  bounded := h.bounded

end Poised

/-! ## Copies -/

/-- How copies stand to the facts that they are copies of when they have been taken. -/
structure CopyOf (fs : List Fact) (s : Store) (r : Relocation) (t : Store) : Prop where
  fresh : ∀ l ∈ heldBy t (nodesAll (moveAll r.place fs)), s.size ≤ l
  noted : ∀ n ∈ nodesAll fs, t.noted (r.place n.cell) = s.noted n.cell
  inj : ∀ n ∈ nodesAll fs, ∀ m ∈ nodesAll fs, r.place n.cell = r.place m.cell → n.cell = m.cell
  size : s.size ≤ t.size
  old : ∀ l, l < s.size → t.get? l = s.get? l

/-- A value is poised for copies of the facts that it is poised for. -/
theorem Poised.copy (h : Poised ns p fs v s X) (hsuited : Suited ns p fs) :
    ∃ Y, Grown s X Y ∧ CopyOf fs s (s.copy (cellsAll fs)).1 (s.copy (cellsAll fs)).2 ∧
      Poised (withCopies ns fs (s.copy (cellsAll fs)).1) p (moveAll (s.copy (cellsAll fs)).1.place fs) v
        (s.copy (cellsAll fs)).2 Y ∧
      UnmovedAll p fs v s (s.copy (cellsAll fs)).2 ∧
      ∀ n ∈ ns, (s.copy (cellsAll fs)).2.noted n.cell = s.noted n.cell := by
  obtain ⟨Y, hgrown, hg, hst, hfresh, hnoted, hinj, hsame⟩ := h.stocked.copy h.guarded hsuited.cells
  have hsize : s.size ≤ (s.copy (cellsAll fs)).2.size := by
    rw [Store.size_copy]
    exact Nat.le_add_right _ _
  have hold : ∀ l, l < s.size → (s.copy (cellsAll fs)).2.get? l = s.get? l :=
    fun l hl => Store.get?_copy_of_lt hl
  have hlt : ∀ l, l ∈ trail s p fs v ∨ l ∈ heldBy s ns → l < s.size := by
    rintro l (hl | hl)
    · exact h.trail_lt hl
    · exact h.held_lt hl
  obtain ⟨hpoised, hun⟩ := h.keep hsuited hg hgrown hsize fun l hl => hold l (hlt l hl)
  refine ⟨Y, hgrown, ⟨hfresh, hnoted, hinj, hsize, hold⟩, hpoised.move hst fun l hl hmem => ?_, hun, hsame⟩
  obtain ⟨n, hn, hl'⟩ := hmem
  rcases List.mem_append.mp hn with hn | hn
  · exact hpoised.free l hl ⟨n, hn, hl'⟩
  · rw [hun.trail] at hl
    exact Nat.not_lt.mpr (hfresh l ⟨n, hn, hl'⟩) (h.trail_lt hl)

end Fact

/-! ## Writing to new objects only -/

/-- The arena in which nothing but new objects is written to. -/
def Arena.anew (s : Store) : Arena := ⟨{p | ∃ l, p = .object l ∧ s.size ≤ l}, Set.univ, s, True⟩

/-- Whether a store has come from another by writing to new objects only. -/
structure Store.Later (s t : Store) : Prop where
  whole : t.Whole
  given : t.given = s.given
  size : s.size ≤ t.size
  old : ∀ l, l < s.size → t.get? l = s.get? l

section

variable {ns fs : List Fact} {p : Bool} {f : Fact} {s t : Store} {X : Set Loc} {v : Value} {w : World}

theorem Store.Owned.holds_anew (h : s.Owned) : (Arena.anew s).Holds s where
  closed := s.closed_univ
  slots := by
    rintro l vs ⟨m, heq, hle⟩ hget
    cases heq
    rw [Store.get?_eq_none hle] at hget
    cases hget
  fresh := fun l hl => ⟨⟨l, rfl, hl⟩, trivial⟩
  owned := h
  frame := .refl _ _

theorem copyable_anew : (Arena.anew s).Copyable := fun _ _ _ _ _ _ _ => trivial

theorem Store.Later.of_runs {α : Type} {a : Act α} {P : α → Prop} {Q : Nat → α → Prop} {n : Nat}
    (hw : w.store.Whole) (hn : n ≤ w.store.size) (hruns : (Arena.anew w.store).Runs a P)
    (hsound : Act.Sound n a Q) (hgiven : Act.Ungiving a) : w.store.Later (exec a w).2.store := by
  obtain ⟨⟨hsize, hwhole⟩, -⟩ := hsound w hw hn
  have hframe := (hruns w hw.owned.holds_anew).1.frame
  exact ⟨hwhole, hgiven w, hsize, fun l hl => hframe.get_old hl⟩

namespace Fact

/-- Whatever is poised stays so when new objects only have been written to. -/
theorem Poised.later (h : s.Later t) (hg : s.Guarded X) : ∃ Y, Grown s X Y ∧ t.Guarded Y ∧
    ∀ {ns : List Fact} {p : Bool} {fs : List Fact} {v : Value}, Suited ns p fs → Poised ns p fs v s X →
      Poised ns p fs v t Y ∧ UnmovedAll p fs v s t ∧ ∀ n ∈ ns, t.noted n.cell = s.noted n.cell := by
  obtain ⟨Y, hgrown, -, hguarded⟩ := hg.grow h.whole h.given h.size fun l hl _ => h.old l hl
  refine ⟨Y, hgrown, hguarded, fun {ns p fs v} hsuited hpoised => ?_⟩
  have hold : ∀ l, l ∈ trail s p fs v ∨ l ∈ heldBy s ns → t.get? l = s.get? l := by
    rintro l (hl | hl)
    · exact h.old l (hpoised.trail_lt hl)
    · exact h.old l (hpoised.held_lt hl)
  obtain ⟨hkept, hun⟩ := hpoised.keep hsuited hguarded hgrown h.size hold
  exact ⟨hkept, hun, fun n hn => Stocked.noted_frame (fun l hl => hold l (.inr hl)) hn⟩

theorem Suited.fits_anew (h : Suited ns p fs) (hst : Stocked s X ns) (hg : s.Guarded X) :
    FitsAll (Arena.anew s) (fs.any stateful) fs := by
  refine h.toTame.fits (A := Arena.anew s) (fun _ => trivial) fun n hn => ⟨?_, fun _ _ => Value.within_univ⟩
  rintro ⟨l, heq, hle⟩
  cases heq
  exact Nat.not_lt.mpr hle (hg.bounded _ (hst.cells n (h.nodes n (mem_inPlace hn))))

/-- Checking copies of facts writes to new objects only. -/
theorem Poised.later_checkAll (h : Poised ns p fs v w.store X) (hsuited : Suited ns p fs)
    (hs : fs.any stateful = true) : w.store.Later (exec (do checkAll (← copyAll fs) 0 v) w).2.store := by
  have hfits := hsuited.fits_anew h.stocked h.guarded
  rw [hs] at hfits
  refine .of_runs h.guarded.whole h.bounded (P := fun _ => True) (Q := Anything) ?_ ?_ ?_
  · exact (Arena.runs_copyAll (A := Arena.anew w.store) copyable_anew hfits).bind fun _ hp =>
      Arena.runs_checkAll hp.1 Value.within_univ
  · exact (sound_copyAll hsuited.toTame.steady).bind fun _ _ hm hp => sound_checkAll hp hm
  · intro u
    rw [exec_bind, exec_copyAll]
    exact given_checkAll hsuited.formed.move 0 v _

theorem ungiving_verify (hf : f.Formed) (v : Value) : Act.Ungiving (verify f v) := by
  have hprobe : ∀ u g, (exec f.probe u).1 = .ok g → g.Formed := by
    unfold probe
    split
    · rintro u g ⟨⟩
      exact hf.move
    · rintro u g ⟨⟩
      exact hf
  intro u
  have hgiven := ungiving_probe (f := f) u
  rw [verify, exec_bind]
  rcases hrun : exec f.probe u with ⟨e | g, u'⟩
  · rw [hrun] at hgiven
    exact hgiven
  · rw [hrun] at hgiven
    exact (given_check (hprobe u g (by rw [hrun])) v u').trans hgiven

/-- So does checking a copy of a single fact, and reporting on an attempt that has been given up. -/
theorem Poised.later_verify (h : Poised ns p [f] v w.store X) (hsuited : Suited ns p [f]) :
    w.store.Later (exec (verify f v) w).2.store := by
  have hfits := hsuited.fits_anew h.stocked h.guarded
  rw [any_stateful_singleton] at hfits
  exact .of_runs h.guarded.whole h.bounded (Arena.runs_verify (fun _ => copyable_anew) hfits.1 Value.within_univ)
    (sound_verify hsuited.toTame.steady.1 (Nat.le_refl _)) (ungiving_verify hsuited.formed.1 v)

theorem Poised.later_reportGivenUp (h : Poised ns p [f] v w.store X) (hsuited : Suited ns p [f]) (e : Fault)
    (last : Option Report) : w.store.Later (exec (reportGivenUp f v e last) w).2.store := by
  have hfits := hsuited.fits_anew h.stocked h.guarded
  rw [any_stateful_singleton] at hfits
  refine .of_runs h.guarded.whole h.bounded
    (Arena.runs_reportGivenUp (fun _ => copyable_anew) hfits.1 Value.within_univ)
    (sound_reportGivenUp hsuited.toTame.steady.1 (Nat.le_refl _)) ?_
  unfold reportGivenUp
  cases last with
  | none => exact (ungiving_verify hsuited.formed.1 v).bind fun _ => quiet_pure.ungiving
  | some r => exact quiet_pure.ungiving

/-! ## Taking over copies -/

/-- Facts that take over what copies of them hold are as poised as the copies, and have noted what these have
noted. -/
theorem Poised.commit {k : Nat} {r : Relocation} (hsuited : Suited ns p fs) (hold : ∀ n ∈ ns, n.cell < k)
    (hnew : ∀ n ∈ nodesAll fs, k ≤ r.place n.cell)
    (hinj : ∀ n ∈ nodesAll fs, ∀ m ∈ nodesAll fs, r.place n.cell = r.place m.cell → n.cell = m.cell)
    (h : Poised (withCopies ns fs r) p (moveAll r.place fs) v w.store X) :
    ∃ d, exec (commitCells (cellsAll fs) (cellsAll (moveAll r.place fs))) w = (.ok (), d) ∧
      Poised ns p fs v d.store X ∧ UnmovedAll p fs v w.store d.store ∧ d.store.size = w.store.size ∧
      (∀ l, l ∉ cellsAll fs → d.store.get? l = w.store.get? l) ∧
      (∀ n ∈ ns, ∀ l, d.store.slots n.cell = [.ref l] →
        w.store.slots n.cell = [.ref l] ∨ l ∈ heldBy w.store (nodesAll (moveAll r.place fs))) ∧
      (∀ n ∈ nodesAll fs, d.store.noted n.cell = w.store.noted (r.place n.cell)) ∧
      ∀ n ∈ ns, n.cell ∉ cellsAll fs → d.store.noted n.cell = w.store.noted n.cell := by
  have hms : ∀ n ∈ ns, n ∈ withCopies ns fs r := fun n hn => List.mem_append_left _ hn
  have hcell : ∀ c ∈ cellsAll fs, c < k ∧ k ≤ r.place c := by
    intro c hc
    obtain ⟨n, hn, rfl⟩ := mem_cellsAll.mp hc
    exact ⟨hold n (hsuited.cells n hn), hnew n hn⟩
  have hlt : ∀ c ∈ cellsAll fs, c < w.store.size := by
    intro c hc
    obtain ⟨n, hn, rfl⟩ := mem_cellsAll.mp hc
    exact h.guarded.bounded _ (h.stocked.cells n (hms n (hsuited.cells n hn)))
  obtain ⟨d, hrun, hsize, hgiven, hother, hcells⟩ := exec_commitCells (w := w) (m := r.place) hlt
    fun c hc c' hc' heq => Nat.not_lt.mpr (hcell c hc).2 (heq ▸ (hcell c' hc').1)
  obtain ⟨hg, hst, hnoted, hkept⟩ := h.stocked.commit h.guarded hsuited.cells
    (fun n hn m hm heq => Nat.not_lt.mpr (hnew m hm) (heq ▸ hold n hn)) hinj hsize hgiven hother hcells
  have hpoised : Poised ns p fs v w.store X := h.of_move hms
  have hun : UnmovedAll p fs v w.store d.store := by
    refine hsuited.followed.unmoved h.guarded.whole.owned hg.whole.owned hpoised.rests fun l hl => ?_
    refine hother l fun hc => ?_
    obtain ⟨n, hn, rfl⟩ := mem_cellsAll.mp hc
    exact hpoised.free _ hl ⟨n, hsuited.cells n hn, .inl rfl⟩
  have hlists : ∀ n ∈ ns, ∀ l, d.store.slots n.cell = [.ref l] →
      w.store.slots n.cell = [.ref l] ∨ l ∈ heldBy w.store (nodesAll (moveAll r.place fs)) := by
    intro n hn l hl
    by_cases hc : n.cell ∈ cellsAll fs
    · obtain ⟨m, hm, heq⟩ := mem_cellsAll.mp hc
      rw [Store.slots_of_get? (hcells _ hc), ← heq] at hl
      refine .inr ⟨m.move r.place, move_mem_nodesAll hm, .inr ?_⟩
      rwa [cell_move]
    · rw [Store.slots_of_same (hother _ hc)] at hl
      exact .inl hl
  refine ⟨d, ?_, ⟨hg, hst, ?_, ?_, ?_⟩, hun, hsize, hother, hlists, hnoted, hkept⟩
  · rw [cellsAll_move]
    exact hrun
  · exact hun.rests hpoised.rests .refl (Nat.le_of_eq hsize.symm)
  · rintro l hl ⟨n, hn, hheld⟩
    rw [hun.trail, ← trail_move (m := r.place)] at hl
    refine h.free l hl ?_
    rcases hheld with rfl | hlist
    · exact ⟨n, hms n hn, .inl rfl⟩
    · rcases hlists n hn l hlist with hlist | hmem
      · exact ⟨n, hms n hn, .inr hlist⟩
      · exact heldBy_mono (fun m hm => List.mem_append_right _ hm) hmem
  · rw [hsize]
    exact h.bounded

end Fact

end

end Conform
