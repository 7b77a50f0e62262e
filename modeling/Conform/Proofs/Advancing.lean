import Conform.Proofs.Poised

/-!
# Mutating what is poised

Mutating a value that is poised for facts writes to the objects that lead to their parts, to their cells and to
new objects only, and leaves the value poised (`Fact.Advanced`). If it answers a value, then this one is poised
too, and its parts have been noted (`Fact.Answered`). Here this is proved of counters and of distinct facts.
-/

namespace Conform

open Act

namespace Fact

/-- What mutating a value leaves that is poised for facts, whatever it ends with. -/
structure Advanced (ns : List Fact) (p : Bool) (fs : List Fact) (v : Value) (s : Store) (X : Set Loc) (t : Store)
    (Y : Set Loc) : Prop where
  grown : Grown s X Y
  size : s.size ≤ t.size
  poised : Poised ns p fs v t Y
  frame : ∀ l ∈ X, l ∉ trail s p fs v → l ∉ heldBy s (nodesAll fs) → t.get? l = s.get? l
  held : ∀ n ∈ ns, ∀ l, t.slots n.cell = [.ref l] → s.slots n.cell = [.ref l] ∨ s.size ≤ l
  trail : ∀ l ∈ trail t p fs v, l ∈ trail s p fs v
  resembles : p = true → (∀ f ∈ fs, f.key?.isSome) → ∀ l, v = .ref l → Resembles fs l s t

/-- What holds of the value that it answers. It is there if the value was, and empty only if the value was. -/
structure Answered (ns : List Fact) (p : Bool) (fs : List Fact) (v : Value) (s t : Store) (Y : Set Loc) (y : Value) :
    Prop where
  poised : Poised ns p fs y t Y
  trail : ∀ l ∈ trail t p fs y, l ∈ trail s p fs v
  same : p = true → (∀ f ∈ fs, f.key?.isSome) → ∀ l, v = .ref l → y = v
  present : p = true → (y.isAbsent = true → v.isAbsent = true) ∧ (y.isNull = true → v.isNull = true)
  noted : ∀ n ∈ ns, ∀ k, n.kind? = some k →
    Noting (ExactAll p fs) k (s.noted n.cell) (noticed t p n.cell fs y) (t.noted n.cell)

/-- Whether an action on a value does so in some world. -/
def AdvancesIn (ns : List Fact) (p : Bool) (fs : List Fact) (v : Value) (a : Act Value) (w : World) (X : Set Loc) :
    Prop :=
  ∃ Y, Advanced ns p fs v w.store X (exec a w).2.store Y ∧
    ∀ y, (exec a w).1 = .ok y → Answered ns p fs v w.store (exec a w).2.store Y y

/-- Whether it does so wherever the value is poised. -/
def Advances (ns : List Fact) (p : Bool) (fs : List Fact) (v : Value) (a : Act Value) : Prop :=
  ∀ w X, Poised ns p fs v w.store X → AdvancesIn ns p fs v a w X

variable {ns ms fs : List Fact} {p : Bool} {f : Fact} {s t : Store} {X Y Z : Set Loc} {v x y : Value} {w : World}
  {c : Loc} {a : Act Value}

theorem Advanced.heldBy (h : Advanced ns p fs v s X t Y) (hms : ∀ n ∈ ms, n ∈ ns) {l : Loc}
    (hl : l ∈ heldBy t ms) : l ∈ Fact.heldBy s ms ∨ s.size ≤ l := heldBy_of_lists h.held hms hl

/-! ## Work beside what is guarded -/

/-- An object stays like itself while it does not change. -/
theorem Resembles.same {l : Loc} (hs : s.Owned) (ht : t.Owned) (hsame : t.get? l = s.get? l) : Resembles fs l s t where
  opens := fun h hg => h.same (by rintro m ⟨⟩; exact hsame) hg
  reads := fun _ _ => ⟨Accessor.getAttribute_congr hs ht (by rintro m ⟨⟩; exact hsame) nofun,
    Accessor.getItem_congr (by rintro m ⟨⟩; exact hsame)⟩

/-- A fact that finds its part under a text is about the object that it leads through. -/
theorem mem_path_of_key? {l : Loc} : ∀ {f : Fact}, f.key?.isSome → l ∈ f.path s (.ref l)
  | .labeled _ _ f _, hkey => by
    rw [path_labeled]
    exact mem_path_of_key? (f := f) hkey
  | .lens _ _ _ _, _ => Over.lens.mem_path.mpr (.inl rfl)
  | .prism _ _ _ _, _ => Over.prism.mem_path.mpr (.inl rfl)
  | .choice _ _ _, h | .always _, h | .never _ _, h | .predicate _ _ _, h | .pair _ _ _ _, h
  | .brute _ _ _ _ _, h | .membership _, h | .range _ _, h | .equality _ _ _ _, h | .length _ _ _, h
  | .mapped _ _ _ _ _, h | .foreign _ _, h | .either _ _ _ _, h | .negation _ _ _ _, h | .each _ _ _, h
  | .counter _, h | .distinct _ _ _, h | .all _ _ _ _, h => by
    simp [key?] at h

/-- Nothing happens to a value that is left as it is. -/
theorem Poised.advanced (h : Poised ns p fs v s X) : Advanced ns p fs v s X s X where
  grown := .refl
  size := Nat.le_refl _
  poised := h
  frame := fun _ _ _ _ => rfl
  held := fun _ _ _ hl => .inl hl
  trail := fun _ hl => hl
  resembles := fun _ _ _ _ => .same h.guarded.whole.owned h.guarded.whole.owned rfl

/-- Work beside what is guarded leaves all as it should be. -/
theorem Poised.still (h : Poised ns p [f] v s X) (hsuited : Suited ns p [f]) (hbeside : s.Beside X t) :
    Advanced ns p [f] v s X t X := by
  obtain ⟨hpoised, hun⟩ := h.keep hsuited hbeside.guarded .refl hbeside.size fun l hl =>
    hbeside.same l (hl.elim h.rests.guarded fun hl => h.stocked.held_guarded hl)
  refine ⟨.refl, hbeside.size, hpoised, fun l hl _ _ => hbeside.same l hl, fun n hn l hl => .inl ?_,
    fun l hl => hun.trail ▸ hl, fun hp hkeys l hl => ?_⟩
  · rwa [Store.slots_of_same (hbeside.same _ (h.stocked.cells n hn))] at hl
  · subst hl
    have hpath : l ∈ trail s p [f] (.ref l) := mem_trail_singleton.mpr ⟨hp, mem_path_of_key? (hkeys f (by simp))⟩
    exact .same h.guarded.whole.owned hbeside.guarded.whole.owned (hbeside.same l (h.rests.guarded hpath))

/-- So do actions that work beside it and answer nothing. -/
theorem Poised.advancesIn_still (h : Poised ns p [f] v w.store X) (hsuited : Suited ns p [f])
    (hbeside : w.store.Beside X (exec a w).2.store) (hok : ∀ y, (exec a w).1 ≠ .ok y) :
    AdvancesIn ns p [f] v a w X :=
  ⟨X, h.still hsuited hbeside, fun y hy => absurd hy (hok y)⟩

theorem quiet_giveUp {α : Type} {reason : String} {last : Option Report} :
    Quiet (f.giveUp reason last : Act α) := quiet_described.bind fun _ => quiet_throw

theorem giveUp_ne_ok {α : Type} {reason : String} {last : Option Report} {x : α} :
    (exec (f.giveUp reason last : Act α) w).1 ≠ .ok x := by
  rw [giveUp, exec_bind]
  rcases exec f.described w with ⟨e | t, u⟩
  · exact fun h => by cases h
  · exact fun h => by cases h

/-! ## Counters -/

/-- A leaf leads to no parts by any object, and sees its value, if it is followed in some way. -/
structure Leaf (p : Bool) (f : Fact) : Prop where
  path : ∀ (s : Store) (v : Value), f.path s v = ∅
  entry : f.key? = none
  noticed : ∀ (s : Store) (d : Loc) (v : Value), noticed s p d [f] v = if f.cell = d then [v] else []
  nodes : f.nodes = [f]

theorem leaf_counter : Leaf p (.counter c) := by
  refine ⟨fun _ _ => by simp only [path], rfl, fun s d v => ?_, rfl⟩
  rw [noticed, watchedAll_singleton, rateAll_singleton, watched, rate]
  by_cases hd : c = d <;> simp [hd, cell]

theorem leaf_distinct {g : Option Generator} {k : Int} : Leaf true (.distinct c g k) := by
  refine ⟨fun _ _ => by simp only [path], rfl, fun s d v => ?_, rfl⟩
  rw [noticed, if_pos rfl, watchedAll_singleton, watched]
  rfl

theorem Leaf.trail_eq (hleaf : Leaf p f) {q : Bool} : trail s q [f] v = ∅ := by
  ext l
  rw [mem_trail_singleton, hleaf.path]
  simp

theorem Leaf.mem_path_over (hleaf : Leaf p f) {g : Fact} (hover : Over g f) {l : Loc} :
    l ∈ g.path s v ↔ v = .ref l := by
  simp [hover.mem_path, hleaf.trail_eq]

theorem Leaf.laid_over (hleaf : Leaf p f) {g : Fact} (hover : Over g f) (hv : Opens s X v ∧ g.Divides s v)
    (hrests : ∀ x ∈ g.pieces s v, Rests s X f.piecewise [f] x) : g.Laid s X v :=
  hover.laid_iff.mpr ⟨hv, fun x hx => ⟨hrests x hx, fun _ _ => by simp [hleaf.trail_eq]⟩,
    List.pairwise_of_forall fun _ _ => by simp [hleaf.trail_eq]⟩

theorem Leaf.poised (hleaf : Leaf p f) (hg : s.Guarded X) (hst : Stocked s X ns) (hrests : Rests s X p [f] v)
    (hbound : v.bound ≤ s.size) : Poised ns p [f] v s X :=
  ⟨hg, hst, hrests, fun l hl => by simp [hleaf.trail_eq] at hl, hbound⟩

/-- A leaf that changes what it holds, and answers a value that it notes. -/
theorem Leaf.advancesIn {k : CellKind} {u : World} (hleaf : Leaf p f) (hmem : f ∈ ns) (hst : Stocked s X ns)
    (hk : f.kind? = some k) (hrun : exec a w = (.ok y, u)) (hw : w.store = s) (hsize : s.size ≤ u.store.size)
    (hv : Poised ns p [f] v u.store X) (hy : Poised ns p [f] y u.store X)
    (hframe : ∀ l ∈ X, l ∉ Fact.heldBy s [f] → u.store.get? l = s.get? l)
    (hheld : ∀ n ∈ ns, ∀ l, u.store.slots n.cell = [.ref l] → s.slots n.cell = [.ref l])
    (hpresent : (y.isAbsent = true → v.isAbsent = true) ∧ (y.isNull = true → v.isNull = true))
    (hnoted : Noting (ExactAll p [f]) k (s.noted f.cell) [y] (u.store.noted f.cell))
    (hother : ∀ n ∈ ns, n.cell ≠ f.cell → u.store.noted n.cell = s.noted n.cell) :
    AdvancesIn ns p [f] v a w X := by
  subst hw
  have hentry : ¬ ∀ g ∈ [f], g.key?.isSome := fun h => by
    have hsome := h f (by simp)
    rw [hleaf.entry] at hsome
    cases hsome
  refine ⟨X, ?_, ?_⟩
  · rw [hrun]
    refine ⟨.refl, hsize, hv, fun l hl _ hheld => hframe l hl ?_, fun n hn l hl => .inl (hheld n hn l hl),
      fun l hl => by simp [hleaf.trail_eq] at hl, fun _ h => absurd h hentry⟩
    rwa [nodesAll, nodesAll, hleaf.nodes] at hheld
  · rw [hrun]
    rintro z ⟨⟩
    refine ⟨hy, fun l hl => by simp [hleaf.trail_eq] at hl, fun _ h => absurd h hentry, fun _ => hpresent,
      fun n hn k' hk' => ?_⟩
    rw [hleaf.noticed]
    by_cases heq : f.cell = n.cell
    · rw [if_pos heq, ← heq]
      have hkind := hst.kinds n hn f hmem heq.symm
      rw [hk', hk] at hkind
      cases hkind
      exact hnoted
    · rw [if_neg heq, hother n hn fun h => heq h.symm]
      exact .none

theorem rests_counter (hv : p = false → v.Clear X s.size) : Rests s X p [.counter c] v :=
  rests_singleton.mpr ⟨fun _ => by simp only [Laid], hv⟩

/-- An integer is neither absent nor empty. -/
theorem present_of_integer {b : Atom} {k : Int} (h : b.integer? = some k) :
    (Value.atom b).isAbsent = false ∧ (Value.atom b).isNull = false := by
  cases b with
  | absent m => cases h
  | null => cases h
  | _ => exact ⟨rfl, rfl⟩

/-- A counter answers the integer that it expects, and expects the next one then. -/
theorem advances_takeNext (hsuited : Suited ns p [.counter c]) : Advances ns p [.counter c] v (takeNext c) := by
  intro w X h
  have hmem : Fact.counter c ∈ ns := hsuited.cells _ (by simp [nodesAll, nodes])
  obtain ⟨a, b, j, k, ha, hb, hget⟩ := (h.stocked.stores _ hmem).counter rfl
  obtain ⟨hst, hnoted, hother⟩ := h.stocked.putCounter h.guarded hmem rfl (k := k + 1) ha
  have hlt : c < w.store.size := Store.lt_size_of_get? hget
  have hg : (w.store.put c (.slots [.atom a, .int (k + 1)])).Guarded X :=
    h.guarded.put (h.stocked.cells _ hmem) (Nat.zero_le _)
  have hsize : (w.store.put c (.slots [.atom a, .int (k + 1)])).size = w.store.size := Store.size_put
  refine leaf_counter.advancesIn hmem h.stocked rfl (exec_takeNext hb hget) rfl (Nat.le_of_eq hsize.symm)
    (leaf_counter.poised hg hst (rests_counter fun hp => hsize ▸ h.rests.clear hp) (hsize ▸ h.bounded))
    (leaf_counter.poised hg hst (rests_counter fun _ => .of_refs rfl) (Nat.zero_le _)) (fun l _ hl => ?_)
    (fun n hn l hl => ?_) ?_ ?_ hother
  · refine Store.get?_put_of_ne ?_
    rintro rfl
    exact hl ⟨.counter c, by simp, .inl rfl⟩
  · by_cases heq : c = n.cell
    · rw [← heq, Store.slots_of_get? (Store.get?_put_same hlt)] at hl
      cases hl
    · rwa [Store.slots_put_of_ne heq] at hl
  · obtain ⟨habsent, hnull⟩ := present_of_integer hb
    simp [habsent, hnull]
  · have hbefore : w.store.noted (Fact.counter c).cell = [.atom a, .atom b] :=
      Store.noted_of_slots (Store.slots_of_get? hget) fun _ h => by cases h
    have hafter : Noting (ExactAll p [.counter c]) .counter [.atom a, .atom b] [.atom b] [.atom a, .int (k + 1)] :=
      .next hb (fun _ => rfl) .none
    rw [← hnoted] at hafter
    rw [hbefore]
    exact hafter

/-! ## Distinct facts -/

/-- A search keeps what testing and drawing keep, and answers a value that has been accepted. -/
theorem exec_search {I : World → Prop} {P : Value → Prop} (accept : Value → Act Bool) (draw : Value → Act Value)
    (haccept : ∀ z u, I u → P z → I (exec (accept z) u).2)
    (hdraw : ∀ z u, I u → P z → I (exec (draw z) u).2 ∧ ∀ x, (exec (draw z) u).1 = .ok x → P x) :
    ∀ (k : Nat) (z : Value) (u : World), I u → P z → I (exec (Search.run accept draw k z) u).2 ∧
      ∀ x, (exec (Search.run accept draw k z) u).1 = .ok (some x) →
        P x ∧ ∃ u', I u' ∧ (exec (accept x) u').1 = .ok true := by
  -- a test that is passed ends the search
  have htest : ∀ (z : Value) (u : World) (rest : Act (Option Value)), I u → P z →
      (∀ u', I u' → I (exec rest u').2 ∧ ∀ x, (exec rest u').1 = .ok (some x) →
        P x ∧ ∃ u', I u' ∧ (exec (accept x) u').1 = .ok true) →
      I (exec (do if ← accept z then return some z else rest) u).2 ∧
        ∀ x, (exec (do if ← accept z then return some z else rest) u).1 = .ok (some x) →
          P x ∧ ∃ u', I u' ∧ (exec (accept x) u').1 = .ok true := by
    intro z u rest hu hz hrest
    have hi := haccept z u hu hz
    rw [exec_bind]
    rcases hrun : exec (accept z) u with ⟨e | ok, u'⟩
    · rw [hrun] at hi
      exact ⟨hi, fun _ hx => by cases hx⟩
    · rw [hrun] at hi
      cases ok with
      | false => exact hrest u' hi
      | true =>
        refine ⟨hi, ?_⟩
        rintro x ⟨⟩
        exact ⟨hz, u, hu, by rw [hrun]⟩
  have huntil : ∀ (k : Nat) (z : Value) (u : World), I u → P z → I (exec (Search.drawUntil accept draw k z) u).2 ∧
      ∀ x, (exec (Search.drawUntil accept draw k z) u).1 = .ok (some x) →
        P x ∧ ∃ u', I u' ∧ (exec (accept x) u').1 = .ok true := by
    intro k
    induction k with
    | zero => exact fun z u hu _ => ⟨hu, fun _ hx => by cases hx⟩
    | succ k ih =>
      intro z u hu hz
      obtain ⟨hi, hx⟩ := hdraw z u hu hz
      rw [Search.drawUntil, exec_bind]
      rcases hrun : exec (draw z) u with ⟨e | x, u'⟩
      · rw [hrun] at hi
        exact ⟨hi, fun _ hx => by cases hx⟩
      · rw [hrun] at hi hx
        exact htest x u' _ hi (hx x rfl) fun u'' hu'' => ih x u'' hu'' (hx x rfl)
  exact fun k z u hu hz => htest z u _ hu hz fun u' hu' => huntil k z u' hu' hz

/-- What a search that starts from a value comes to: it is immutable, and empty only if the value is. -/
structure Candidate (v y : Value) : Prop where
  immutable : y.Immutable
  present : y.isNull = true → v.isNull = true

theorem Candidate.isAbsent (h : Candidate v y) : y.isAbsent = false := by
  have hy := h.immutable
  cases y with
  | atom a =>
    cases a with
    | absent m => exact absurd rfl (hy m)
    | _ => rfl
  | _ => rfl

theorem yields_drawLike (hx : Candidate v x) : Yields (f.drawLike x) (Candidate v) := by
  intro w y hy
  rw [drawLike, exec_tryCatch] at hy
  have himmutable := Draw.yields_arbitrary hx.immutable w
  have hpresent : x.isNull = false → ∀ z, (exec (Draw.arbitrary x) w).1 = .ok z → z.isNull = false := fun hnull =>
    Draw.yields_arbitrary_present hx.immutable hnull w
  rcases hrun : exec (Draw.arbitrary x) w with ⟨e | z, u⟩
  · rw [hrun] at hy
    dsimp only at hy
    split at hy
    · exact absurd hy giveUp_ne_ok
    · cases hy
  · rw [hrun] at hy himmutable hpresent
    refine ⟨himmutable y hy, fun hnull => hx.present ?_⟩
    cases hnone : x.isNull with
    | true => rfl
    | false =>
      rw [hpresent hnone y hy] at hnull
      cases hnull

theorem exec_unseen {xs : List Value} (h : exec (seen c) w = (.ok xs, w)) (z : Value) :
    exec (do return !(← Act.isIn z (← seen c))) w = ((exec (Act.isIn z xs) w).1.map not, w) := by
  rw [exec_bind, h]
  dsimp only
  rw [exec_bind, quiet_isIn.exec_eq]
  rcases (exec (Act.isIn z xs) w).1 with e | b <;> rfl

section

variable {g : Option Generator} (hplain : ∀ r ∈ g, r.Plain) (hdraws : ∀ A : Arena, A.TakesCopies → Draws A g)

include hplain hdraws

/-- Candidates are drawn beside what is guarded. -/
theorem beside_drawCandidate (hg : w.store.Guarded X) (hx : Candidate v x) :
    w.store.Beside X (exec (f.drawCandidate g x) w).2.store ∧
      ∀ y, (exec (f.drawCandidate g x) w).1 = .ok y → Candidate v y := by
  have hwithin : x.Within (Arena.beside w.store X).values := (hx.immutable.bare.clear (n := 0)).within
  have hbound : x.bound ≤ 0 := Nat.le_of_eq (Value.bound_of_refs hx.immutable.bare.refs)
  refine ⟨(hg.run (Nat.zero_le _) (Arena.runs_drawCandidate (hdraws _ Store.Guarded.takesCopies) hwithin)
    (sound_drawCandidate hbound)).1, ?_⟩
  cases g with
  | none => exact yields_drawLike hx w
  | some r =>
    intro y hy
    obtain ⟨himmutable, hnull⟩ := hplain r rfl w y hy
    exact ⟨himmutable, fun h => by rw [hnull] at h; cases h⟩

/-- The search for an unseen value works beside what is guarded, and finds one that is not in the list. -/
theorem search_unseen {l : Loc} {xs : List Value} {k : Nat} (hg : w.store.Guarded X) (hc : c ∈ X) (hl : l ∈ X)
    (hcell : w.store.get? c = some (.slots [.ref l])) (hlist : w.store.get? l = some (.list xs))
    (hxs : ∀ x ∈ xs, x.Bare) (hv : v.Immutable) :
    let out := exec (Search.run (fun z => do return !(← Act.isIn z (← seen c))) (f.drawCandidate g) k v) w
    w.store.Beside X out.2.store ∧
      ∀ y, out.1 = .ok (some y) → Candidate v y ∧ Store.empty.isIn? y xs = some false := by
  intro out
  have hunseen : ∀ u : World, w.store.Beside X u.store → ∀ z,
      exec (do return !(← Act.isIn z (← seen c))) u = ((exec (Act.isIn z xs) u).1.map not, u) := fun u hu =>
    exec_unseen (exec_seen ((hu.same c hc).trans hcell) ((hu.same l hl).trans hlist))
  obtain ⟨hbeside, hfound⟩ := exec_search (I := fun u => w.store.Beside X u.store) (P := Candidate v)
    (fun z => do return !(← Act.isIn z (← seen c))) (f.drawCandidate g)
    (fun z u hu _ => by rw [hunseen u hu]; exact hu)
    (fun z u hu hz => (beside_drawCandidate hplain hdraws hu.guarded hz).imp_left hu.trans) k v w hg.beside ⟨hv, id⟩
  refine ⟨hbeside, fun y hy => ?_⟩
  obtain ⟨hy, u, hu, haccept⟩ := hfound y hy
  refine ⟨hy, ?_⟩
  rw [hunseen u hu, exec_isIn] at haccept
  rw [Value.isIn?_of_refs hy.immutable.bare.refs (fun x hx => (hxs x hx).refs) hu.guarded.whole.owned]
  cases hisIn : u.store.isIn? y xs with
  | none => rw [hisIn] at haccept; cases haccept
  | some b => cases b with
    | false => rfl
    | true => rw [hisIn] at haccept; cases haccept

end

/-- A distinct fact remembers what its search has found, and gives up if it has found nothing. -/
theorem exec_mutateDistinct {g : Option Generator} {k : Int} : exec (mutateDistinct f c g k v) w =
    match exec (Search.run (fun z => do return !(← Act.isIn z (← seen c))) (f.drawCandidate g) (budget k) v) w with
    | (.ok (some y), u) => exec (do remember c y; return y) u
    | (.ok none, u) => exec (f.giveUp ("no unseen value" ++ drawsText k) none) u
    | (.error e, u) => (.error e, u) := by
  rw [mutateDistinct, exec_bind]
  rcases exec (Search.run _ _ _ v) w with ⟨e | o, u⟩
  · rfl
  · cases o <;> rfl

section

variable {g : Option Generator} {k : Int} (hsuited : Suited ns true [.distinct c g k])

include hsuited

/-- A distinct fact that remembers an unseen value, after work beside what is guarded, notes it. -/
theorem advancesIn_remember {l : Loc} {xs : List Value} {u : World} (hv : v.Immutable)
    (h : Poised ns true [.distinct c g k] v w.store X) (hl : l ∈ X)
    (hcell : w.store.get? c = some (.slots [.ref l])) (hlist : w.store.get? l = some (.list xs))
    (hxs : ∀ x ∈ xs, x.Bare) (hu : w.store.Beside X u.store) (hy : Candidate v y)
    (hnew : Store.empty.isIn? y xs = some false) (hrun : exec a w = exec (do remember c y; return y) u) :
    AdvancesIn ns true [.distinct c g k] v a w X := by
  have hmem : Fact.distinct c g k ∈ ns := hsuited.cells _ (by simp [nodesAll, nodes])
  have hcell' := (hu.same c (h.stocked.cells _ hmem)).trans hcell
  have hst : Stocked u.store X ns := h.stocked.frame (fun _ hm => hm) fun m hm =>
    hu.same m (h.stocked.held_guarded hm)
  have hsame : ∀ n ∈ ns, u.store.noted n.cell = w.store.noted n.cell := fun n hn =>
    Stocked.noted_frame (fun m hm => hu.same m (h.stocked.held_guarded hm)) hn
  have hslots := Store.slots_of_get? hcell'
  have hys : ∀ x ∈ xs ++ [y], x.Bare := by
    intro x hx
    rcases List.mem_append.mp hx with hx | hx
    · exact hxs x hx
    · rw [List.mem_singleton.mp hx]
      exact hy.immutable.bare
  obtain ⟨hst', hnoted, hother⟩ := hst.putList hu.guarded hmem (n := .distinct c g k) hslots hys
  have hg : (u.store.put l (.list (xs ++ [y]))).Guarded X := hu.guarded.put hl (by
    rw [Object.bound, Object.values, Value.boundAll, (Value.bare_all hys).1]
    exact Nat.zero_le _)
  have hpoised : ∀ z : Value, z.Immutable →
      Poised ns true [.distinct c g k] z (u.store.put l (.list (xs ++ [y]))) X := fun z hz =>
    leaf_distinct.poised hg hst' (rests_piece.mpr (by simpa only [Laid] using hz)) (by
      rw [Value.bound_of_refs hz.bare.refs]
      exact Nat.zero_le _)
  have hrun' : exec a w = (.ok y, { u with store := u.store.put l (.list (xs ++ [y])) }) := by
    rw [hrun, exec_bind, exec_remember hcell' ((hu.same l hl).trans hlist)]
    rfl
  refine leaf_distinct.advancesIn hmem h.stocked rfl hrun' rfl ?_ (hpoised v hv) (hpoised y hy.immutable)
    (fun m hm hheld => ?_) (fun n hn m hm => ?_) ⟨fun habsent => ?_, hy.present⟩ ?_
    fun n hn hne => (hother n hn hne).trans (hsame n hn)
  · exact Nat.le_trans hu.size (Nat.le_of_eq Store.size_put.symm)
  · refine (Store.get?_put_of_ne ?_).trans (hu.same m hm)
    rintro rfl
    exact hheld ⟨_, List.mem_singleton_self _, .inr (Store.slots_of_get? hcell)⟩
  · have hne : l ≠ n.cell := fun heq => hst.listed _ hmem l hslots n hn heq.symm
    rwa [Store.slots_of_same ((Store.get?_put_of_ne hne).trans (hu.same _ (h.stocked.cells n hn)))] at hm
  · rw [hy.isAbsent] at habsent
    cases habsent
  · have hbefore : w.store.noted (Fact.distinct c g k).cell = xs :=
      Store.noted_of_list (Store.slots_of_get? hcell) hlist
    have hafter : Noting (ExactAll true [.distinct c g k]) .memory xs [y] (xs ++ [y]) := .unseen hnew .none
    rw [hbefore]
    exact Eq.mpr (congrArg (Noting _ .memory xs [y]) hnoted) hafter

/-- A distinct fact answers a value that it has not seen, and notes it. -/
theorem advances_mutateDistinct {fact : Fact} :
    Advances ns true [.distinct c g k] v (mutateDistinct fact c g k v) := by
  intro w X h
  have hmem : Fact.distinct c g k ∈ ns := hsuited.cells _ (by simp [nodesAll, nodes])
  have hv : v.Immutable := by
    have hlaid := rests_piece.mp h.rests
    rwa [Laid] at hlaid
  have hplain : ∀ r ∈ g, r.Plain := by
    cases hsuited.followed.tracked rfl _ (List.mem_singleton_self _)
    assumption
  have hdraws : ∀ A : Arena, A.TakesCopies → Draws A g := hsuited.generators (.distinct c g k) (by
    simp [everyNodeAll, nodesAll, nodes])
  obtain ⟨l, xs, hcell, hlist, hl, hxs⟩ := (h.stocked.stores _ hmem).memory rfl
  obtain ⟨hbeside, hfound⟩ := search_unseen (c := c) (f := fact) (k := budget k) hplain hdraws h.guarded
    (h.stocked.cells _ hmem) hl hcell hlist hxs hv
  have hexec := exec_mutateDistinct (f := fact) (c := c) (g := g) (k := k) (v := v) (w := w)
  rcases hrun : exec (Search.run (fun z => do return !(← Act.isIn z (← seen c)))
    (fact.drawCandidate g) (budget k) v) w with ⟨e | o, u⟩
  · rw [hrun] at hbeside hexec
    exact h.advancesIn_still hsuited (hexec ▸ hbeside) fun y => by simp [hexec]
  rw [hrun] at hbeside hexec hfound
  cases o with
  | none =>
    refine h.advancesIn_still hsuited ?_ fun y => ?_
    · rw [hexec, quiet_giveUp]
      exact hbeside
    · rw [hexec]
      exact giveUp_ne_ok
  | some y =>
    obtain ⟨hy, hnew⟩ := hfound y rfl
    exact advancesIn_remember hsuited hv h hl hcell hlist hxs hbeside hy hnew hexec

end

end Fact

end Conform
