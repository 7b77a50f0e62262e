import Conform.Proofs.Advancing

/-!
# Mutating below lenses

A fact that leads to the parts of a value runs another one on each of them, one after the other. What these runs leave
(`Fact.AdvancedEach`) leaves the value poised (`Fact.Poised.over_advanced`), and so does storing what they answer in it
(`Fact.Poised.refitted`). Lenses and prisms store one part (`Fact.advances_reads`).
-/

namespace Conform

open Act

namespace Fact

variable {ns ms fs gs : List Fact} {p : Bool} {f g : Fact} {s t u : Store} {X Y Z : Set Loc} {v x y z : Value}
  {xs ys : List Value} {w : World} {c l : Loc} {acc : Accessor} {b o : Bool} {levels : Nat} {a : Act Value}

/-! ## Several parts -/

/-- What running a fact on some values one after the other leaves, whatever it ends with. -/
structure AdvancedEach (ns : List Fact) (p : Bool) (f : Fact) (xs : List Value) (s : Store) (X : Set Loc) (t : Store)
    (Y : Set Loc) : Prop where
  grown : Grown s X Y
  size : s.size ≤ t.size
  guarded : t.Guarded Y
  stocked : Stocked t Y ns
  frame : ∀ l ∈ X, (∀ x ∈ xs, l ∉ trail s p [f] x) → l ∉ heldBy s (nodesAll [f]) → t.get? l = s.get? l
  held : ∀ n ∈ ns, ∀ l, t.slots n.cell = [.ref l] → s.slots n.cell = [.ref l] ∨ s.size ≤ l
  poised : ∀ x ∈ xs, Poised ns p [f] x t Y
  trail : ∀ x ∈ xs, ∀ l ∈ trail t p [f] x, l ∈ trail s p [f] x

/-- What holds of a value that a run answers for one of them. -/
structure AnsweredFor (ns : List Fact) (p : Bool) (f : Fact) (s t : Store) (Y : Set Loc) (x y : Value) : Prop where
  poised : Poised ns p [f] y t Y
  trail : ∀ l ∈ trail t p [f] y, l ∈ trail s p [f] x
  present : p = true → (y.isAbsent = true → x.isAbsent = true) ∧ (y.isNull = true → x.isNull = true)

/-- What holds of the values that they answer. -/
structure AnsweredEach (ns : List Fact) (p : Bool) (f : Fact) (xs : List Value) (s t : Store) (Y : Set Loc)
    (ys : List Value) : Prop where
  each : List.Forall₂ (AnsweredFor ns p f s t Y) xs ys
  noted : ∀ n ∈ ns, ∀ k, n.kind? = some k →
    Noting (ExactAll p [f]) k (s.noted n.cell) (ys.flatMap (noticed t p n.cell [f])) (t.noted n.cell)

theorem Advanced.each (h : Advanced ns p [f] x s X t Y) : AdvancedEach ns p f [x] s X t Y where
  grown := h.grown
  size := h.size
  guarded := h.poised.guarded
  stocked := h.poised.stocked
  frame := fun l hl hnot => h.frame l hl (hnot x (by simp))
  held := h.held
  poised := fun z hz => List.mem_singleton.mp hz ▸ h.poised
  trail := fun z hz => List.mem_singleton.mp hz ▸ h.trail

theorem Answered.each (h : Answered ns p [f] x s t Y y) : AnsweredEach ns p f [x] s t Y [y] where
  each := .cons ⟨h.poised, h.trail, h.present⟩ .nil
  noted := fun n hn k hk => by
    rw [List.flatMap_singleton]
    exact h.noted n hn k hk

theorem AdvancedEach.heldBy (h : AdvancedEach ns p f xs s X t Y) (hms : ∀ n ∈ ms, n ∈ ns) (hl : l ∈ heldBy t ms) :
    l ∈ Fact.heldBy s ms ∨ s.size ≤ l := heldBy_of_lists h.held hms hl

/-! ## Parts of a value -/

namespace Over

theorem nodes (h : Over g f) : ∀ n ∈ nodesAll [f], n ∈ nodesAll [g] := by
  cases h <;> simp +contextual [nodesAll, Fact.nodes]

theorem everyNode (h : Over g f) : ∀ n ∈ everyNodeAll [f], n ∈ everyNodeAll [g] := by
  cases h <;> simp +contextual [everyNodeAll, chosenAll, chosen, nodesAll, Fact.nodes]

theorem mem_trail (h : Over g f) :
    l ∈ trail s true [g] v ↔ v = .ref l ∨ ∃ x ∈ g.pieces s v, l ∈ trail s f.piecewise [f] x := by
  rw [mem_trail_singleton, h.mem_path]
  simp

end Over

theorem Suited.inner (h : Suited ns true [g]) (hover : Over g f) : Suited ns f.piecewise [f] :=
  h.sub ⟨hover.formed h.formed.1, trivial⟩ ((h.followed.tracked rfl g (List.mem_singleton_self g)).inner hover)
    hover.everyNode

theorem Suited.tracked (h : Suited ns true [g]) : g.Tracked := h.followed.tracked rfl g (List.mem_singleton_self g)

/-- The parts of a value that is poised. -/
structure Poised.Parts (g f : Fact) (v : Value) (s : Store) (X : Set Loc) : Prop where
  opens : Opens s X v
  divides : g.Divides s v
  rests : ∀ x ∈ g.pieces s v, Rests s X f.piecewise [f] x
  root : ∀ x ∈ g.pieces s v, ∀ l, v = .ref l → l ∉ trail s f.piecewise [f] x
  apart : (g.pieces s v).Pairwise fun x y => ∀ l ∈ trail s f.piecewise [f] x, l ∉ trail s f.piecewise [f] y

theorem Poised.parts (h : Poised ns true [g] v s X) (hover : Over g f) : Parts g f v s X := by
  obtain ⟨⟨hopens, hdivides⟩, hparts, hapart⟩ := hover.laid_iff.mp (rests_piece.mp h.rests)
  exact ⟨hopens, hdivides, fun x hx => (hparts x hx).1, fun x hx => (hparts x hx).2, hapart⟩

/-- A part of a value that is poised is poised. -/
theorem Poised.inner (h : Poised ns true [g] v s X) (hover : Over g f) (hx : x ∈ g.pieces s v)
    (hbound : x.bound ≤ s.size) : Poised ns f.piecewise [f] x s X where
  guarded := h.guarded
  stocked := h.stocked
  rests := (h.parts hover).rests x hx
  free := fun l hl => h.free l (hover.mem_trail.mpr (.inr ⟨x, hx, hl⟩))
  bounded := hbound

/-- A value whose parts have been run, and whose answers have not been stored, is as it should be. -/
theorem Poised.over_advanced (h : Poised ns true [g] v s X) (hsuited : Suited ns true [g]) (hover : Over g f)
    (hadv : AdvancedEach ns f.piecewise f (g.pieces s v) s X t Y) :
    Advanced ns true [g] v s X t Y ∧ g.pieces t v = g.pieces s v ∧ ∀ l, v = .ref l → t.get? l = s.get? l := by
  have hparts := h.parts hover
  have hs := h.guarded.whole.owned
  have ht := hadv.guarded.whole.owned
  have hsame : ∀ l, v = .ref l → t.get? l = s.get? l := fun l hl =>
    hadv.frame l (hparts.opens.guarded l hl) (fun x hx => hparts.root x hx l hl) fun hmem =>
      h.free l (hover.mem_trail.mpr (.inl hl)) (heldBy_mono (fun n hn => hsuited.cells n (hover.nodes n hn)) hmem)
  have hpieces : g.pieces t v = g.pieces s v := hsuited.tracked.pieces_same hover hs ht hsame hparts.opens.plain
  have hback : ∀ l ∈ trail t true [g] v, l ∈ trail s true [g] v := by
    intro l hl
    refine hover.mem_trail.mpr ((hover.mem_trail.mp hl).imp id ?_)
    rintro ⟨x, hx, hl⟩
    rw [hpieces] at hx
    exact ⟨x, hx, hadv.trail x hx l hl⟩
  have hlaid : g.Laid t Y v := by
    rw [hover.laid_iff, hpieces]
    refine ⟨⟨hparts.opens.same hsame hadv.grown, divides_same hsame hparts.divides⟩, fun x hx =>
      ⟨(hadv.poised x hx).rests, fun l hl hmem => hparts.root x hx l hl (hadv.trail x hx l hmem)⟩, ?_⟩
    exact hparts.apart.imp_of_mem fun {x y} hx hy hxy l hl hl' =>
      hxy l (hadv.trail x hx l hl) (hadv.trail y hy l hl')
  refine ⟨⟨hadv.grown, hadv.size, ⟨hadv.guarded, hadv.stocked, rests_piece.mpr hlaid,
    fun l hl hmem => ?_, Nat.le_trans h.bounded hadv.size⟩, fun l hl hnot hheld => ?_, hadv.held, hback,
    fun _ _ l hl => .same hs ht (hsame l hl)⟩, hpieces, hsame⟩
  · rcases hadv.heldBy (fun _ hn => hn) hmem with hmem | hle
    · exact h.free l (hback l hl) hmem
    · exact Nat.not_lt.mpr hle (h.trail_lt (hback l hl))
  · exact hadv.frame l hl (fun x hx hmem => hnot (hover.mem_trail.mpr (.inr ⟨x, hx, hmem⟩))) fun hmem =>
      hheld (heldBy_mono hover.nodes hmem)

/-! ## Storing parts -/

/-- What has become of a value when its parts have been replaced: the same object, or a new value that is none. A part
of a fact that does not advance may have become one that counts as missing. -/
structure Refitted (g f : Fact) (s : Store) (v : Value) (ys : List Value) (t : Store) (z : Value) : Prop where
  whole : t.Whole
  size : t.size = s.size
  given : t.given = s.given
  other : ∀ l, v ≠ .ref l → t.get? l = s.get? l
  self : ∀ l, z = .ref l ↔ v = .ref l
  plain : ∀ c, z ≠ .atom c
  bound : z.bound ≤ t.size
  complete : ∀ l o, v = .ref l → t.get? l = some o → o.Complete
  divides : g.Divides t z
  pieces : g.pieces t z = ys ∨ g.pieces t z = [] ∧ f.stateful = false
  resembles : g.key?.isSome → ∀ l, v = .ref l → Resembles [g] l s t

theorem Refitted.opens (h : Refitted g f s v ys t z) (ho : Opens s X v) : Opens t X z where
  guarded := fun l hl => ho.guarded l ((h.self l).mp hl)
  complete := fun l o hl => h.complete l o ((h.self l).mp hl)
  plain := fun c hc => absurd hc (h.plain c)

theorem Refitted.mem_ys (h : Refitted g f s v ys t z) (hy : y ∈ g.pieces t z) : y ∈ ys := by
  rcases h.pieces with heq | ⟨heq, -⟩
  · exact heq ▸ hy
  · rw [heq] at hy
    cases hy

/-- What facts that do not advance see is not noted. -/
theorem Refitted.noticed (h : Refitted g f s v ys t z) (hover : Over g f) (hf : f.Formed) :
    Fact.noticed t true c [g] z = ys.flatMap (Fact.noticed t f.piecewise c [f]) := by
  rw [Fact.noticed, if_pos rfl, watchedAll_singleton, hover.watched_eq]
  rcases h.pieces with heq | ⟨heq, hs⟩
  · rw [heq]
  · rw [heq, List.flatMap_nil, List.flatMap_eq_nil_iff.mpr fun y _ => noticed_of_stateless hf hs]

theorem Resembles.mono (h : Resembles fs l s t) (hsub : ∀ f ∈ fs, f ∈ gs) : Resembles gs l s t where
  opens := h.opens
  reads := fun n hn => h.reads n fun f hf => hn f (hsub f hf)

theorem Resembles.trans (h : Resembles fs l s t) (h' : Resembles fs l t u) : Resembles fs l s u where
  opens := fun ho hg => h'.opens (h.opens ho hg) .refl
  reads := fun n hn =>
    ⟨(h'.reads n hn).named.trans (h.reads n hn).named, (h'.reads n hn).keyed.trans (h.reads n hn).keyed⟩

theorem forall₂_exists_left {R : Value → Value → Prop} (h : List.Forall₂ R xs ys) (hy : y ∈ ys) :
    ∃ x ∈ xs, R x y := by
  induction h with
  | nil => cases hy
  | @cons x z _ _ hxz _ ih =>
    rcases List.mem_cons.mp hy with rfl | hy
    · exact ⟨x, by simp, hxz⟩
    · obtain ⟨x', hx', hR⟩ := ih hy
      exact ⟨x', by simp [hx'], hR⟩

/-- What different values answer for is as far apart as these are. -/
theorem AnsweredEach.apart (h : List.Forall₂ (AnsweredFor ns p f s t Y) xs ys)
    (hapart : xs.Pairwise fun x y => ∀ l ∈ trail s p [f] x, l ∉ trail s p [f] y) :
    ys.Pairwise fun x y => ∀ l ∈ trail t p [f] x, l ∉ trail t p [f] y := by
  induction h with
  | nil => exact .nil
  | cons hxy hrest ih =>
    obtain ⟨hfirst, hothers⟩ := List.pairwise_cons.mp hapart
    refine .cons (fun z hz l hl hl' => ?_) (ih hothers)
    obtain ⟨x', hx', hxz⟩ := forall₂_exists_left hrest hz
    exact hfirst x' hx' l (hxy.trail l hl) (hxz.trail l hl')

section

variable (h : Poised ns true [g] v s X) (hsuited : Suited ns true [g]) (hover : Over g f)
  (hadv : AdvancedEach ns f.piecewise f (g.pieces s v) s X t Y)

include h hsuited hover hadv

/-- Storing parts leaves what cells hold alone. -/
theorem Poised.refitted_stocked (hfit : Refitted g f t v ys u z) :
    u.Guarded Y ∧ Stocked u Y ns ∧ ∀ l ∈ heldBy t ns, u.get? l = t.get? l := by
  obtain ⟨hstep, -⟩ := h.over_advanced hsuited hover hadv
  have hopens := (hstep.poised.parts hover).opens
  have hheld : ∀ l ∈ heldBy t ns, u.get? l = t.get? l := fun l hl => hfit.other l fun hv =>
    hstep.poised.free l (hover.mem_trail.mpr (.inl hv)) hl
  refine ⟨hadv.guarded.rewrite hfit.whole hfit.given hfit.size fun l hl => ?_,
    hadv.stocked.frame (fun _ hl => hl) hheld, hheld⟩
  exact hfit.other l fun hv => hl (hopens.guarded l hv)

variable (hans : List.Forall₂ (AnsweredFor ns f.piecewise f s t Y) (g.pieces s v) ys)
  (hfit : Refitted g f t v ys u z)

include hans hfit

/-- It leaves the answers alone too. -/
theorem Poised.refitted_unmoved : ∀ y ∈ ys, ∃ x ∈ g.pieces s v, AnsweredFor ns f.piecewise f s t Y x y ∧
    UnmovedAll f.piecewise [f] y t u := by
  intro y hy
  obtain ⟨x, hx, hxy⟩ := forall₂_exists_left hans hy
  have howned := (h.refitted_stocked hsuited hover hadv hfit).1.whole.owned
  refine ⟨x, hx, hxy, (hsuited.inner hover).followed.unmoved hadv.guarded.whole.owned howned hxy.poised.rests ?_⟩
  exact fun l hl => hfit.other l fun hv => (h.parts hover).root x hx l hv (hxy.trail l hl)

/-- By the same objects as before. -/
theorem Poised.refitted_trail : ∀ l ∈ trail u true [g] z, l ∈ trail s true [g] v := by
  intro l hl
  rcases hover.mem_trail.mp hl with hz | ⟨y, hy, hl⟩
  · exact hover.mem_trail.mpr (.inl ((hfit.self l).mp hz))
  · obtain ⟨x, hx, hxy, hun⟩ := h.refitted_unmoved hsuited hover hadv hans hfit y (hfit.mem_ys hy)
    rw [hun.trail] at hl
    exact hover.mem_trail.mpr (.inr ⟨x, hx, hxy.trail l hl⟩)

/-- A value in which the answers of its parts have been stored is poised. -/
theorem Poised.refitted_poised : Poised ns true [g] z u Y := by
  obtain ⟨hguarded, hstocked, hheld⟩ := h.refitted_stocked hsuited hover hadv hfit
  obtain ⟨hstep, -⟩ := h.over_advanced hsuited hover hadv
  have hparts := h.parts hover
  have hunmoved := h.refitted_unmoved hsuited hover hadv hans hfit
  have hlaid : g.Laid u Y z := by
    rw [hover.laid_iff]
    refine ⟨⟨hfit.opens (hstep.poised.parts hover).opens, hfit.divides⟩, fun y hy => ?_, ?_⟩
    · obtain ⟨x, hx, hxy, hun⟩ := hunmoved y (hfit.mem_ys hy)
      refine ⟨hun.rests hxy.poised.rests .refl (Nat.le_of_eq hfit.size.symm), fun l hl hmem => ?_⟩
      rw [hun.trail] at hmem
      exact hparts.root x hx l ((hfit.self l).mp hl) (hxy.trail l hmem)
    · rcases hfit.pieces with heq | ⟨heq, -⟩
      · rw [heq]
        refine (AnsweredEach.apart hans hparts.apart).imp_of_mem fun {y y'} hy hy' hne => ?_
        obtain ⟨-, -, -, hun⟩ := hunmoved y hy
        obtain ⟨-, -, -, hun'⟩ := hunmoved y' hy'
        rw [hun.trail, hun'.trail]
        exact hne
      · rw [heq]
        exact .nil
  refine ⟨hguarded, hstocked, rests_piece.mpr hlaid, fun l hl hmem => ?_, hfit.bound⟩
  have hback := h.refitted_trail hsuited hover hadv hans hfit l hl
  rw [heldBy_of_same fun n hn => hheld _ ⟨n, hn, .inl rfl⟩] at hmem
  rcases hadv.heldBy (fun _ hn => hn) hmem with hmem | hle
  · exact h.free l hback hmem
  · exact Nat.not_lt.mpr hle (h.trail_lt hback)

/-- So is the value itself: it is the new one, or no object. -/
theorem Poised.refitted_advanced : Advanced ns true [g] v s X u Y := by
  obtain ⟨hguarded, -, hheld⟩ := h.refitted_stocked hsuited hover hadv hfit
  obtain ⟨hstep, -, hsame⟩ := h.over_advanced hsuited hover hadv
  have hroot : ∀ l, v = .ref l → l ∈ trail s true [g] v := fun l hl => hover.mem_trail.mpr (.inl hl)
  have hold : Poised ns true [g] v u Y ∧ ∀ l ∈ trail u true [g] v, l ∈ trail s true [g] v := by
    by_cases href : ∃ l, v = .ref l
    · obtain ⟨l, rfl⟩ := href
      obtain rfl := (hfit.self l).mpr rfl
      exact ⟨h.refitted_poised hsuited hover hadv hans hfit, h.refitted_trail hsuited hover hadv hans hfit⟩
    · obtain ⟨hkept, hun⟩ := hstep.poised.keep hsuited hguarded .refl (Nat.le_of_eq hfit.size.symm) fun l _ =>
        hfit.other l fun hv => href ⟨l, hv⟩
      exact ⟨hkept, fun l hl => hstep.trail l (hun.trail ▸ hl)⟩
  refine ⟨hadv.grown, Nat.le_trans hadv.size (Nat.le_of_eq hfit.size.symm), hold.1, fun l hl hnot hheld' => ?_,
    fun n hn l hl => hadv.held n hn l ?_, hold.2, fun _ hkeys l hl => ?_⟩
  · rw [hfit.other l fun hv => hnot (hroot l hv)]
    exact hstep.frame l hl hnot hheld'
  · rwa [Store.slots_of_same (hheld _ ⟨n, hn, .inl rfl⟩)] at hl
  · exact (Resembles.same h.guarded.whole.owned hadv.guarded.whole.owned (hsame l hl)).trans
      (hfit.resembles (hkeys g (by simp)) l hl)

end

/-- A value in which the answers of its parts have been stored is as it should be. -/
theorem Poised.refitted (h : Poised ns true [g] v s X) (hsuited : Suited ns true [g]) (hover : Over g f)
    (hadv : AdvancedEach ns f.piecewise f (g.pieces s v) s X t Y)
    (hans : AnsweredEach ns f.piecewise f (g.pieces s v) s t Y ys) (hfit : Refitted g f t v ys u z) :
    Advanced ns true [g] v s X u Y ∧ Answered ns true [g] v s u Y z := by
  obtain ⟨-, -, hheld⟩ := h.refitted_stocked hsuited hover hadv hfit
  refine ⟨h.refitted_advanced hsuited hover hadv hans.each hfit, h.refitted_poised hsuited hover hadv hans.each hfit,
    h.refitted_trail hsuited hover hadv hans.each hfit, fun _ _ l hl => hl ▸ (hfit.self l).mpr hl, fun _ => ?_,
    fun n hn k hk => ?_⟩
  · refine ⟨fun hz => ?_, fun hz => ?_⟩ <;> cases z <;> first | cases hz | exact absurd rfl (hfit.plain _)
  · have hseen : ys.flatMap (noticed u f.piecewise n.cell [f]) = ys.flatMap (noticed t f.piecewise n.cell [f]) := by
      refine List.flatMap_congr fun y hy => ?_
      obtain ⟨-, -, -, hun⟩ := h.refitted_unmoved hsuited hover hadv hans.each hfit y hy
      exact hun.noticed n.cell
    rw [hfit.noticed hover (hover.formed hsuited.formed.1), hseen, Stocked.noted_frame hheld hn]
    refine (hans.noted n hn k hk).mono fun hexact => ?_
    exact (hexact.pieces rfl g (List.mem_singleton_self g)).inner hover

/-! ## A lens or a prism -/

/-- Whether a fact reads a part with an accessor: a lens, or a prism, for which a part that is absent counts as
missing. -/
inductive Reads : Fact → Bool → Accessor → Fact → Prop
  | lens {c : Loc} {a : Accessor} {f : Fact} {b : Bool} : Reads (.lens c a f b) false a f
  | prism {c : Loc} {a : Accessor} {f : Fact} {b : Bool} : Reads (.prism c a f b) true a f

/-- What an action does that runs another one on the part that an accessor reads, and stores what that answers. A prism
leaves a value without the part alone. -/
structure Through (o : Bool) (acc : Accessor) (step : Value → Act Value) (v : Value) (a : Act Value) : Prop where
  missing : ∀ {w : World}, acc.used? o w.store v = none →
    (exec a w).2 = w ∧ ∀ y, (exec a w).1 = .ok y → y = v ∧ o = true
  fails : ∀ {w u : World} {x : Value} {e : Fault}, acc.used? o w.store v = some x → exec (step x) w = (.error e, u) →
    (exec a w).2 = u ∧ ∀ y, (exec a w).1 ≠ .ok y
  stores : ∀ {w u : World} {x y : Value}, acc.used? o w.store v = some x → exec (step x) w = (.ok y, u) →
    exec a w = exec (acc.write v y) u

theorem exec_part?_eq (acc : Accessor) (v : Value) (w : World) : exec (part? acc v) w =
    (match acc.get w.store v with
      | .ok x => .ok (some x)
      | .error e => if Accessor.isMissing e then .ok none else .error e, w) := by
  simp only [part?, exec_bind, exec_get]
  cases acc.get w.store v with
  | ok x => rfl
  | error e =>
    dsimp only
    split <;> rfl

theorem exec_mutateLens (step : Value → Act Value) (fact : Fact) (h : acc.get w.store v = .ok x) :
    exec (mutateLens step fact acc v) w = match exec (step x) w with
      | (.ok y, u) => exec (acc.write v y) u
      | (.error e, u) => (.error (e.under (lensTag acc)), u) := by
  rw [mutateLens, exec_bind, exec_part?_eq, h]
  dsimp only
  rw [exec_bind, exec_mapFault]
  rcases exec (step x) w with ⟨e | y, u⟩ <;> rfl

theorem exec_mutateLens_missing (step : Value → Act Value) (fact : Fact) {e : Fault}
    (h : acc.get w.store v = .error e) : (exec (mutateLens step fact acc v) w).2 = w ∧
      ∀ y, (exec (mutateLens step fact acc v) w).1 ≠ .ok y := by
  rw [mutateLens, exec_bind, exec_part?_eq, h]
  dsimp only
  by_cases hmissing : Accessor.isMissing e = true
  · rw [if_pos hmissing]
    have hquiet : Quiet (do
        fact.giveUp ("missing " ++ acc.name ++ " in " ++ (← Act.render v)) none : Act Value) :=
      quiet_render.bind fun _ => quiet_giveUp
    refine ⟨hquiet w, fun y => ?_⟩
    dsimp only
    rw [exec_bind]
    rcases exec (Act.render v) w with ⟨e | t, u⟩
    · simp
    · exact giveUp_ne_ok
  · rw [if_neg hmissing]
    exact ⟨rfl, by simp⟩

theorem through_mutateLens (step : Value → Act Value) (fact : Fact) :
    Through false acc step v (mutateLens step fact acc v) where
  missing := fun {w} h => by
    cases hget : acc.get w.store v with
    | ok x => simp [Accessor.used?, hget] at h
    | error e =>
      obtain ⟨hworld, hok⟩ := exec_mutateLens_missing step fact hget
      exact ⟨hworld, fun y hy => absurd hy (hok y)⟩
  fails := fun h hrun => by
    rw [exec_mutateLens step fact (used?_eq_some.mp h).1, hrun]
    exact ⟨rfl, fun _ hy => by cases hy⟩
  stores := fun h hrun => by rw [exec_mutateLens step fact (used?_eq_some.mp h).1, hrun]

theorem through_mutatePrism (step : Value → Act Value) : Through true acc step v (mutatePrism step acc v) := by
  have hused : ∀ {w : World} {x : Value}, acc.used? true w.store v = some x → exec (mutatePrism step acc v) w =
      exec (do acc.write v (← mapFault (Fault.under (prismTag acc)) (step x))) w := by
    intro w x h
    obtain ⟨hget, hpresent⟩ := used?_eq_some.mp h
    rw [mutatePrism, exec_bind, exec_part?_eq, hget]
    dsimp only
    rw [hpresent rfl]
    rfl
  refine ⟨fun {w} h => ?_, fun h hrun => ?_, fun h hrun => by rw [hused h, exec_bind, exec_mapFault, hrun]⟩
  · rw [mutatePrism, exec_bind, exec_part?_eq]
    unfold Accessor.used? at h
    cases hget : acc.get w.store v with
    | ok x =>
      have habsent : x.isAbsent = true := by simpa [hget] using h
      dsimp only
      rw [if_pos habsent]
      refine ⟨rfl, ?_⟩
      rintro y ⟨⟩
      exact ⟨rfl, rfl⟩
    | error e =>
      dsimp only
      by_cases hmissing : Accessor.isMissing e = true
      · rw [if_pos hmissing]
        refine ⟨rfl, ?_⟩
        rintro y ⟨⟩
        exact ⟨rfl, rfl⟩
      · rw [if_neg hmissing]
        exact ⟨rfl, fun _ hy => by cases hy⟩
  · rw [hused h, exec_bind, exec_mapFault, hrun]
    exact ⟨rfl, fun _ hy => by cases hy⟩

namespace Reads

theorem above (h : Reads g o acc f) : Over g f := by
  cases h <;> constructor

theorem pieces_eq (h : Reads g o acc f) : g.pieces s v = (acc.used? o s v).toList := by
  cases h <;> rfl

/-- A lens or a prism that is followed piece by piece finds its part by an atom. -/
theorem slot (h : Reads g o acc f) (ht : g.Tracked) :
    ∃ b, acc.slot? = some b ∧ (o = false → acc.key?.isSome) ∧
      (o = true → f.piecewise = false → f.stateful = false) := by
  cases h with
  | lens =>
    cases ht with
    | lens ha =>
      obtain ⟨b, hb⟩ := Option.isSome_iff_exists.mp ha
      exact ⟨b, Accessor.slot?_of_key? hb, fun _ => ha, fun ho => by cases ho⟩
  | prism =>
    cases ht with
    | prism ha _ hstill =>
      obtain ⟨b, hb⟩ := Option.isSome_iff_exists.mp ha
      exact ⟨b, hb, fun ho => (by cases ho), fun _ => hstill⟩

theorem slot_text (h : Reads g o acc f) {n : String} (hn : g.key? = some n) : acc.slot? = some (.text n) := by
  cases h with
  | lens => exact Accessor.slot?_of_key? (lens_key? hn)
  | prism => exact prism_slot? hn

/-- An optional attribute that is empty counts as absent. -/
theorem not_null {d : Atom} (hd : acc.slot? = some d) (hkey : acc.key? = none) (hget : acc.get s v = .ok x) :
    x.isNull = false := by
  cases acc with
  | optionalAttr n =>
    have hoptional : Accessor.getOptional s v n = .ok x := hget
    unfold Accessor.getOptional at hoptional
    split at hoptional
    · cases hoptional
      split
      · rfl
      · next hnull => simpa using hnull
    · cases hoptional
      rfl
  | _ => cases hkey.symm.trans hd

/-- What a lens or a prism has stored is what it reads then. A part of a fact that advances is there still. -/
theorem refitted (h : Reads g o acc f) (ht : g.Tracked) (hw : s.Whole) (ho : Opens s X v) (hv : v.bound ≤ s.size)
    (hy : y.bound ≤ s.size) (hused : acc.used? o s v = some x) (hset : acc.set s v y = .ok (z, t))
    (hpresent : f.piecewise = true → (y.isAbsent = true → x.isAbsent = true) ∧ (y.isNull = true → x.isNull = true)) :
    Refitted g f s v [y] t z := by
  obtain ⟨d, hd, hlens, hprism⟩ := h.slot ht
  obtain ⟨hget, habsent⟩ := used?_eq_some.mp hused
  have hplace : x.isAbsent = false ∨ acc.key?.isSome := by
    cases o with
    | false => exact .inr (hlens rfl)
    | true => exact .inl (habsent rfl)
  have hst := Accessor.set_stored hd ho.complete ho.plain hget hplace hset
  obtain ⟨-, hwhole, hbound⟩ := Accessor.set_whole (Accessor.sound_of_slot? hd) hw hv hy hset
  refine ⟨hwhole, hst.size, hst.given, hst.other, hst.self, hst.plain, hbound, hst.complete, ?_, ?_, ?_⟩
  · cases h <;> trivial
  · rw [h.pieces_eq, Accessor.used?]
    obtain ⟨y', hy', hcases⟩ := hst.part
    simp only [hy']
    by_cases hgone : o = true ∧ y'.isAbsent = true
    · -- a prism that has lost its part is one of a fact that does not advance
      obtain ⟨rfl, hgone⟩ := hgone
      refine .inr ⟨by rw [hgone]; rfl, hprism rfl (Bool.eq_false_iff.mpr fun hp => ?_)⟩
      rcases hcases with rfl | ⟨-, hnull, hkey⟩
      · have hx := (hpresent hp).1 hgone
        rw [habsent rfl] at hx
        cases hx
      · have hx := (hpresent hp).2 hnull
        rw [not_null hd hkey hget] at hx
        cases hx
    · have hthere : (o && y'.isAbsent) = false := by
        simpa [Bool.and_eq_false_iff, ← Bool.not_eq_true, ← not_and_or] using hgone
      rw [hthere]
      rcases hcases with rfl | ⟨rfl, -, hkey⟩
      · exact .inl rfl
      · cases o with
        | true => exact absurd ⟨rfl, rfl⟩ hgone
        | false =>
          have hsome := hlens rfl
          rw [hkey] at hsome
          cases hsome
  · intro hkey l hl
    obtain ⟨n, hn⟩ := Option.isSome_iff_exists.mp hkey
    obtain rfl := Option.some.inj (hd.symm.trans (h.slot_text hn))
    subst hl
    refine ⟨fun hopens hg => opens_ref (hg.old (hopens.guarded l rfl)) fun o ho => hst.complete l o rfl ho,
      fun m hm => hst.reads l rfl n m rfl ?_⟩
    rintro rfl
    exact hm g (List.mem_singleton_self g) hn

end Reads

/-- A lens or a prism runs what is below it and stores what that answers. -/
theorem advances_reads {step : Value → Act Value} (hreads : Reads g o acc f) (hthrough : Through o acc step v a)
    (hsuited : Suited ns true [g]) (hstep : ∀ x, Advances ns f.piecewise [f] x (step x)) :
    Advances ns true [g] v a := by
  intro w X h
  have hover := hreads.above
  obtain ⟨d, hd, -⟩ := hreads.slot hsuited.tracked
  cases hused : acc.used? o w.store v with
  | none =>
    obtain ⟨hworld, hok⟩ := hthrough.missing hused
    refine ⟨X, by rw [hworld]; exact h.advanced, fun y hy => ?_⟩
    obtain ⟨rfl, -⟩ := hok y hy
    rw [hworld]
    refine ⟨h, fun _ hl => hl, fun _ _ _ _ => rfl, fun _ => ⟨id, id⟩, fun n _ k _ => ?_⟩
    rw [noticed, if_pos rfl, watchedAll_singleton, hover.watched_eq, hreads.pieces_eq, hused]
    exact .none
  | some x =>
    have hpieces : g.pieces w.store v = [x] := by rw [hreads.pieces_eq, hused]; rfl
    have hbound : x.bound ≤ w.store.size :=
      Accessor.get_bound (Accessor.sound_of_slot? hd) h.guarded.whole h.bounded (used?_eq_some.mp hused).1
    obtain ⟨Y, hadv, hans⟩ := hstep x w X (h.inner hover (hpieces ▸ List.mem_singleton_self x) hbound)
    unfold AdvancesIn
    rcases hrun : exec (step x) w with ⟨e | y, u⟩
    · obtain ⟨hworld, hok⟩ := hthrough.fails hused hrun
      rw [hrun] at hadv
      rw [hworld]
      exact ⟨Y, (h.over_advanced hsuited hover (hpieces ▸ hadv.each)).1, fun y hy => absurd hy (hok y)⟩
    · rw [hrun] at hadv hans
      have hanswer := hans y rfl
      obtain ⟨hstep, hsame, -⟩ := h.over_advanced hsuited hover (hpieces ▸ hadv.each)
      rw [hthrough.stores hused hrun, exec_write]
      rcases hset : acc.set u.store v y with e | ⟨z, t⟩
      · exact ⟨Y, hstep, fun _ hy => by cases hy⟩
      · have hused' : acc.used? o u.store v = some x := by
          rw [hreads.pieces_eq, hpieces] at hsame
          exact Option.toList_eq_singleton_iff.mp hsame
        have hfit := hreads.refitted hsuited.tracked hadv.poised.guarded.whole (hstep.poised.parts hover).opens
          hstep.poised.bounded hanswer.poised.bounded hused' hset hanswer.present
        obtain ⟨hstored, hnew⟩ := h.refitted hsuited hover (hpieces ▸ hadv.each) (hpieces ▸ hanswer.each) hfit
        refine ⟨Y, hstored, ?_⟩
        rintro _ ⟨⟩
        exact hnew

/-! ## A label -/

section

variable {name : String}

theorem trail_labeled : trail s p [.labeled c name f b] v = trail s p [f] v := by
  ext l
  rw [mem_trail_singleton, mem_trail_singleton, path_labeled]

theorem noticed_labeled {d : Loc} : noticed s p d [.labeled c name f b] v = noticed s p d [f] v := by
  simp only [noticed, watchedAll_singleton, rateAll_singleton, watched, rate]

theorem poised_labeled : Poised ns p [.labeled c name f b] v s X ↔ Poised ns p [f] v s X := by
  have hrests : Rests s X p [.labeled c name f b] v ↔ Rests s X p [f] v := by
    rw [rests_singleton, rests_singleton, laid_labeled]
  have htrail : trail s p [.labeled c name f b] v = trail s p [f] v := trail_labeled
  exact ⟨fun h => ⟨h.guarded, h.stocked, hrests.mp h.rests, htrail ▸ h.free, h.bounded⟩,
    fun h => ⟨h.guarded, h.stocked, hrests.mpr h.rests, htrail ▸ h.free, h.bounded⟩⟩

theorem exactAll_labeled (hf : (Fact.labeled c name f b).Formed) (h : ExactAll p [.labeled c name f b]) :
    ExactAll p [f] := by
  rw [exactAll_singleton] at h ⊢
  refine ⟨fun hp => ?_, fun hp => hf.1.symm.trans (h.2 hp)⟩
  cases h.1 hp with
  | labeled h => exact h
  | above hover => cases hover

theorem advances_labeled (hf : (Fact.labeled c name f b).Formed) (h : Advances ns p [f] v a) :
    Advances ns p [.labeled c name f b] v a := by
  intro w X hpoised
  have hentry : ∀ P : Option String → Prop, (∀ g ∈ [Fact.labeled c name f b], P g.key?) →
      ∀ g ∈ [f], P g.key? := by
    intro P
    simp only [List.mem_singleton, forall_eq, key?, imp_self]
  obtain ⟨Y, hadv, hans⟩ := h w X (poised_labeled.mp hpoised)
  refine ⟨Y, ⟨hadv.grown, hadv.size, poised_labeled.mpr hadv.poised, fun l hl hnot hheld => ?_, hadv.held,
    fun l hl => ?_, fun hp hsome l hl => ?_⟩, fun y hy => ⟨poised_labeled.mpr (hans y hy).poised,
      fun l hl => ?_, fun hp hsome => (hans y hy).same hp (hentry (·.isSome) hsome), (hans y hy).present,
      fun n hn k hk => ?_⟩⟩
  · rw [trail_labeled] at hnot
    refine hadv.frame l hl hnot fun hmem => hheld (heldBy_mono (fun n hn => ?_) hmem)
    rw [nodesAll, nodes]
    exact List.mem_append_left _ (List.mem_cons_of_mem _ (by simpa [nodesAll] using hn))
  · rw [trail_labeled] at hl ⊢
    exact hadv.trail l hl
  · have hlike := hadv.resembles hp (hentry (·.isSome) hsome) l hl
    exact ⟨hlike.opens, fun k hk => hlike.reads k (hentry (· ≠ some k) hk)⟩
  · rw [trail_labeled] at hl ⊢
    exact (hans y hy).trail l hl
  · rw [noticed_labeled]
    exact ((hans y hy).noted n hn k hk).mono (exactAll_labeled hf)

end

end Fact

end Conform
