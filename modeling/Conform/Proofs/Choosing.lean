import Conform.Proofs.Complements
import Conform.Proofs.Provenance
import Conform.Proofs.Reading
import Conform.Proofs.Satisfying
import Conform.Proofs.AccessorSpots

/-!
# Choosing among candidates

A choice answers a value that is a candidate and passes the further fact, or else the first candidate that does, and
gives up only if there is none (`choice_respects`). What it has found is given to the further fact once more, so this
stands and falls with what that fact makes of a value that it has passed already.

`Fact.Restores` says where a fact leaves such a value alone, to the letter: the same value is answered, in the same
world. Most facts do so whatever the value is. A lens, a prism and a sequence do if writing back what was read changes
nothing, which a frozen record with a field that its constructor does not take fails to do, as does a text, whose
characters can be read but not written. An equality has to have the value itself for its reference, a pair has to be a
list or a tuple, with one and the same item twice if they have to be equal, and a mere predicate never rests.
-/

namespace Conform

open Act

namespace Fact

mutual

/-- Whether mutation answers a value that passes as it is. -/
def Restores (s : Store) : Fact → Value → Prop
  | .equality c true _ _, v => s.slot c 0 = v
  | .range c true, _ => IsEnd (s.slot c 0) ∧ IsEnd (s.slot c 1) ∨ Upright s (s.slot c 0) (s.slot c 1)
  | .pair _ true _ _, v => IsRow s v ∧ ∃ x, s.elements? v = some [x, x]
  | .pair _ false _ _, v => IsRow s v
  | .all _ fs n _, v => 1 ≤ n ∧ RestoresAll s fs v
  | .lens _ a f _, v => ∀ x, a.get s v = .ok x → a.set s v x = .ok (v, s) ∧ f.Restores s x
  | .prism _ a f _, v => ∀ x, a.get s v = .ok x → x.isAbsent = false → a.set s v x = .ok (v, s) ∧ f.Restores s x
  | .each _ f _, v => ∀ xs, s.elements? v = some xs → s.rebuild v xs = .ok (v, s) ∧ ∀ x ∈ xs, f.Restores s x
  | .length _ n _, v => ∃ xs, s.firstElements? v n.toNat = some xs ∧ s.rebuild v xs = .ok (v, s)
  | .mapped _ _ tests fs f, v => RestoresPick s (s.view v) tests fs (f.Restores s v) v
  | .choice _ (some f) _, v | .labeled _ _ f _, v => f.Restores s v
  | .counter _, _ | .distinct _ _ _, _ | .predicate _ _ _, _ | .foreign _ _, _ => False
  | .always _, _ | .never _ _, _ | .equality _ false _ _, _ | .membership _, _ | .range _ false, _ | .either _ _ _ _, _
  | .negation _ _ _ _, _ | .brute _ _ _ _ _, _ | .choice _ none _, _ => True

/-- Whether each of several facts does. -/
def RestoresAll (s : Store) : List Fact → Value → Prop
  | [], _ => True
  | f :: fs, v => f.Restores s v ∧ RestoresAll s fs v

/-- Whether the fact of the first test that holds does, or else the last one. -/
def RestoresPick (s : Store) (d : Data) : List (Data → Bool) → List Fact → Prop → Value → Prop
  | test :: tests, f :: fs, otherwise, v => if test d then f.Restores s v else RestoresPick s d tests fs otherwise v
  | _, _, otherwise, _ => otherwise

end

section

variable {w u : World} {f g fact : Fact} {fs : List Fact} {v x : Value} {xs : List Value} {c : Loc} {a : Accessor}
  {n : Int} {b : Bool} {r : Report} {run : Fact → Value → Act Value}

/-! ## Picking -/

theorem restoresPick_iff (s : Store) (d : Data) (other : Fact) (v : Value) :
    ∀ (tests : List (Data → Bool)) (fs : List Fact),
      RestoresPick s d tests fs (other.Restores s v) v ↔ (pick d other tests fs).Restores s v
  | [], fs => by cases fs <;> exact Iff.rfl
  | _ :: _, [] => Iff.rfl
  | test :: tests, f :: fs => by
    rw [RestoresPick, pick]
    split
    · exact Iff.rfl
    · exact restoresPick_iff s d other v tests fs

theorem FormedAll.mem (h : FormedAll fs) : ∀ f ∈ fs, f.Formed := by
  induction fs with
  | nil => exact List.forall_mem_nil _
  | cons f fs ih => exact List.forall_mem_cons.mpr ⟨h.1, ih h.2⟩

theorem RestoresAll.mem {s : Store} (h : RestoresAll s fs v) : ∀ f ∈ fs, f.Restores s v := by
  induction fs with
  | nil => exact List.forall_mem_nil _
  | cons f fs ih => exact List.forall_mem_cons.mpr ⟨h.1, ih h.2⟩

theorem stateful_of_any (h : fs.any stateful = false) (hf : f ∈ fs) : f.stateful = false :=
  Bool.eq_false_iff.mpr (List.any_eq_false.mp h f hf)

theorem depth_le_depths (h : f ∈ fs) : f.depth ≤ depths fs := by
  induction fs with
  | nil => cases h
  | cons g fs ih =>
    rw [depths]
    rcases List.mem_cons.mp h with rfl | h
    · exact Nat.le_max_left ..
    · exact Nat.le_trans (ih h) (Nat.le_max_right ..)

/-! ## Leaving alone what passes -/

/-- Whether a value passes a stateless fact that leaves it alone. -/
structure Content (w : World) (f : Fact) (v : Value) : Prop where
  formed : f.Formed
  stateless : f.stateful = false
  restores : f.Restores w.store v
  passes : f.Judges w v true

/-- Whether running a fact of few levels leaves alone what is content with it. -/
def Restoring (k : Nat) (run : Fact → Value → Act Value) : Prop :=
  ∀ {f : Fact} {v : Value} {w : World}, f.depth ≤ k → Content w f v → exec (run f v) w = (.ok v, w)

variable {k : Nat}

theorem exec_runAll (h : ∀ f ∈ fs, exec (run f v) w = (.ok v, w)) : exec (runAll run fs v) w = (.ok v, w) := by
  induction fs with
  | nil => rfl
  | cons f fs ih =>
    obtain ⟨hf, hfs⟩ := List.forall_mem_cons.mp h
    rw [runAll, List.foldlM_cons]
    exact (exec_after hf).trans (ih hfs)

/-- The first round of a conjunction changes nothing, and its check passes. -/
theorem Content.exec_fixpoint (h : Content w (.all c fs n b) v) (hrun : Restoring k run) (hk : depths fs ≤ k) :
    exec (fixpoint run (.all c fs n b) fs n n.toNat .pass v) w = (.ok v, w) := by
  obtain ⟨⟨hb, hfs⟩, hs, ⟨hrounds, hrestores⟩, hpasses⟩ := h
  obtain rfl : b = false := hs
  obtain ⟨left, hleft⟩ : ∃ left, n.toNat = left + 1 := ⟨n.toNat - 1, by omega⟩
  obtain ⟨r, u, hr, hok⟩ := hpasses
  obtain ⟨rs, u', hrs, hpure⟩ := exec_bind_ok hr
  cases hpure
  obtain rfl := (quiet_checkAll hfs hb.symm 0 v).eq_of_exec hrs
  -- the check of the conjunction is that of its members, so each is content with the value
  obtain ⟨bs, hbs, hpassed⟩ := judges_checkAll hfs hb.symm hrs
  have hmembers := forall_of_all hbs (hpassed.symm.trans hok)
  have hall : exec (runAll run fs v) w = (.ok v, w) := exec_runAll fun f hf =>
    hrun (Nat.le_trans (depth_le_depths hf) hk)
      ⟨hfs.mem f hf, stateful_of_any hb.symm hf, hrestores.mem f hf, hmembers f hf⟩
  rw [hleft]
  exact exec_fixpoint_settled rfl hall hrs hok

theorem exec_mutateElements (h : ∀ x ∈ xs, exec (run f x) w = (.ok x, w)) (i : Nat) :
    exec (mutateElements (run f) i xs) w = (.ok xs, w) := by
  induction xs generalizing i with
  | nil => rfl
  | cons x xs ih =>
    obtain ⟨hx, hxs⟩ := List.forall_mem_cons.mp h
    have hhead : exec (mapFault (Fault.under (elementTag i)) (run f x)) w = (.ok x, w) := by
      rw [exec_mapFault, hx]
    exact (exec_after hhead).trans (exec_after (ih hxs (i + 1)))

theorem exec_rebuild (h : w.store.rebuild v xs = .ok (v, w.store)) : exec (fact.rebuild v xs) w = (.ok v, w) := by
  rw [rebuild, exec_bind, exec_get]
  simp only [h]
  rfl

/-- Writing back the part that was read. -/
theorem exec_write_back (h : a.set w.store v x = .ok (v, w.store)) : exec (a.write v x) w = (.ok v, w) := by
  rw [exec_write, h]

theorem exec_under {step : Act Value} {tag : String} (h : exec step w = (.ok x, w)) :
    exec (mapFault (Fault.under tag) step) w = (.ok x, w) := by
  rw [exec_mapFault, h]

theorem exec_part (h : a.get w.store v = .ok x) : exec (part? a v) w = (.ok (some x), w) := by
  rw [part?, exec_bind, exec_get]
  simp only [h]
  rfl

theorem Content.exec_lens (h : Content w (.lens c a f b) v) (hrun : Restoring k run) (hk : f.depth ≤ k) :
    exec (mutateLens (run f) fact a v) w = (.ok v, w) := by
  obtain ⟨⟨hb, hf⟩, hs, hrestores, hpasses⟩ := h
  obtain ⟨x, hx, hpart⟩ := hpasses.part
  obtain ⟨hset, hrests⟩ := hrestores x hx
  have hstep := hrun hk ⟨hf, hb.symm.trans hs, hrests, hpart⟩
  refine (exec_after (exec_part hx)).trans ((exec_after (exec_under hstep)).trans ?_)
  exact exec_write_back hset

theorem Content.exec_prism (h : Content w (.prism c a f b) v) (hrun : Restoring k run) (hk : f.depth ≤ k) :
    exec (mutatePrism (run f) a v) w = (.ok v, w) := by
  obtain ⟨⟨hb, hf⟩, hs, hrestores, hpasses⟩ := h
  obtain ⟨r, u, hr, -⟩ := id hpasses
  obtain ⟨o, u', ho, -⟩ := exec_bind_ok hr
  obtain rfl := quiet_part?.eq_of_exec ho
  refine (exec_after ho).trans ?_
  rcases exec_part? ho with ⟨x, rfl, hx⟩ | ⟨rfl, -⟩
  · show exec (if x.isAbsent then _ else _) _ = _
    split
    · rfl
    · next habsent =>
      have hpresent : x.isAbsent = false := Bool.eq_false_iff.mpr habsent
      obtain ⟨hset, hrests⟩ := hrestores x hx hpresent
      have hstep := hrun hk ⟨hf, hb.symm.trans hs, hrests, hpasses.present hx hpresent⟩
      exact (exec_after (exec_under hstep)).trans (exec_write_back hset)
  · rfl

theorem Content.exec_each (h : Content w (.each c f b) v) (hrun : Restoring k run) (hk : f.depth ≤ k) :
    exec (do fact.rebuild v (← mutateElements (run f) 0 (← elements v))) w = (.ok v, w) := by
  obtain ⟨⟨hb, hf⟩, hs, hrestores, hpasses⟩ := h
  have hstateless := hb.symm.trans hs
  obtain ⟨xs, bs, hxs, hbs, hok⟩ := hpasses.each hf hstateless
  obtain ⟨hrebuild, hrests⟩ := hrestores xs hxs
  have hread : exec (elements v) w = (.ok xs, w) := by
    rw [elements, exec_bind, exec_ask, hxs]
    rfl
  have hall : exec (mutateElements (run f) 0 xs) w = (.ok xs, w) := exec_mutateElements
    (fun x hx => hrun hk ⟨hf, hstateless, hrests x hx, forall_of_all hbs hok.symm x hx⟩) 0
  exact (exec_after hread).trans ((exec_after hall).trans (exec_rebuild hrebuild))

/-- A sequence of the right length is cut to all of its elements, and none is drawn. -/
theorem Content.exec_length {g : Option Generator} (h : Content w (.length c n g) v) :
    exec (mutateLength fact c n g v) w = (.ok v, w) := by
  obtain ⟨-, -, ⟨xs, hfirst, hrebuild⟩, hpasses⟩ := h
  obtain ⟨ys, hys, rfl⟩ := Store.elements?_of_first hfirst
  obtain ⟨zs, hzs, hok⟩ := hpasses.length
  obtain rfl := Option.some.inj (hzs.symm.trans hys)
  have hlength : (zs.length : Int) = n := eq_of_beq hok.symm
  have hcut : n.toNat = zs.length := by omega
  rw [hcut, List.take_length] at hfirst hrebuild
  refine (exec_after (exec_ask _ w)).trans ?_
  rw [hcut, hfirst]
  show exec (do
    let more ← (List.replicate (zs.length - zs.length) ()).mapM fun _ => fact.drawElement c g v
    fact.rebuild v (zs ++ more)) w = _
  rw [Nat.sub_self, List.replicate_zero, List.mapM_nil]
  refine (exec_after (exec_pure [] w)).trans ?_
  rw [List.append_nil]
  exact exec_rebuild hrebuild

/-- A list or a tuple that gets the first item that it has is as it was. -/
theorem exec_withFirst_same {y : Value} (hv : IsRow w.store v) (hitems : w.store.elements? v = some [x, y]) :
    exec (withFirst v x y) w = (.ok v, w) := by
  rcases hv with ⟨l, xs, rfl, hget⟩ | ⟨cls, xs, rfl⟩
  · obtain rfl : xs = [x, y] := by simpa only [Store.elements?, hget, Option.some.injEq] using hitems
    have hrun : exec (withFirst (.ref l) x y) w = (.ok (.ref l), { w with store := w.store.put l (.list [x, y]) }) := by
      refine (exec_after (exec_ask _ w)).trans ?_
      rw [hget]
      rfl
    rw [hrun, Store.put_get? hget]
  · cases hitems
    rfl

theorem Content.exec_pair {equal : Bool} {g : Option Generator} (h : Content w (.pair c equal g n) v) :
    exec (mutatePair fact equal g n v) w = (.ok v, w) := by
  obtain ⟨-, -, hrestores, hpasses⟩ := h
  obtain ⟨x', y', helements, hequal⟩ := hpasses.pair
  have hitems : exec (items v) w = (.ok (x', y'), w) := by
    rw [items, exec_bind, exec_ask, helements]
    rfl
  -- the first item that is put into the pair is the one that it has
  cases equal with
  | true =>
    obtain ⟨hrow, x, hx⟩ := hrestores
    cases hx.symm.trans helements
    exact (exec_after hitems).trans (exec_withFirst_same hrow helements)
  | false =>
    have haccept : exec (do return !(← Act.equal x' y') : Act Bool) w = (.ok true, w) := by
      rw [exec_bind, exec_equal hequal]
      rfl
    exact (exec_after hitems).trans ((exec_after (exec_run haccept)).trans (exec_withFirst_same hrestores helements))

theorem Content.exec_either (h : Content w (.either c f g b) v) :
    exec (mutateEither run (.either c f g b) f g v) w = (.ok v, w) := by
  obtain ⟨⟨hb, hf, hg⟩, hs, -, r, u, hr, hok⟩ := h
  obtain rfl : b = false := hs
  obtain ⟨hfs, hgs⟩ := Bool.or_eq_false_iff.mp hb.symm
  obtain ⟨left, u', hleft, hr⟩ := exec_bind_ok hr
  obtain rfl := (quiet_check hf hfs v).eq_of_exec hleft
  obtain ⟨right, u', hright, hpure⟩ := exec_bind_ok hr
  obtain rfl := (quiet_check hg hgs v).eq_of_exec hright
  -- a side that is not stateful is tried itself
  have htried : ∀ {p : Fact} {r : Report}, exec (p.check v) w = (.ok r, w) →
      exec (do let q ← pure p; return (← q.check v).ok : Act Bool) w = (.ok r.ok, w) := fun hp =>
    (exec_after (exec_pure _ w)).trans (exec_after hp)
  refine (exec_after (htried hleft)).trans ?_
  split
  · rfl
  · next hfailed =>
    refine (exec_after (htried hright)).trans ?_
    have hpassed : right.ok = true := by
      cases hpure
      split at hok
      · next hboth => exact (Bool.or_eq_true_iff.mp hboth).resolve_left hfailed
      · rw [Report.ok_append, Report.ok_under, Bool.and_eq_true] at hok
        exact absurd hok.1 hfailed
    rw [if_pos hpassed]
    rfl

theorem Content.exec_negation (h : Content w (.negation c f n b) v) :
    exec (mutateNegation run (.negation c f n b) f n v) w = (.ok v, w) := by
  obtain ⟨⟨⟨rfl, hs⟩, hf⟩, -, -, hpasses⟩ := h
  obtain ⟨r, hr, hfailed⟩ := hpasses.negation.quietly hf hs
  refine (exec_after (exec_pure f w)).trans ((exec_after hr).trans ?_)
  rw [hfailed]
  rfl

theorem Content.exec_brute {name : String} {test : Data → Bool} {g : Option Generator}
    (h : Content w (.brute c name test g n) v) : exec (mutateBrute fact test g n v) w = (.ok v, w) := by
  have haccept : exec (do return test (← Act.view v) : Act Bool) w = (.ok true, w) := by
    rw [exec_bind, exec_view, h.passes.brute]
    rfl
  exact exec_after (exec_run haccept)

theorem Content.exec_choice {o : Option Fact} (h : Content w (.choice c o b) v) (hrun : Restoring k run)
    (hk : ∀ f, o = some f → f.depth ≤ k) : exec (mutateChoice run (.choice c o b) c o v) w = (.ok v, w) := by
  obtain ⟨r, hr, hok⟩ := h.passes.quietly h.formed h.stateless
  refine (exec_after (exec_probe_stateless h.stateless)).trans ((exec_after hr).trans ?_)
  rw [if_pos hok]
  cases o with
  | none => rfl
  | some f =>
    obtain ⟨⟨hb, hf⟩, hs, hrestores, hpasses⟩ := h
    obtain ⟨found, passed, -, hpassed, hboth⟩ := hpasses.further
    obtain rfl : passed = true := (Bool.and_eq_true_iff.mp hboth.symm).2
    exact hrun (hk f rfl) ⟨hf, hb.symm.trans hs, hrestores, hpassed⟩

/-- A value that is content with a fact is answered, and the world is as it was. -/
theorem restoring_mutateWithin (k : Nat) : Restoring k (mutateWithin k) := by
  induction k with
  -- every fact has a level of its own
  | zero =>
    intro f v w hk
    cases f with
    | choice c o b => cases o <;> cases hk
    | _ => cases hk
  | succ k ih =>
    intro f v w hk h
    cases f with
    | always c => rfl
    | never c reason => exact absurd (judges_never.mp h.passes) (by decide)
    | equality c equal g n =>
      cases equal with
      | true => exact congrArg (fun x => (Except.ok x, w)) h.restores
      | false => exact exec_mutateDifferent h.passes.equality
    | membership c => exact exec_mutateMembership h.passes.membership
    | range c inside =>
      obtain ⟨r, hr, hok⟩ := h.passes.quietly h.formed h.stateless
      cases inside with
      | true =>
        have hends := h.restores.elim (fun hends => upright_of_contains hends.1 hends.2 h.passes.within) id
        exact exec_mutateInside hends hr hok
      | false => exact exec_mutateOutside hr hok
    | pair c equal g n => exact h.exec_pair
    | all c fs n b => exact h.exec_fixpoint ih (Nat.le_of_succ_le_succ hk)
    | either c f g b => exact h.exec_either
    | negation c f n b => exact h.exec_negation
    | lens c a f b => exact h.exec_lens ih (Nat.le_of_succ_le_succ hk)
    | prism c a f b => exact h.exec_prism ih (Nat.le_of_succ_le_succ hk)
    | each c f b => exact h.exec_each ih (Nat.le_of_succ_le_succ hk)
    | length c n g => exact h.exec_length
    | mapped c name tests fs f =>
      obtain ⟨⟨⟨hany, hother⟩, hfs, hf⟩, -, hrestores, hpasses⟩ := h
      have hchosen : Content w (pick (w.store.view v) f tests fs) v ∧ (pick (w.store.view v) f tests fs).depth ≤ k := by
        have hbelow : max (depths fs) f.depth ≤ k := Nat.le_of_succ_le_succ hk
        have hrests := (restoresPick_iff _ _ _ _ tests fs).mp hrestores
        rcases pick_mem_or_eq (w.store.view v) f tests fs with hmem | heq
        · exact ⟨⟨hfs.mem _ hmem, stateful_of_any hany hmem, hrests, hpasses.mapped⟩,
            Nat.le_trans (depth_le_depths hmem) (Nat.le_trans (Nat.le_max_left ..) hbelow)⟩
        · refine ⟨⟨?_, ?_, hrests, hpasses.mapped⟩, ?_⟩
          · rwa [heq]
          · rwa [heq]
          · rw [heq]
            exact Nat.le_trans (Nat.le_max_right ..) hbelow
      exact (exec_after (exec_view v w)).trans (exec_under (ih hchosen.2 hchosen.1))
    | brute c name test g n => exact h.exec_brute
    | choice c o b =>
      refine h.exec_choice ih ?_
      rintro f rfl
      exact Nat.le_of_succ_le_succ hk
    | labeled c name f b =>
      obtain ⟨⟨hb, hf⟩, hs, hrestores, hpasses⟩ := h
      exact ih (Nat.le_of_succ_le_succ hk) ⟨hf, hb.symm.trans hs, hrestores, judges_labeled.mp hpasses⟩
    | counter | distinct | predicate | foreign => exact h.restores.elim

/-! ## Scanning -/

/-- The world with the note that a candidate has been accepted. -/
def noteAccepted (w : World) (d : String) (i : Nat) : World :=
  { w with log := w.log.push ⟨.debug, "factual.brute", d ++ ": candidate #" ++ toString i ++ " accepted"⟩ }

/-- The fault of a fact that no candidate satisfies. -/
def noneSatisfies (d : String) (scanned : Nat) : Fault :=
  .exhausted d ("none of " ++ toString scanned ++ " candidate(s) satisfied the fact") none

/-- How a scan ends: with the first candidate that passes, or with a fault if none does. -/
inductive Scans (w : World) (f : Fact) (d : String) (k : Nat) (xs : List Value) : Except Fault Value × World → Prop
  | found {before after : List Value} {x : Value} {i : Nat} (hxs : xs = before ++ x :: after)
      (hbefore : ∀ y ∈ before, f.Judges w y false) (hx : f.Judges w x true) (hi : i = k + before.length + 1) :
      Scans w f d k xs (.ok x, noteAccepted w d i)
  | none {n : Nat} (h : ∀ x ∈ xs, f.Judges w x false) (hn : n = k + xs.length) :
      Scans w f d k xs (.error (noneSatisfies d n), w)

theorem Scans.pass {d : String} {out : Except Fault Value × World} (hx : f.Judges w x false)
    (h : Scans w f d (k + 1) xs out) : Scans w f d k (x :: xs) out := by
  cases h with
  | @found before after y i hxs hbefore hy hi =>
    refine .found (congrArg (x :: ·) hxs) (List.forall_mem_cons.mpr ⟨hx, hbefore⟩) hy ?_
    rw [List.length_cons]
    omega
  | none h hn =>
    refine .none (List.forall_mem_cons.mpr ⟨hx, h⟩) ?_
    rw [List.length_cons]
    omega

/-- A scan by a stateless fact that can be described ends so. -/
theorem scans {d : String} (hf : f.Formed) (hs : f.stateful = false) (hd : exec f.described w = (.ok d, w))
    (hxs : ∀ x ∈ xs, ∃ b, f.Judges w x b) : Scans w f d k xs (exec (f.scan k xs) w) := by
  induction xs generalizing k with
  | nil =>
    have hgive : exec (f.scan k []) w = (.error (noneSatisfies d k), w) := by
      rw [scan, giveUp, exec_after hd]
      rfl
    rw [hgive]
    exact .none (List.forall_mem_nil _) rfl
  | cons x xs ih =>
    obtain ⟨⟨b, hx⟩, hxs⟩ := List.forall_mem_cons.mp hxs
    obtain ⟨r, hr, rfl⟩ := hx.quietly hf hs
    rw [scan, exec_after (exec_probe_stateless hs), exec_after hr]
    split
    · next hok =>
      have haccept : exec (do
          Act.log .debug "factual.brute" ((← f.described) ++ ": candidate #" ++ toString (k + 1) ++ " accepted")
          return x : Act Value) w = (.ok x, noteAccepted w d (k + 1)) := by
        rw [exec_after hd]
        rfl
      exact haccept ▸ .found (List.nil_append (x :: xs)).symm (List.forall_mem_nil _) (hok ▸ hx) rfl
    · next hfailed =>
      rw [Bool.not_eq_true] at hfailed
      exact (ih hxs).pass (hfailed ▸ hx)

/-! ## Choosing -/

/-- Choosing with a further fact is sound and complete. If the value is a candidate that passes, or some candidate
does, a candidate or that value is answered, which passes; and if a fault ends the call, it is that no candidate
does. Nothing is drawn, and the store is left as it was. -/
theorem choice_respects {d : String} (hformed : (Fact.choice c (some f) b).Formed)
    (hstateless : (Fact.choice c (some f) b).stateful = false)
    (hvalue : ∃ b', (Fact.choice c (some f) b).Judges w v b')
    (hcandidates : ∀ x ∈ w.store.slots c, ∃ b', f.Judges w x b')
    (hrestores : ∀ x, x = v ∨ x ∈ w.store.slots c → f.Judges w x true → f.Restores w.store x)
    (hd : exec f.described w = (.ok d, w)) :
    (w.store.isIn? v (w.store.slots c) = some true ∧ f.Judges w v true ∨ (∃ x ∈ w.store.slots c, f.Judges w x true) →
      ∃ y u, exec ((Fact.choice c (some f) b).mutate v) w = (.ok y, u) ∧
        (y ∈ w.store.slots c ∨ y = v ∧ w.store.isIn? v (w.store.slots c) = some true) ∧ f.Judges u y true ∧
        u.store = w.store ∧ u.source = w.source) ∧
    ∀ e u, exec ((Fact.choice c (some f) b).mutate v) w = (.error e, u) →
      (∀ x ∈ w.store.slots c, f.Judges w x false) ∧ e = noneSatisfies d (w.store.slots c).length ∧ u = w := by
  obtain ⟨b', hvalue⟩ := hvalue
  obtain ⟨r, hr, rfl⟩ := hvalue.quietly hformed hstateless
  obtain ⟨found, passed, hfound, hpassed, hboth⟩ := hvalue.further
  have hf : f.Formed := hformed.2
  have hs : f.stateful = false := hformed.1.symm.trans hstateless
  -- the fact is run once more on what has passed, and leaves it alone
  have hrun : ∀ {x : Value} {u : World}, x = v ∨ x ∈ w.store.slots c → f.Judges w x true → u.store = w.store →
      f.Judges u x true ∧ exec (mutateWithin f.depth f x) u = (.ok x, u) := by
    intro x u hmem hx hu
    obtain ⟨r', hr', hok⟩ := hx.quietly hf hs
    have hlater : f.Judges u x true := ⟨r', u, exec_check_congr hf hs hu hr', hok⟩
    refine ⟨hlater, restoring_mutateWithin f.depth (Nat.le_refl _) ⟨hf, hs, ?_, hlater⟩⟩
    rw [hu]
    exact hrestores x hmem hx
  have hmutate : exec ((Fact.choice c (some f) b).mutate v) w =
      exec (if r.ok then mutateWithin f.depth f v else do
        let candidates ← Act.ask (·.slots c)
        mutateWithin f.depth f (← f.scan 0 candidates)) w :=
    (exec_after (exec_probe_stateless hstateless)).trans (exec_after hr)
  rw [hmutate]
  split
  · next hok =>
    rw [hok] at hboth
    obtain ⟨rfl, rfl⟩ := Bool.and_eq_true_iff.mp hboth.symm
    obtain ⟨hlater, hself⟩ := hrun (.inl rfl) hpassed rfl
    rw [hself]
    exact ⟨fun _ => ⟨v, w, rfl, .inr ⟨rfl, hfound⟩, hlater, rfl, rfl⟩, nofun⟩
  · next hfailed =>
    rw [exec_after (exec_ask _ w), exec_bind]
    have hscan := scans (k := 0) hf hs hd hcandidates
    generalize exec (f.scan 0 (w.store.slots c)) w = out at hscan
    cases hscan with
    | @found before after x i hxs _ hx _ =>
      have hmem : x ∈ w.store.slots c := by simp [hxs]
      obtain ⟨hlater, hself⟩ := hrun (u := noteAccepted w d i) (.inr hmem) hx rfl
      simp only [hself]
      exact ⟨fun _ => ⟨x, _, rfl, .inl hmem, hlater, rfl, rfl⟩, nofun⟩
    | none hnone hn =>
      refine ⟨?_, ?_⟩
      · rintro (⟨hcandidate, hpasses⟩ | ⟨x, hx, hpasses⟩)
        · refine absurd ?_ hfailed
          rw [hboth, hpassed.unique hpasses, Option.some.inj (hfound.symm.trans hcandidate)]
          rfl
        · exact absurd ((hnone x hx).unique hpasses) Bool.false_ne_true
      · rintro e u ⟨⟩
        exact ⟨hnone, by rw [hn, Nat.zero_add], rfl⟩

/-- Checks have a verdict where running them says so. -/
theorem exists_judges (h : (exec (f.check v) w).1.isOk = true) : ∃ b, f.Judges w v b := by
  cases hr : exec (f.check v) w with
  | mk out u =>
    rw [hr] at h
    cases out with
    | ok r => exact ⟨r.ok, r, u, hr, rfl⟩
    | error e => cases h

end

/-- A tuple whose first item lies in a range. -/
def adultFact : Fact := .lens 1 (.item "0" (.int 0)) (.range 2 true) false

/-- The cell of two candidates, the first of which is too young, and the cells of `adultFact`. -/
def adultWorld : World where
  store := ⟨#[.slots [.tuple none [.int 12], .tuple none [.int 30]], .slots [], .slots [.int 18, .int 65]],
    spelledMarks, []⟩
  source := .tape [] 0
  log := #[]

/-- There is a candidate to be answered for a tuple that is none. -/
theorem choice_respects_adult : ∃ y u,
    exec ((Fact.choice 0 (some adultFact) false).mutate (.tuple none [.int 99])) adultWorld = (.ok y, u) ∧
      (y ∈ adultWorld.store.slots 0 ∨ y = .tuple none [.int 99] ∧
        adultWorld.store.isIn? (.tuple none [.int 99]) (adultWorld.store.slots 0) = some true) ∧
      adultFact.Judges u y true ∧ u.store = adultWorld.store ∧ u.source = adultWorld.source := by
  have hcandidates : ∀ x ∈ adultWorld.store.slots 0, ∃ b, adultFact.Judges adultWorld x b :=
    List.forall_mem_cons.mpr ⟨exists_judges (by decide +kernel),
      List.forall_mem_singleton.mpr (exists_judges (by decide +kernel))⟩
  have htext : describe adultWorld.store adultFact = some "lens(0) > in_range(18..65)" := by decide +kernel
  have hd : exec adultFact.described adultWorld = (.ok "lens(0) > in_range(18..65)", adultWorld) := by
    rw [described, exec_bind, exec_ask, htext]
    rfl
  have hadult : adultFact.Judges adultWorld (.tuple none [.int 30]) true :=
    judges_lens.mpr (.inl ⟨.int 30, rfl, judges_range (by decide +kernel)⟩)
  have hrestores : ∀ n : Int, adultFact.Restores adultWorld.store (.tuple none [.int n]) := by
    rintro n x ⟨⟩
    exact ⟨rfl, .inl ⟨.inr ⟨.int 18, trivial, rfl⟩, .inr ⟨.int 65, trivial, rfl⟩⟩⟩
  have hmem : ∀ x, x = .tuple none [.int 99] ∨ x ∈ adultWorld.store.slots 0 → ∃ n : Int, x = .tuple none [.int n] := by
    rintro x (rfl | hx)
    · exact ⟨99, rfl⟩
    · rcases List.mem_cons.mp hx with rfl | hx
      · exact ⟨12, rfl⟩
      · exact ⟨30, List.mem_singleton.mp hx⟩
  refine (choice_respects (f := adultFact) ⟨rfl, rfl, trivial⟩ rfl (exists_judges (by decide +kernel)) hcandidates
    (fun x hx _ => ?_) hd).1 (.inr ⟨_, List.mem_cons_of_mem _ List.mem_cons_self, hadult⟩)
  obtain ⟨n, rfl⟩ := hmem x hx
  exact hrestores n

end Fact

end Conform
