import Conform.Proofs.Choosing
import Conform.Proofs.Constants
import Conform.Proofs.Satisfying
import Conform.Proofs.Stocked
import Conform.Proofs.Writing

/-!
# Enumerating candidates

A choice among constants that asks a distinct fact besides hands out its candidates one after the other. Every call
tries the fact out on copies, once for the value and once for each candidate that is looked at, and the fact itself
remembers what is answered, and nothing else (`Enumerating`). The main result is `mutate_choice_distinct`.
-/

namespace Conform

open Act

namespace Fact

variable {s t : Store} {c d l : Loc} {cs ys xs : List Value} {x y : Value} {w u : World} {g : Option Generator}
  {n : Int} {roots : List Loc}

/-- Whether no value of a list is the same as another one. -/
def unseen (ys : List Value) (x : Value) : Bool := !ys.any (·.same x)

theorem unseen_iff : unseen ys x = true ↔ ∀ y ∈ ys, y.same x = false := by
  simp [unseen]

/-- Whether a value is a constant that can be written. -/
def Shown (x : Value) : Prop := x.Constant Store.deepest ∧ x.Writable

/-- The cells of a choice among constants and of the distinct fact that it asks, when some values have been seen since
the start: each is the same as a candidate, and no two are the same. Apart from the list of these values, the objects
of the start are as they were. -/
structure Enumerating (s : Store) (c d l : Loc) (cs ys : List Value) (t : Store) : Prop where
  candidates : t.get? c = some (.slots cs)
  cell : t.get? d = some (.slots [.ref l])
  list : t.get? l = some (.list ys)
  seen : ∀ y ∈ ys, Shown y
  chosen : ∀ y ∈ ys, cs.any (·.same y) = true
  apart : ys.Pairwise fun y z => y.same z = false
  size : s.size ≤ t.size
  same : ∀ m, m < s.size → m ≠ l → t.get? m = s.get? m

namespace Enumerating

/-- New objects are no concern of an enumeration. -/
theorem grow (h : Enumerating s c d l cs ys t) {t' : Store} (hsize : t.size ≤ t'.size)
    (hsame : ∀ m, m < t.size → t'.get? m = t.get? m) : Enumerating s c d l cs ys t' where
  candidates := (hsame c (Store.lt_size_of_get? h.candidates)).trans h.candidates
  cell := (hsame d (Store.lt_size_of_get? h.cell)).trans h.cell
  list := (hsame l (Store.lt_size_of_get? h.list)).trans h.list
  seen := h.seen
  chosen := h.chosen
  apart := h.apart
  size := Nat.le_trans h.size hsize
  same := fun m hm hml => (hsame m (Nat.lt_of_lt_of_le hm h.size)).trans (h.same m hm hml)

/-- A value that is remembered is one more that has been seen. -/
theorem remember (h : Enumerating s c d l cs ys t) (hx : Shown x) (hchosen : cs.any (·.same x) = true)
    (hunseen : unseen ys x = true) :
    Enumerating s c d l cs (ys ++ [x]) (t.put l (.list (ys ++ [x]))) where
  candidates := by
    rw [Store.get?_put_of_ne, h.candidates]
    rintro rfl
    cases h.list.symm.trans h.candidates
  cell := by
    rw [Store.get?_put_of_ne, h.cell]
    rintro rfl
    cases h.list.symm.trans h.cell
  list := Store.get?_put_same (Store.lt_size_of_get? h.list)
  seen := by
    intro y hy
    rcases List.mem_append.mp hy with hy | hy
    · exact h.seen y hy
    · exact List.mem_singleton.mp hy ▸ hx
  chosen := by
    intro y hy
    rcases List.mem_append.mp hy with hy | hy
    · exact h.chosen y hy
    · exact List.mem_singleton.mp hy ▸ hchosen
  apart := by
    refine List.pairwise_append.mpr ⟨h.apart, List.pairwise_singleton _ _, fun y hy z hz => ?_⟩
    exact List.mem_singleton.mp hz ▸ unseen_iff.mp hunseen y hy
  size := by
    rw [Store.size_put]
    exact h.size
  same := fun m hm hml => by rw [Store.get?_put_of_ne (Ne.symm hml), h.same m hm hml]

/-- What could be written at the start can be written. -/
theorem isWritable (h : Enumerating s c d l cs ys t) (hs : s.Whole) (hbound : x.bound ≤ s.size)
    (hx : s.Writable x) : (t.view x).isWritable = true :=
  hx.isWritable hs hbound h.same h.list fun y hy => ⟨(h.seen y hy).1.bare.refs, (h.seen y hy).2⟩

/-- A copy of the distinct fact has a list of its own, with the same values. -/
theorem copied (h : Enumerating s c d l cs ys t) (hd : d ∈ roots) :
    (t.copy roots).2.get? ((t.copy roots).1.place d) = some (.slots [.ref ((t.copy roots).1.place l)]) ∧
      (t.copy roots).2.get? ((t.copy roots).1.place l) = some (.list ys) ∧ t.size ≤ (t.copy roots).1.place l := by
  have hcell := Store.mem_reachable_root hd (Store.lt_size_of_get? h.cell)
  have hlist := Store.reachable_closed hcell h.cell List.mem_cons_self (Store.lt_size_of_get? h.list)
  refine ⟨?_, ?_, Store.size_le_copy_place hlist⟩
  · rw [Store.get?_copy_place hcell, h.cell]
    rfl
  · rw [Store.get?_copy_place hlist, h.list, Option.map_some, Object.move,
      Value.move_bare_all _ fun y hy => (h.seen y hy).1.bare]

/-- A copy of the choice has the same candidates. -/
theorem copied_candidates (h : Enumerating s c d l cs ys t) (hc : c ∈ roots) (hcs : ∀ x ∈ cs, Shown x) :
    (t.copy roots).2.get? ((t.copy roots).1.place c) = some (.slots cs) := by
  rw [Store.get?_copy_place (Store.mem_reachable_root hc (Store.lt_size_of_get? h.candidates)), h.candidates,
    Option.map_some, Object.move, Value.move_bare_all _ fun y hy => (hcs y hy).1.bare]

/-- Using a copy changes new objects only. -/
theorem copy_used (h : Enumerating s c d l cs ys t) (hd : d ∈ roots) (o : Object) :
    Enumerating s c d l cs ys ((t.copy roots).2.put ((t.copy roots).1.place l) o) := by
  refine h.grow ?_ fun m hm => ?_
  · rw [Store.size_put, Store.size_copy]
    exact Nat.le_add_right _ _
  · have hne : (t.copy roots).1.place l ≠ m := Nat.ne_of_gt (Nat.lt_of_lt_of_le hm (h.copied hd).2.2)
    rw [Store.get?_put_of_ne hne, Store.get?_copy_of_lt hm]

end Enumerating

/-! ## Checking copies -/

theorem exec_reportUnless {ok : Bool} {message : Act String} (h : ok = false → ∃ m, exec message w = (.ok m, w)) :
    ∃ r : Report, exec (reportUnless ok message) w = (.ok r, w) ∧ r.ok = ok := by
  cases ok with
  | true => exact ⟨.pass, rfl, rfl⟩
  | false =>
    obtain ⟨m, hm⟩ := h rfl
    exact ⟨.fail m, exec_after hm, rfl⟩

theorem exec_render (h : (w.store.view x).isWritable = true) :
    exec (Act.render x) w = (.ok (w.store.view x).render, w) := by
  rw [Act.render, exec_bind, exec_view]
  dsimp only
  rw [Data.text?, if_pos h]
  rfl

theorem exec_slots (hcell : w.store.get? c = some (.slots cs)) : exec (Act.ask (·.slots c)) w = (.ok cs, w) := by
  rw [exec_ask, Store.slots_of_get? hcell]

/-- Whether a value is one of the constants is reported. -/
theorem exec_checkCandidates (hcell : w.store.get? c = some (.slots cs)) (hcs : ∀ x ∈ cs, x.Constant Store.deepest)
    (hx : (w.store.view x).isWritable = true) :
    ∃ r : Report, exec (checkCandidates c x) w = (.ok r, w) ∧ r.ok = cs.any (·.same x) := by
  have hisIn : exec (Act.isIn x cs) w = (.ok (cs.any (·.same x)), w) := by
    rw [exec_isIn, Store.isIn?_constant hcs]
  rw [checkCandidates, exec_after (exec_slots hcell), exec_after hisIn]
  exact exec_reportUnless fun _ => ⟨_, exec_after (exec_render hx)⟩

/-- Whether a value has not been seen is reported, and it is remembered. -/
theorem exec_checkDistinct (hcell : w.store.get? d = some (.slots [.ref l])) (hlist : w.store.get? l = some (.list ys))
    (hys : ∀ y ∈ ys, y.Constant Store.deepest)
    (hx : ((w.store.put l (.list (ys ++ [x]))).view x).isWritable = true) :
    ∃ r : Report, exec (checkDistinct d x) w = (.ok r, { w with store := w.store.put l (.list (ys ++ [x])) }) ∧
      r.ok = unseen ys x := by
  have hisIn : exec (Act.isIn x ys) w = (.ok (ys.any (·.same x)), w) := by
    rw [exec_isIn, Store.isIn?_constant hys]
  -- the value is remembered before the message is made, so it is read in the store with the longer list
  rw [checkDistinct, exec_after (exec_seen hcell hlist), exec_after hisIn, exec_after (exec_remember hcell hlist)]
  refine exec_reportUnless fun _ => ⟨_, exec_after (exec_render ?_)⟩
  exact hx

section

variable (h : Enumerating s c d l cs ys w.store)
  (hx : ∀ t, Enumerating s c d l cs ys t → (t.view x).isWritable = true)

include h hx

/-- A copy of the distinct fact reports whether a value has been seen, and the fact itself does not advance. -/
theorem exec_probe_distinct : ∃ p u r v, exec (Fact.distinct d g n).probe w = (.ok p, u) ∧
    exec (p.check x) u = (.ok r, v) ∧ r.ok = unseen ys x ∧ Enumerating s c d l cs ys v.store ∧
      v.source = w.source := by
  have hd : d ∈ (Fact.distinct d g n).cells := List.mem_cons_self
  obtain ⟨hcell, hlist, -⟩ := h.copied hd
  have hused := h.copy_used hd (.list (ys ++ [x]))
  obtain ⟨r, hr, hok⟩ := exec_checkDistinct (w := { w with store := (w.store.copy (Fact.distinct d g n).cells).2 })
    hcell hlist (fun y hy => (h.seen y hy).1) (hx _ hused)
  exact ⟨_, _, r, _, exec_probe_stateful rfl, hr, hok, hused, rfl⟩

/-- A copy of the choice reports whether a value is a candidate that has not been seen. -/
theorem exec_probe_choice (hcs : ∀ x ∈ cs, Shown x) :
    ∃ p u r v, exec (Fact.choice c (some (.distinct d g n)) true).probe w = (.ok p, u) ∧
      exec (p.check x) u = (.ok r, v) ∧ r.ok = (cs.any (·.same x) && unseen ys x) ∧
      Enumerating s c d l cs ys v.store ∧ v.source = w.source := by
  have hc : c ∈ (Fact.choice c (some (.distinct d g n)) true).cells := List.mem_cons_self
  have hd : d ∈ (Fact.choice c (some (.distinct d g n)) true).cells := List.mem_cons_of_mem _ List.mem_cons_self
  obtain ⟨hcell, hlist, -⟩ := h.copied hd
  have hcandidates := h.copied_candidates hc hcs
  generalize hcopy : w.store.copy (Fact.choice c (some (.distinct d g n)) true).cells = copied
    at hcell hlist hcandidates
  have hcopied : Enumerating s c d l cs ys copied.2 := by
    rw [← hcopy]
    refine h.grow ?_ fun m hm => Store.get?_copy_of_lt hm
    rw [Store.size_copy]
    exact Nat.le_add_right _ _
  have hused : Enumerating s c d l cs ys (copied.2.put (copied.1.place l) (.list (ys ++ [x]))) := by
    rw [← hcopy]
    exact h.copy_used hd _
  -- the copied choice is asked first, and the copied distinct fact then, which remembers the value in its own list
  obtain ⟨r, hr, hrok⟩ := exec_checkCandidates (w := { w with store := copied.2 }) hcandidates
    (fun x hx => (hcs x hx).1) (hx _ hcopied)
  obtain ⟨r', hr', hrok'⟩ := exec_checkDistinct (w := { w with store := copied.2 }) hcell hlist
    (fun y hy => (h.seen y hy).1) (hx _ hused)
  have hprobe : exec (Fact.choice c (some (.distinct d g n)) true).probe w =
      (.ok (.choice (copied.1.place c) (some (.distinct (copied.1.place d) g n)) true),
        { w with store := copied.2 }) := by
    rw [exec_probe_stateful rfl, hcopy]
    rfl
  have hcheck : exec ((Fact.choice (copied.1.place c) (some (.distinct (copied.1.place d) g n)) true).check x)
      { w with store := copied.2 } =
        (.ok (r ++ r'), { w with store := copied.2.put (copied.1.place l) (.list (ys ++ [x])) }) :=
    (exec_after hr).trans (exec_after hr')
  exact ⟨_, _, _, _, hprobe, hcheck, by rw [Report.ok_append, hrok, hrok'], hused, rfl⟩

end

/-- The distinct fact takes a value that has not been seen as it is, and remembers it. -/
theorem exec_mutate_unseen (h : Enumerating s c d l cs ys w.store) (hx : Shown x) (hchosen : cs.any (·.same x) = true)
    (hunseen : unseen ys x = true) : ∃ u, exec (mutateWithin 1 (.distinct d g n) x) w = (.ok x, u) ∧
      Enumerating s c d l cs (ys ++ [x]) u.store ∧ u.source = w.source := by
  have hisIn : exec (Act.isIn x ys) w = (.ok (ys.any (·.same x)), w) := by
    rw [exec_isIn, Store.isIn?_constant fun y hy => (h.seen y hy).1]
  have haccept : exec (do return !(← Act.isIn x (← seen d)) : Act Bool) w = (.ok true, w) := by
    rw [exec_after (exec_seen h.cell h.list), exec_after hisIn, ← hunseen]
    rfl
  refine ⟨{ w with store := w.store.put l (.list (ys ++ [x])) }, ?_, h.remember hx hchosen hunseen, rfl⟩
  show exec (mutateDistinct (.distinct d g n) d g n x) w = _
  rw [mutateDistinct, exec_after (exec_run haccept)]
  exact exec_after (exec_remember h.cell h.list)

/-! ## Scanning -/

/-- The scan stops at the first candidate that has not been seen, and the fact does not advance. -/
theorem exec_scan_distinct (xs : List Value)
    (hxs : ∀ x ∈ xs, ∀ t, Enumerating s c d l cs ys t → (t.view x).isWritable = true)
    (h : Enumerating s c d l cs ys w.store) (k : Nat) : ∃ u,
    exec ((Fact.distinct d g n).scan k xs) w =
      (match xs.find? (unseen ys) with
        | some x => .ok x
        | none => .error (noneSatisfies "distinct" (k + xs.length)), u) ∧
      Enumerating s c d l cs ys u.store ∧ u.source = w.source := by
  induction xs generalizing w k with
  | nil => exact ⟨w, rfl, h, rfl⟩
  | cons x xs ih =>
    rw [List.forall_mem_cons] at hxs
    obtain ⟨p, u, r, v, hprobe, hcheck, hok, hv, hsource⟩ := exec_probe_distinct (g := g) (n := n) h hxs.1
    rw [scan, exec_after hprobe, exec_after hcheck, hok, List.find?_cons]
    cases hunseen : unseen ys x with
    | true => exact ⟨_, rfl, hv, hsource⟩
    | false =>
      -- only the copy has remembered the candidate, so the rest is scanned with the same values seen
      obtain ⟨u', hscan, hu', hsource'⟩ := ih hxs.2 hv (k + 1)
      refine ⟨u', ?_, hu', hsource'.trans hsource⟩
      have hlength : k + (x :: xs).length = k + 1 + xs.length := by
        rw [List.length_cons]
        omega
      rw [hlength]
      exact hscan

/-! ## Choosing -/

/-- What a choice with a distinct fact answers: the value itself if it is the same as a candidate and has not been
seen, else the first candidate that has not been seen. -/
def nextAnswer (cs ys : List Value) (x : Value) : Except Fault Value :=
  if cs.any (·.same x) && unseen ys x then .ok x
  else
    match cs.find? (unseen ys) with
    | some c => .ok c
    | none => .error (noneSatisfies "distinct" cs.length)

/-- The value that a call has answered, if it has. -/
def answered : Except Fault Value → List Value
  | .ok y => [y]
  | .error _ => []

/-- A value that refers to nothing can be written with all that it leads to if it can be written itself. -/
theorem Shown.writable (hx : Shown x) : s.Writable x := by
  refine ⟨hx.2, ?_⟩
  rw [hx.1.bare.refs]
  exact List.forall_mem_nil _

theorem Shown.bound (hx : Shown x) : x.bound ≤ s.size := by
  rw [Value.bound_le, hx.1.bare.refs]
  exact List.forall_mem_nil _

section

variable (hs : s.Whole) (hcs : ∀ x ∈ cs, Shown x)

include hs hcs

/-- One call. -/
theorem exec_choice_step (h : Enumerating s c d l cs ys w.store) (hbound : x.bound ≤ s.size) (hx : s.Writable x) :
    ∃ u, exec ((Fact.choice c (some (.distinct d g n)) true).mutate x) w = (nextAnswer cs ys x, u) ∧
      Enumerating s c d l cs (ys ++ answered (nextAnswer cs ys x)) u.store ∧ u.source = w.source := by
  obtain ⟨p, u, r, v, hprobe, hcheck, hok, hv, hsource⟩ :=
    exec_probe_choice (g := g) (n := n) h (fun t ht => ht.isWritable hs hbound hx) hcs
  have hmutate : exec ((Fact.choice c (some (.distinct d g n)) true).mutate x) w =
      exec (if r.ok then mutateWithin 1 (.distinct d g n) x else do
        let candidates ← Act.ask (·.slots c)
        mutateWithin 1 (.distinct d g n) (← (Fact.distinct d g n).scan 0 candidates)) v :=
    (exec_after hprobe).trans (exec_after hcheck)
  rw [hmutate, hok, nextAnswer]
  cases hkept : cs.any (·.same x) && unseen ys x with
  | true =>
    obtain ⟨hchosen, hunseen⟩ := Bool.and_eq_true_iff.mp hkept
    -- the value need not be a constant by itself, but it is the same as one
    have hshown : Shown x := by
      obtain ⟨c', hc', hsame⟩ := List.any_eq_true.mp hchosen
      exact ⟨(hcs c' hc').1.of_same hsame, hx.1⟩
    obtain ⟨u', hrun, hu', hsource'⟩ := exec_mutate_unseen (g := g) (n := n) hv hshown hchosen hunseen
    exact ⟨u', hrun, hu', hsource'.trans hsource⟩
  | false =>
    obtain ⟨u', hscan, hu', hsource'⟩ := exec_scan_distinct (g := g) (n := n) cs
      (fun x hx t ht => ht.isWritable hs (hcs x hx).bound (hcs x hx).writable) hv 0
    rw [Nat.zero_add] at hscan
    simp only [Bool.false_eq_true, if_false]
    rw [exec_after (exec_slots hv.candidates)]
    cases hfind : cs.find? (unseen ys) with
    | none =>
      rw [hfind] at hscan
      refine ⟨u', ?_, ?_, hsource'.trans hsource⟩
      · rw [exec_bind, hscan]
      · rw [answered, List.append_nil]
        exact hu'
    | some y =>
      rw [hfind] at hscan
      have hmem := List.mem_of_find?_eq_some hfind
      have hchosen : cs.any (·.same y) = true := List.any_eq_true.mpr ⟨y, hmem, (hcs y hmem).1.same_self⟩
      obtain ⟨u'', hrun, hu'', hsource''⟩ :=
        exec_mutate_unseen (g := g) (n := n) hu' (hcs y hmem) hchosen (List.find?_some hfind)
      refine ⟨u'', ?_, hu'', hsource''.trans (hsource'.trans hsource)⟩
      rw [exec_after hscan, hrun]

/-- Calls one after the other, each on a value of its own, those that fail among them. -/
theorem exec_choice_calls (hxs : ∀ x ∈ xs, x.bound ≤ s.size ∧ s.Writable x)
    (h : Enumerating s c d l cs ys w.store) : ∃ rs u,
    exec (xs.mapM fun x => Act.attempt ((Fact.choice c (some (.distinct d g n)) true).mutate x)) w = (.ok rs, u) ∧
      Enumerating s c d l cs (ys ++ rs.flatMap answered) u.store ∧ u.source = w.source := by
  induction xs generalizing ys w with
  | nil => exact ⟨[], w, rfl, (List.append_nil ys).symm ▸ h, rfl⟩
  | cons x xs ih =>
    rw [List.forall_mem_cons] at hxs
    obtain ⟨u, hstep, hu, hsource⟩ := exec_choice_step (g := g) (n := n) hs hcs h hxs.1.1 hxs.1.2
    obtain ⟨rs, t, hrest, ht, hsource'⟩ := ih hxs.2 hu
    have hcall : exec (Act.attempt ((Fact.choice c (some (.distinct d g n)) true).mutate x)) w =
        (.ok (nextAnswer cs ys x), u) := by
      rw [exec_attempt, hstep]
    refine ⟨nextAnswer cs ys x :: rs, t, ?_, ?_, hsource'.trans hsource⟩
    · rw [List.mapM_cons, exec_after hcall, exec_after hrest]
      rfl
    · rw [List.flatMap_cons, ← List.append_assoc]
      exact ht

end

/-- Some candidate has not been seen that a value is the same as just if it is the same as one and has not been seen. -/
theorem kept_iff (hcs : ∀ x ∈ cs, Shown x) (hys : ∀ y ∈ ys, y.Constant Store.deepest) :
    (∃ c ∈ cs, s.equal? c x = some true ∧ ∀ y ∈ ys, s.equal? y c = some false) ↔
      (cs.any (·.same x) && unseen ys x) = true := by
  rw [Bool.and_eq_true, List.any_eq_true, unseen_iff]
  constructor
  · rintro ⟨c, hc, hequal, hnew⟩
    rw [Store.equal?_constant (hcs c hc).1, Option.some.injEq] at hequal
    refine ⟨⟨c, hc, hequal⟩, fun y hy => ?_⟩
    have hyc := hnew y hy
    rwa [Store.equal?_constant (hys y hy), Option.some.injEq, (hcs c hc).1.same_congr (hys y hy) hequal] at hyc
  · rintro ⟨⟨c, hc, hequal⟩, hnew⟩
    refine ⟨c, hc, by rw [Store.equal?_constant (hcs c hc).1, hequal], fun y hy => ?_⟩
    rw [Store.equal?_constant (hys y hy), (hcs c hc).1.same_congr (hys y hy) hequal, hnew y hy]

/-- What is answered next, in terms of the comparison of values. -/
theorem nextAnswer_spec (hcs : ∀ x ∈ cs, Shown x) (hys : ∀ y ∈ ys, y.Constant Store.deepest) :
    ((∃ c ∈ cs, s.equal? c x = some true ∧ ∀ y ∈ ys, s.equal? y c = some false) → nextAnswer cs ys x = .ok x) ∧
    (∀ before after c, (¬ ∃ c ∈ cs, s.equal? c x = some true ∧ ∀ y ∈ ys, s.equal? y c = some false) →
      cs = before ++ c :: after → (∀ b ∈ before, ∃ y ∈ ys, s.equal? y b = some true) →
      (∀ y ∈ ys, s.equal? y c = some false) → nextAnswer cs ys x = .ok c) ∧
    (nextAnswer cs ys x = .error (noneSatisfies "distinct" cs.length) ↔
      ∀ c ∈ cs, ∃ y ∈ ys, s.equal? y c = some true) := by
  have hequal : ∀ z, ∀ y ∈ ys, s.equal? y z = some (y.same z) := fun z y hy => Store.equal?_constant (hys y hy)
  have hseen : ∀ z, (∃ y ∈ ys, s.equal? y z = some true) ↔ unseen ys z = false := by
    intro z
    rw [unseen, Bool.not_eq_false', List.any_eq_true]
    exact exists_congr fun y => and_congr_right fun hy => by rw [hequal z y hy, Option.some.injEq]
  have hnew : ∀ z, (∀ y ∈ ys, s.equal? y z = some false) ↔ unseen ys z = true := by
    intro z
    rw [unseen_iff]
    exact forall₂_congr fun y hy => by rw [hequal z y hy, Option.some.injEq]
  rw [kept_iff hcs hys]
  simp only [hseen, hnew]
  unfold nextAnswer
  refine ⟨fun hkept => if_pos hkept, fun before after c hkept hsplit hbefore hc => ?_, ?_⟩
  · have hfind : cs.find? (unseen ys) = some c := by
      refine List.find?_eq_some_iff_append.mpr ⟨hc, before, after, hsplit, fun b hb => ?_⟩
      rw [hbefore b hb]
      rfl
    rw [if_neg hkept, hfind]
  · have hnone : (∀ c ∈ cs, unseen ys c = false) ↔ cs.find? (unseen ys) = none := by
      simp [List.find?_eq_none]
    rw [hnone]
    -- a value that is kept belongs to a candidate that has not been seen, so neither side holds
    by_cases hkept : (cs.any (·.same x) && unseen ys x) = true
    · obtain ⟨c, hc, -, hcnew⟩ := (kept_iff (s := s) hcs hys).mpr hkept
      rw [if_pos hkept]
      refine iff_of_false (by simp) fun hfind => ?_
      rw [← hnone] at hfind
      cases (hfind c hc).symm.trans ((hnew c).mp hcnew)
    · rw [if_neg hkept]
      cases cs.find? (unseen ys) <;> simp

/-- A choice among constants that asks a distinct fact enumerates its candidates. After any calls, those that failed
among them, what has been answered is what the distinct fact has seen: no two of these values are equal, and each
equals a candidate. The next call answers the value itself, if it equals a candidate that no value answered equals,
and the first such candidate if not; it fails if there is none. Nothing is drawn. -/
theorem mutate_choice_distinct (hs : w.store.Whole) (hcell : w.store.get? c = some (.slots cs))
    (hseen : w.store.get? d = some (.slots [.ref l])) (hlist : w.store.get? l = some (.list []))
    (hcs : ∀ x ∈ cs, Shown x) (hxs : ∀ x ∈ xs, x.bound ≤ w.store.size ∧ w.store.Writable x) :
    ∃ rs u ys, exec (xs.mapM fun x => Act.attempt ((Fact.choice c (some (.distinct d g n)) true).mutate x)) w =
        (.ok rs, u) ∧ ys = rs.flatMap answered ∧
      u.store.get? d = some (.slots [.ref l]) ∧ u.store.get? l = some (.list ys) ∧ u.source = w.source ∧
      ys.Pairwise (fun y z => w.store.equal? y z = some false) ∧
      (∀ y ∈ ys, ∃ c ∈ cs, w.store.equal? c y = some true) ∧
      ∀ x, x.bound ≤ w.store.size → w.store.Writable x → ∀ r t,
        exec ((Fact.choice c (some (.distinct d g n)) true).mutate x) u = (r, t) →
        ((∃ c ∈ cs, w.store.equal? c x = some true ∧ ∀ y ∈ ys, w.store.equal? y c = some false) → r = .ok x) ∧
        (∀ before after c,
          (¬ ∃ c ∈ cs, w.store.equal? c x = some true ∧ ∀ y ∈ ys, w.store.equal? y c = some false) →
          cs = before ++ c :: after → (∀ b ∈ before, ∃ y ∈ ys, w.store.equal? y b = some true) →
          (∀ y ∈ ys, w.store.equal? y c = some false) → r = .ok c) ∧
        (r = .error (noneSatisfies "distinct" cs.length) ↔ ∀ c ∈ cs, ∃ y ∈ ys, w.store.equal? y c = some true) := by
  have hstart : Enumerating w.store c d l cs [] w.store :=
    ⟨hcell, hseen, hlist, List.forall_mem_nil _, List.forall_mem_nil _, .nil, Nat.le_refl _, fun _ _ _ => rfl⟩
  obtain ⟨rs, u, hrun, hu, hsource⟩ := exec_choice_calls (g := g) (n := n) hs hcs hxs hstart
  rw [List.nil_append] at hu
  have hconstant : ∀ y ∈ rs.flatMap answered, y.Constant Store.deepest := fun y hy => (hu.seen y hy).1
  refine ⟨rs, u, _, hrun, rfl, hu.cell, hu.list, hsource, ?_, fun y hy => ?_, fun x hbound hx r t hcall => ?_⟩
  · exact hu.apart.imp_of_mem fun hy _ hyz => by rw [Store.equal?_constant (hconstant _ hy), hyz]
  · obtain ⟨c', hc', hsame⟩ := List.any_eq_true.mp (hu.chosen y hy)
    exact ⟨c', hc', by rw [Store.equal?_constant (hcs c' hc').1, hsame]⟩
  · obtain ⟨u', hstep, -⟩ := exec_choice_step (g := g) (n := n) hs hcs hu hbound hx
    rw [hcall] at hstep
    cases hstep
    exact nextAnswer_spec hcs hconstant

/-- The cells of a choice among one, true and two and of the distinct fact that it asks. -/
def numbersWorld : World where
  store := ⟨#[.slots [.int 1, .bool true, .int 2], .slots [.ref 2], .list []], spelledMarks, []⟩
  source := .tape [0] 0
  log := #[]

/-- The choice among one, true and two, at the cells of `numbersWorld`. -/
def numbersFact : Fact := .choice 0 (some (.distinct 1 none 100)) true

/-- One and two are handed out for values that are no candidates any more. Then the choice is exhausted, for true is the
same number as one. -/
theorem mutate_choice_distinct_numbers :
    (∃ rs u, exec ([Value.text "x", .int 1, .int 2].mapM fun x => Act.attempt (numbersFact.mutate x)) numbersWorld =
        (.ok rs, u) ∧
      u.store.get? 2 = some (.list (rs.flatMap answered)) ∧ u.source = numbersWorld.source ∧
      ∀ r t, exec (numbersFact.mutate (.bool true)) u = (r, t) →
        (r = .error (noneSatisfies "distinct" 3) ↔ ∀ c ∈ [Value.int 1, .bool true, .int 2],
          ∃ y ∈ rs.flatMap answered, numbersWorld.store.equal? y c = some true)) ∧
    ((exec ([Value.text "x", .int 1, .int 2].mapM fun x => Act.attempt (numbersFact.mutate x))
      numbersWorld).2.store.view (.ref 2)).render = "[1, 2]" := by
  have hwritable : ∀ x ∈ [Value.text "x", .int 1, .bool true, .int 2], x.Writable := by
    intro x hx
    simp only [List.mem_cons, List.not_mem_nil, or_false] at hx
    rw [Value.Writable]
    rcases hx with rfl | rfl | rfl | rfl <;> decide +kernel
  have hcs : ∀ x ∈ [Value.int 1, .bool true, .int 2], Shown x := by
    intro x hx
    refine ⟨?_, hwritable x (List.mem_cons_of_mem _ hx)⟩
    simp only [List.mem_cons, List.not_mem_nil, or_false] at hx
    rcases hx with rfl | rfl | rfl <;> exact ⟨by simp, by simp⟩
  have hxs : ∀ x ∈ [Value.text "x", .int 1, .int 2],
      x.bound ≤ numbersWorld.store.size ∧ numbersWorld.store.Writable x := by
    intro x hx
    have hx' : x.Writable := hwritable x (by simp at hx ⊢; tauto)
    simp only [List.mem_cons, List.not_mem_nil, or_false] at hx
    rcases hx with rfl | rfl | rfl <;> exact ⟨Nat.zero_le _, hx', List.forall_mem_nil _⟩
  have hcell : numbersWorld.store.get? 0 = some (.slots [.int 1, .bool true, .int 2]) := rfl
  have hseen : numbersWorld.store.get? 1 = some (.slots [.ref 2]) := rfl
  have hlist : numbersWorld.store.get? 2 = some (.list []) := rfl
  obtain ⟨rs, u, ys, hrun, rfl, -, hlist, hsource, -, -, hnext⟩ := mutate_choice_distinct (g := none) (n := 100)
    (Store.Whole.of_bound (s := numbersWorld.store) (by decide) rfl) hcell hseen hlist hcs hxs
  refine ⟨⟨rs, u, hrun, hlist, hsource, fun r t hcall => ?_⟩, by decide +kernel⟩
  have htrue : (Value.bool true).Writable := hwritable _ (by simp)
  exact (hnext (.bool true) (Nat.zero_le _) ⟨htrue, List.forall_mem_nil _⟩ r t hcall).2.2

end Fact

end Conform
