import Conform.Proofs.Poised
import Conform.Proofs.Visiting

/-!
# What a check that passes has used

A check that passes has found the part of every lens that it has come to, and has used every member of a conjunction
and every element (`Fact.Passing`). So each counter of a fact that is followed has been used as often as it sees
something, and each distinct fact on what it sees (`Fact.Followed.alike_visits`).
-/

namespace Conform

open Act Conform.Store

/-- The elements of a tuple or a list are what it is iterated over. -/
theorem Store.elements?_of_row? {s : Store} {v : Value} {xs : List Value} (h : s.row? v = some xs) :
    s.elements? v = some xs := by
  cases v with
  | tuple c ys => exact h
  | ref l =>
    simp only [Store.row?] at h
    split at h
    · next heq => simpa only [Store.elements?, heq] using h
    · cases h
  | _ => cases h

namespace Fact

variable {R : Set Place} {ns fs : List Fact} {f : Fact} {s t u : Store} {X : Set Loc} {v x : Value} {w w' : World}
  {k : CellKind} {c : Loc} {p : Bool} {xs ys zs : List Value}

/-! ## Lists that leave the same notes -/

/-- Whether two lists of values leave the same notes at a cell: a counter notes only how many there are. -/
structure NotedAlike (k : CellKind) (xs ys : List Value) : Prop where
  length : xs.length = ys.length
  same : k ≠ .counter → xs = ys

namespace NotedAlike

theorem refl : NotedAlike k xs xs := ⟨rfl, fun _ => rfl⟩

theorem append {xs' ys' : List Value} (h : NotedAlike k xs ys) (h' : NotedAlike k xs' ys') :
    NotedAlike k (xs ++ xs') (ys ++ ys') where
  length := by rw [List.length_append, List.length_append, h.length, h'.length]
  same := fun hk => by rw [h.same hk, h'.same hk]

theorem flatMap {g g' : Value → List Value} (h : ∀ z ∈ zs, NotedAlike k (g z) (g' z)) :
    NotedAlike k (zs.flatMap g) (zs.flatMap g') := by
  induction zs with
  | nil => exact .refl
  | cons z zs ih => exact (h z (by simp)).append (ih fun y hy => h y (by simp [hy]))

end NotedAlike

theorem valuesAt_append {zs ws : List Visit} :
    Visit.valuesAt c (zs ++ ws) = Visit.valuesAt c zs ++ Visit.valuesAt c ws := by
  rw [Visit.valuesAt, List.filter_append, List.map_append]
  rfl

theorem valuesAt_flatMap {g : Value → List Visit} :
    Visit.valuesAt c (zs.flatMap g) = zs.flatMap fun z => Visit.valuesAt c (g z) := by
  induction zs with
  | nil => rfl
  | cons z zs ih => rw [List.flatMap_cons, List.flatMap_cons, valuesAt_append, ih]

theorem visits_of_stateless (hf : f.Formed) (hs : f.stateful = false) : f.visits s v = [] := by
  refine List.eq_nil_iff_forall_not_mem.mpr fun x hx => ?_
  obtain ⟨n, hn, ha, -⟩ := advances_of_visits hx
  rcases ha with hk | hk <;> cases kind_of_stateless hf hs n hn _ hk

/-! ## Passing -/

/-- Whether nodes may be used in a store on values in a region, which is in it as it is in another. -/
structure Reading (R : Set Place) (ns : List Fact) (s t : Store) : Prop where
  region : s.Region R
  owned : s.Owned
  sheltered : Sheltered R ns t
  same : ∀ l, Place.object l ∈ R → t.get? l = s.get? l
  given : t.given = s.given

theorem Reading.image (h : Reading R ns s t) : Store.Image ⟨id, id⟩ R True s t :=
  .of_same h.region h.owned h.same h.given

theorem Reading.visits (h : Reading R ns s t) {zs : List Visit} (hzs : VisitsOf ns zs) :
    Reading R ns s (zs.foldl Store.advance t) := by
  obtain ⟨hsheltered, hmoved⟩ := h.sheltered.foldl_advance hzs
  exact ⟨h.region, h.owned, hsheltered,
    fun l hl => (hmoved.same l fun hmem => h.sheltered.apart l hmem hl).trans (h.same l hl),
    hmoved.given.trans h.given⟩

/-- Whether a fact passes a value in some store in which it reads what it reads in another. -/
structure Passing (R : Set Place) (ns : List Fact) (s : Store) (f : Fact) (v : Value) : Prop where
  formed : f.Formed
  nodes : ∀ n ∈ f.nodes, n ∈ ns
  reads : f.ReadsIn R
  within : v.Within R
  passes : ∃ w u r, Reading R ns s w.store ∧ exec (f.check v) w = (.ok r, u) ∧ r.ok = true

/-- After a check what is read is what it was. -/
theorem Reading.check {r : Report} (h : Reading R ns s w.store) (hf : f.Formed) (hn : ∀ n ∈ f.nodes, n ∈ ns)
    (ha : f.ReadsIn R) (hv : v.Within R) (hrun : exec (f.check v) w = (.ok r, w')) : Reading R ns s w'.store := by
  obtain rfl := notes_check h.sheltered hf hn ha hv w w' r h.sheltered .refl hrun
  exact h.visits (visitsOf_visits hn)

theorem passing_checkAll : ∀ {fs : List Fact} {i : Nat} {w w' : World} {rs : List Report},
    Reading R ns s w.store → FormedAll fs → (∀ n ∈ nodesAll fs, n ∈ ns) →
    (∀ n ∈ nodesAll fs, ∀ a ∈ n.accessor?, a.ReadsIn R) → v.Within R → exec (checkAll fs i v) w = (.ok rs, w') →
    (Report.combine rs).ok = true → ∀ f ∈ fs, Passing R ns s f v := by
  intro fs
  induction fs with
  | nil => exact fun _ _ _ _ _ _ _ f hf => absurd hf List.not_mem_nil
  | cons g fs ih =>
    intro i w w' rs h hf hn ha hv hrun hok
    obtain ⟨r, u, hcheck, hrest⟩ := exec_bind_ok hrun
    obtain ⟨rs', u', hchecks, hend⟩ := exec_bind_ok hrest
    cases hend
    rw [Report.combine_cons, Report.ok_append, Bool.and_eq_true] at hok
    obtain ⟨hhead, htail⟩ := hok
    have hok : r.ok = true := by
      split at hhead
      · rwa [Report.ok_under] at hhead
      · exact hhead
    have hnodes : ∀ n ∈ g.nodes, n ∈ ns := fun n hmem => hn n (List.mem_append_left _ hmem)
    have hreads : g.ReadsIn R := fun n hmem => ha n (List.mem_append_left _ hmem)
    intro f hmem
    rcases List.mem_cons.mp hmem with rfl | hmem
    · exact ⟨hf.1, hnodes, hreads, hv, w, u, r, h, hcheck, hok⟩
    · exact ih (h.check hf.1 hnodes hreads hv hcheck) hf.2 (fun n hmem => hn n (List.mem_append_right _ hmem))
        (fun n hmem => ha n (List.mem_append_right _ hmem)) hv hchecks htail f hmem

theorem passing_checkElements (hf : f.Formed) (hn : ∀ n ∈ f.nodes, n ∈ ns) (ha : f.ReadsIn R) :
    ∀ {xs : List Value} {i : Nat} {w w' : World} {rs : List Report}, Reading R ns s w.store →
    (∀ x ∈ xs, x.Within R) → exec (checkElements f.check i xs) w = (.ok rs, w') →
    (Report.combine rs).ok = true → ∀ x ∈ xs, Passing R ns s f x := by
  intro xs
  induction xs with
  | nil => exact fun _ _ _ _ x hx => absurd hx List.not_mem_nil
  | cons y xs ih =>
    intro i w w' rs h hv hrun hok
    obtain ⟨r, u, hcheck, hrest⟩ := exec_bind_ok hrun
    obtain ⟨rs', u', hchecks, hend⟩ := exec_bind_ok hrest
    cases hend
    rw [Report.combine_cons, Report.ok_append, Bool.and_eq_true, Report.ok_under] at hok
    obtain ⟨hok, htail⟩ := hok
    intro x hmem
    rcases List.mem_cons.mp hmem with rfl | hmem
    · exact ⟨hf, hn, ha, hv x (by simp), w, u, r, h, hcheck, hok⟩
    · exact ih (h.check hf hn ha (hv y (by simp)) hcheck) (fun z hz => hv z (by simp [hz])) hchecks htail x hmem

namespace Passing

variable {a : Accessor} {name : String} {n : Int} {b : Bool}

theorem labeled (h : Passing R ns s (.labeled c name f b) v) : Passing R ns s f v := by
  obtain ⟨hf, hn, ha, hv, w, u, r, hread, hrun, hok⟩ := h
  obtain ⟨r', u', hcheck, hend⟩ := exec_bind_ok hrun
  cases hend
  rw [Report.ok_under] at hok
  exact ⟨hf.2, fun n hmem => hn n (.tail _ hmem), fun n hmem => ha n (.tail _ hmem), hv, w, _, r', hread, hcheck, hok⟩

theorem members (h : Passing R ns s (.all c fs n b) v) : ∀ f ∈ fs, Passing R ns s f v := by
  obtain ⟨hf, hn, ha, hv, w, u, r, hread, hrun, hok⟩ := h
  obtain ⟨rs, u', hchecks, hend⟩ := exec_bind_ok hrun
  cases hend
  exact passing_checkAll hread hf.2 (fun n hmem => hn n (.tail _ hmem)) (fun n hmem => ha n (.tail _ hmem)) hv
    hchecks hok

/-- A lens that passes has found its part. -/
theorem lens (h : Passing R ns s (.lens c a f b) v) : ∃ x, a.get s v = .ok x ∧ Passing R ns s f x := by
  obtain ⟨hf, hn, ha, hv, w, u, r, hread, hrun, hok⟩ := h
  have hreads := ha _ (self_mem_nodes _) a rfl
  obtain ⟨o, u', hpart, hrest⟩ := exec_bind_ok hrun
  obtain rfl := quiet_part?.eq_of_exec hpart
  rcases exec_part? hpart with ⟨x, rfl, hx⟩ | ⟨rfl, -⟩
  · rw [hread.image.get_same hreads hv] at hx
    obtain ⟨r', u', hcheck, hend⟩ := exec_bind_ok hrest
    cases hend
    rw [Report.ok_under] at hok
    exact ⟨x, hx, hf.2, fun n hmem => hn n (.tail _ hmem), fun n hmem => ha n (.tail _ hmem),
      hreads.within hread.region.closed hread.owned hv hx, _, _, r', hread, hcheck, hok⟩
  · cases hrest
    rw [Report.ok_under] at hok
    cases hok

theorem prism (h : Passing R ns s (.prism c a f b) v) (hx : a.used? true s v = some x) : Passing R ns s f x := by
  obtain ⟨hf, hn, ha, hv, w, u, r, hread, hrun, hok⟩ := h
  obtain ⟨hx, hpresent⟩ := used?_eq_some.mp hx
  have hreads := ha _ (self_mem_nodes _) a rfl
  obtain ⟨o, u', hpart, hrest⟩ := exec_bind_ok hrun
  obtain rfl := quiet_part?.eq_of_exec hpart
  rcases exec_part? hpart with ⟨y, rfl, hy⟩ | ⟨-, e, he, -⟩
  · rw [hread.image.get_same hreads hv, hx] at hy
    cases hy
    change exec (if x.isAbsent then return .pass else return (← f.check x).under (prismTag a)) _ = _ at hrest
    rw [hpresent rfl, if_neg Bool.false_ne_true] at hrest
    obtain ⟨r', u', hcheck, hend⟩ := exec_bind_ok hrest
    cases hend
    rw [Report.ok_under] at hok
    exact ⟨hf.2, fun n hmem => hn n (.tail _ hmem), fun n hmem => ha n (.tail _ hmem),
      hreads.within hread.region.closed hread.owned hv hx, _, _, r', hread, hcheck, hok⟩
  · rw [hread.image.get_same hreads hv, hx] at he
    cases he

theorem each (h : Passing R ns s (.each c f b) v) (hxs : s.elements? v = some xs) : ∀ x ∈ xs, Passing R ns s f x := by
  obtain ⟨hf, hn, ha, hv, w, u, r, hread, hrun, hok⟩ := h
  obtain ⟨ys, u', helements, hrest⟩ := exec_bind_ok hrun
  obtain rfl := quiet_elements.eq_of_exec helements
  have hsame := exec_elements helements
  rw [hread.image.elements?_same hv, hxs] at hsame
  cases hsame
  obtain ⟨rs, u', hchecks, hend⟩ := exec_bind_ok hrest
  cases hend
  exact passing_checkElements hf.2 (fun n hmem => hn n (.tail _ hmem)) (fun n hmem => ha n (.tail _ hmem)) hread
    (Store.elements?_within hread.region.closed hv hxs) hchecks hok

end Passing

/-! ## What is visited -/

theorem length_visitsAll (h : ∀ f ∈ fs, (Visit.valuesAt c (f.visits s v)).length = f.rate c) :
    (Visit.valuesAt c (visitsAll s fs v)).length = rateAll c fs := by
  induction fs with
  | nil => rfl
  | cons f fs ih =>
    rw [visitsAll, rateAll, valuesAt_append, List.length_append, h f (by simp), ih fun g hg => h g (by simp [hg])]

theorem alike_visitsAll (h : ∀ f ∈ fs, NotedAlike k (Visit.valuesAt c (f.visits s v)) (f.watched s c v)) :
    NotedAlike k (Visit.valuesAt c (visitsAll s fs v)) (watchedAll s c fs v) := by
  induction fs with
  | nil => exact .refl
  | cons f fs ih =>
    rw [visitsAll, watchedAll, valuesAt_append]
    exact (h f (by simp)).append (ih fun g hg => h g (by simp [hg]))

/-- A fact that is followed as a whole uses a counter a fixed number of times when it passes. -/
theorem Tallied.length_visits (h : f.Tallied) : ∀ {v : Value}, Passing R ns s f v →
    (Visit.valuesAt c (f.visits s v)).length = f.rate c := by
  induction h with
  | still hs =>
    intro v hpass
    have hrate := rate_eq_zero (c := c) fun n hn _ hk => by cases kind_of_stateless hpass.formed hs n hn _ hk
    rw [visits_of_stateless hpass.formed hs, hrate]
    rfl
  | counter =>
    intro v _
    rw [visits, rate, Visit.valuesAt_cons, Visit.valuesAt_nil, List.append_nil]
    split <;> rfl
  | labeled _ ih =>
    intro v hpass
    rw [visits, rate]
    exact ih hpass.labeled
  | lens _ ih =>
    intro v hpass
    obtain ⟨x, hx, hpass⟩ := hpass.lens
    simp only [visits, rate, hx]
    exact ih hpass
  | all _ ih =>
    intro v hpass
    rw [visits, rate]
    exact length_visitsAll fun f hf => ih f hf (hpass.members f hf)

section

variable (hkind : ∀ n ∈ f.nodes, n.cell = c → n.kind? = some k)

include hkind

theorem Tallied.alike_visits (h : f.Tallied) (hpass : Passing R ns s f v) :
    NotedAlike k (Visit.valuesAt c (f.visits s v)) (List.replicate (f.rate c) x) := by
  have hlength : (Visit.valuesAt c (f.visits s v)).length = f.rate c := h.length_visits hpass
  refine ⟨by rw [hlength, List.length_replicate], fun hk => ?_⟩
  have hrate : f.rate c = 0 := rate_eq_zero fun n hn hc hcounter => hk <| by
    rw [hkind n hn hc] at hcounter
    exact Option.some.inj hcounter
  rw [hrate] at hlength ⊢
  exact List.length_eq_zero_iff.mp hlength

end

/-- A lens uses the fact that it leads to on the parts of a value, and so do facts like it. -/
theorem Over.visits_eq {g : Fact} (h : Over g f) (hdivides : g.Divides s v) :
    g.visits s v = (g.pieces s v).flatMap fun x => f.visits s x := by
  cases h with
  | @lens _ a =>
    rw [visits, pieces, Accessor.used?]
    cases a.get s v with
    | error e => rfl
    | ok x => exact (List.flatMap_singleton _ x).symm
  | @prism _ a =>
    rw [visits, pieces, Accessor.used?]
    cases a.get s v with
    | error e => rfl
    | ok x =>
      dsimp only
      rw [Bool.true_and]
      cases x.isAbsent with
      | true => rfl
      | false => exact (List.flatMap_singleton _ x).symm
  | each =>
    obtain ⟨xs, hxs⟩ := Option.isSome_iff_exists.mp hdivides
    rw [visits, pieces, Store.elements?_of_row? hxs, hxs]

theorem Passing.piece {g : Fact} (h : Passing R ns s g v) (hover : Over g f) (hx : x ∈ g.pieces s v) :
    Passing R ns s f x := by
  cases hover with
  | lens =>
    rw [pieces, Option.mem_toList, used?_eq_some] at hx
    obtain ⟨y, hy, hpass⟩ := h.lens
    rw [hx.1] at hy
    cases hy
    exact hpass
  | prism =>
    rw [pieces, Option.mem_toList] at hx
    exact h.prism hx
  | each =>
    rw [pieces] at hx
    cases hxs : s.row? v with
    | none => rw [hxs] at hx; cases hx
    | some xs =>
      rw [hxs] at hx
      exact h.each (Store.elements?_of_row? hxs) x hx

/-- What is below is used on the parts as they are seen. -/
theorem Tracked.alike_over {g : Fact} (h : g.Tracked) (hover : Over g f)
    (hkind : ∀ n ∈ f.nodes, n.cell = c → n.kind? = some k) (hlaid : g.Laid s X v) (hpass : Passing R ns s g v)
    (ih : f.piecewise = true → ∀ x, f.Laid s X x → Passing R ns s f x →
      NotedAlike k (Visit.valuesAt c (f.visits s x)) (f.watched s c x)) :
    NotedAlike k (Visit.valuesAt c (g.visits s v)) (g.watched s c v) := by
  obtain ⟨⟨-, hdivides⟩, hpieces, -⟩ := hover.laid_iff.mp hlaid
  rw [hover.watched_eq, hover.visits_eq hdivides, valuesAt_flatMap]
  refine .flatMap fun x hx => ?_
  have hpiece := hpass.piece hover hx
  rw [noticed, watchedAll_singleton, rateAll_singleton]
  cases hp : f.piecewise with
  | true => exact ih hp x ((rests_singleton.mp (hpieces x hx).1).1 hp) hpiece
  | false => exact ((h.inner hover).tallied hp f (List.mem_singleton_self f)).alike_visits hkind hpiece

/-- What a fact that is followed piece by piece is used on is what it sees, when it passes. -/
theorem Tracked.alike_visits (h : f.Tracked) : ∀ {v : Value}, (∀ n ∈ f.nodes, n.cell = c → n.kind? = some k) →
    f.Laid s X v → Passing R ns s f v → NotedAlike k (Visit.valuesAt c (f.visits s v)) (f.watched s c v) := by
  have htail : ∀ {f g : Fact}, Over g f → (∀ n ∈ g.nodes, n.cell = c → n.kind? = some k) →
      ∀ n ∈ f.nodes, n.cell = c → n.kind? = some k := fun hover hkind n hn => hkind n (by
    cases hover <;> exact .tail _ hn)
  induction h with
  | counter | distinct =>
    intro v _ _ _
    rw [visits, watched, Visit.valuesAt_cons, Visit.valuesAt_nil, List.append_nil]
    exact .refl
  | labeled _ ih =>
    intro v hkind hlaid hpass
    rw [visits, watched]
    exact ih (fun n hn => hkind n (.tail _ hn)) (laid_labeled.mp hlaid) hpass.labeled
  | lens ha htracked htallied ih =>
    intro v hkind hlaid hpass
    exact (Tracked.lens ha htracked htallied).alike_over .lens (htail .lens hkind) hlaid hpass
      fun hp x => ih hp (htail .lens hkind)
  | prism ha htracked hstill ih =>
    intro v hkind hlaid hpass
    exact (Tracked.prism ha htracked hstill).alike_over .prism (htail .prism hkind) hlaid hpass
      fun hp x => ih hp (htail .prism hkind)
  | each htracked htallied ih =>
    intro v hkind hlaid hpass
    exact (Tracked.each htracked htallied).alike_over .each (htail .each hkind) hlaid hpass
      fun hp x => ih hp (htail .each hkind)
  | @all d fs n hap _ ih =>
    intro v hkind hlaid hpass
    rw [Laid] at hlaid
    rw [visits, watched]
    refine alike_visitsAll fun f hf => ih f hf (fun n hn => hkind n ?_) (laid_of_mem hlaid.2 hf) (hpass.members f hf)
    exact .tail _ (mem_nodesAll_of_mem hf hn)

/-- What facts that are followed in either way are used on is noted as what they see is, when they pass. -/
theorem Followed.alike_visits (h : Followed p [f]) (hkind : ∀ n ∈ f.nodes, n.cell = c → n.kind? = some k)
    (hlaid : p = true → f.Laid s X v) (hpass : Passing R ns s f v) :
    NotedAlike k (Visit.valuesAt c (f.visits s v)) (noticed s p c [f] v) := by
  obtain ⟨htracked, htallied⟩ := followed_singleton.mp h
  rw [noticed, watchedAll_singleton, rateAll_singleton]
  cases p with
  | true => exact (htracked rfl).alike_visits hkind (hlaid rfl) hpass
  | false => exact (htallied rfl).alike_visits hkind hpass

end Fact

end Conform
