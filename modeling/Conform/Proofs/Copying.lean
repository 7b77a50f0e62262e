import Mathlib.Data.List.Perm.Subperm
import Conform.Fact.Copy
import Conform.Proofs.Arena

/-!
# Copies

`Store.reachable` finds everything that can be reached from some places: what it finds is closed under
following references (`reachable_closed`). So the objects that `Store.copy` adds refer to one another and
to nothing that is there already. A copy therefore lies in any arena whose values may name what attributes
are given to.
-/

namespace Conform

/-! ## Walking the store -/

namespace Store

variable {s : Store}

/-- What a walk that has met `seen` adds to it: allocated places, and with each of them all places that
its object refers to. -/
structure Walked (s : Store) (seen out : List Loc) : Prop where
  sub : ∀ m ∈ seen, m ∈ out
  nodup : out.Nodup
  bounded : ∀ m ∈ out, m < s.size
  long : seen.length ≤ out.length
  closed : ∀ m ∈ out, m ∉ seen → ∀ o, s.get? m = some o → ∀ r ∈ o.refs, r < s.size → r ∈ out

theorem Walked.refl {seen : List Loc} (hn : seen.Nodup) (hb : ∀ m ∈ seen, m < s.size) :
    s.Walked seen seen :=
  ⟨fun _ h => h, hn, hb, Nat.le_refl _, fun _ h hn => absurd h hn⟩

theorem Walked.trans {seen mid out : List Loc} (h : s.Walked seen mid) (k : s.Walked mid out) :
    s.Walked seen out where
  sub := fun m hm => k.sub m (h.sub m hm)
  nodup := k.nodup
  bounded := k.bounded
  long := Nat.le_trans h.long k.long
  closed := by
    intro m hm hseen o ho r hr hlt
    by_cases hmid : m ∈ mid
    · exact k.sub r (h.closed m hmid hseen o ho r hr hlt)
    · exact k.closed m hm hmid o ho r hr hlt

theorem length_le_size {seen : List Loc} (hn : seen.Nodup) (hb : ∀ m ∈ seen, m < s.size) :
    seen.length ≤ s.size := by
  have hsub : seen ⊆ List.range s.size := fun m hm => List.mem_range.mpr (hb m hm)
  simpa using (hn.subperm hsub).length_le

/-- Steps of a walk, one for each of several places. -/
theorem walked_foldl {step : List Loc → Loc → List Loc} {n : Nat}
    (hstep : ∀ seen l, seen.Nodup → (∀ m ∈ seen, m < s.size) → n ≤ seen.length →
      s.Walked seen (step seen l) ∧ (l < s.size → l ∈ step seen l)) :
    ∀ (ls : List Loc) (seen : List Loc), seen.Nodup → (∀ m ∈ seen, m < s.size) → n ≤ seen.length →
      s.Walked seen (ls.foldl step seen) ∧ ∀ l ∈ ls, l < s.size → l ∈ ls.foldl step seen := by
  intro ls
  induction ls with
  | nil =>
    intro seen hn hb _
    exact ⟨Walked.refl hn hb, nofun⟩
  | cons l ls ih =>
    intro seen hn hb hlen
    obtain ⟨hfirst, hl⟩ := hstep seen l hn hb hlen
    obtain ⟨hrest, hls⟩ := ih _ hfirst.nodup hfirst.bounded (Nat.le_trans hlen hfirst.long)
    refine ⟨hfirst.trans hrest, ?_⟩
    intro m hm hlt
    rcases List.mem_cons.mp hm with rfl | hm
    · exact hrest.sub m (hl hlt)
    · exact hls m hm hlt

/-- With enough fuel for the places that are left, a walk meets its place and all that follows. -/
theorem visit_walked (fuel : Nat) : ∀ (seen : List Loc) (l : Loc), seen.Nodup →
    (∀ m ∈ seen, m < s.size) → s.size + 1 - fuel ≤ seen.length →
    s.Walked seen (s.visit fuel seen l) ∧ (l < s.size → l ∈ s.visit fuel seen l) := by
  induction fuel with
  | zero =>
    intro seen l hn hb hlen
    have hle := length_le_size hn hb
    exact absurd hlen (by omega)
  | succ fuel ih =>
    intro seen l hn hb hlen
    rw [visit]
    split
    · next hseen => exact ⟨Walked.refl hn hb, fun _ => List.contains_iff_mem.mp hseen⟩
    · next hseen =>
      have hnot : l ∉ seen := fun h => hseen (List.contains_iff_mem.mpr h)
      split
      · next hget =>
        refine ⟨Walked.refl hn hb, fun hlt => ?_⟩
        obtain ⟨o, ho⟩ := exists_get? hlt
        simp [hget] at ho
      · next o hget =>
        have hlt := lt_size_of_get? hget
        have hn' : (l :: seen).Nodup := List.nodup_cons.mpr ⟨hnot, hn⟩
        have hb' : ∀ m ∈ l :: seen, m < s.size := by
          intro m hm
          rcases List.mem_cons.mp hm with rfl | hm
          · exact hlt
          · exact hb m hm
        have hlen' : s.size + 1 - fuel ≤ (l :: seen).length := by
          rw [List.length_cons]
          omega
        obtain ⟨hw, hrefs⟩ := walked_foldl ih o.refs (l :: seen) hn' hb' hlen'
        have hl := hw.sub l (by simp)
        refine ⟨⟨fun m hm => hw.sub m (by simp [hm]), hw.nodup, hw.bounded, ?_, ?_⟩, fun _ => hl⟩
        · have := hw.long
          rw [List.length_cons] at this
          omega
        · intro m hm hm' o' ho' r hr hrlt
          by_cases hml : m = l
          · subst hml
            rw [hget] at ho'
            cases ho'
            exact hrefs r hr hrlt
          · exact hw.closed m hm (by simp [hml, hm']) o' ho' r hr hrlt

theorem reachable_walked (s : Store) (roots : List Loc) :
    s.Walked [] (s.reachable roots) ∧ ∀ l ∈ roots, l < s.size → l ∈ s.reachable roots := by
  refine walked_foldl (visit_walked (s.objects.size + 1)) roots [] List.nodup_nil nofun ?_
  show s.objects.size + 1 - (s.objects.size + 1) ≤ 0
  omega

theorem mem_reachable_root {roots : List Loc} {l : Loc} (hl : l ∈ roots) (hlt : l < s.size) :
    l ∈ s.reachable roots :=
  (reachable_walked s roots).2 l hl hlt

theorem lt_of_mem_reachable {roots : List Loc} {l : Loc} (hl : l ∈ s.reachable roots) : l < s.size :=
  (reachable_walked s roots).1.bounded l hl

/-- What an object found refers to is found, if anything is there. -/
theorem reachable_closed {roots : List Loc} {l r : Loc} {o : Object} (hl : l ∈ s.reachable roots)
    (ho : s.get? l = some o) (hr : r ∈ o.refs) (hlt : r < s.size) : r ∈ s.reachable roots :=
  (reachable_walked s roots).1.closed l hl (by simp) o ho r hr hlt

/-- What is reached is all that is found: a set that holds the roots and, with an object, all it refers
to holds everything found. -/
theorem reachable_subset {roots : List Loc} {R : Loc → Prop} (hroots : ∀ l ∈ roots, R l)
    (hR : ∀ l o, R l → s.get? l = some o → ∀ r ∈ o.refs, R r) : ∀ l ∈ s.reachable roots, R l := by
  have hfold : ∀ {step : List Loc → Loc → List Loc},
      (∀ seen l, (∀ m ∈ seen, R m) → R l → ∀ m ∈ step seen l, R m) →
      ∀ (ls seen : List Loc), (∀ m ∈ seen, R m) → (∀ l ∈ ls, R l) → ∀ m ∈ ls.foldl step seen, R m := by
    intro step hstep ls
    induction ls with
    | nil =>
      intro seen hseen _
      exact hseen
    | cons l ls ih =>
      intro seen hseen hls
      exact ih _ (hstep seen l hseen (hls l (by simp))) fun m hm => hls m (by simp [hm])
  have hvisit : ∀ (fuel : Nat) (seen : List Loc) (l : Loc), (∀ m ∈ seen, R m) → R l →
      ∀ m ∈ s.visit fuel seen l, R m := by
    intro fuel
    induction fuel with
    | zero =>
      intro seen l hseen _
      exact hseen
    | succ fuel ih =>
      intro seen l hseen hl
      rw [visit]
      split
      · exact hseen
      · split
        · exact hseen
        · next o hget =>
          refine hfold ih o.refs (l :: seen) ?_ (hR l o hl hget)
          intro m hm
          rcases List.mem_cons.mp hm with rfl | hm
          · exact hl
          · exact hseen m hm
  exact hfold (hvisit _) roots [] nofun hroots

end Store

/-! ## Moving values -/

namespace Value

variable {r : Relocation} {R : Set Place}

theorem moveAll_eq_map {xs : List Value} : moveAll r xs = xs.map (move r) := by
  induction xs with
  | nil => rfl
  | cons x xs ih => rw [moveAll, ih, List.map_cons]

/-- Only references become references. -/
theorem eq_ref_of_move {v : Value} {m : Loc} (h : v.move r = .ref m) :
    ∃ l, v = .ref l ∧ m = r.place l := by
  cases v with
  | ref l =>
    cases h
    exact ⟨l, rfl, rfl⟩
  | atom a => cases a <;> cases h
  | _ => cases h

mutual

/-- Moving a value moves the objects it refers to, and nothing else that it names. -/
theorem within_move : ∀ v : Value, (∀ l ∈ v.refs, Place.object (r.place l) ∈ R) →
    (∀ o, Place.attributes o ∈ v.places → Place.attributes o ∈ R) → (v.move r).Within R
  | .atom a, _, ho => by
    cases a with
    | absent m => exact within_plain rfl
    | _ => exact within_atom.mpr fun o h => ho o (by simp [places, Atom.places, h])
  | .tuple cls xs, hl, ho => within_tuple.mpr (within_moveAll xs hl ho)
  | .set xs, hl, ho => within_set.mpr (within_moveAll xs hl ho)
  | .frozen cls xs, hl, ho => by
    refine within_frozen.mpr ⟨?_, within_moveAll xs hl fun o h => ho o ?_⟩
    · intro p hp
      cases p with
      | object l => simp [RecordClass.places, Atom.places] at hp
      | attributes o => exact ho o (List.mem_append_left _ hp)
    · exact List.mem_append_right _ h
  | .ref l, hl, _ => within_ref.mpr (hl l (by simp [refs]))

theorem within_moveAll : ∀ xs : List Value, (∀ l ∈ refsAll xs, Place.object (r.place l) ∈ R) →
    (∀ o, Place.attributes o ∈ placesAll xs → Place.attributes o ∈ R) →
    ∀ x ∈ moveAll r xs, x.Within R
  | [], _, _ => nofun
  | x :: xs, hl, ho => by
    have hx := within_move x (fun l h => hl l (by simp [refsAll, h]))
      fun o h => ho o (by simp [placesAll, h])
    have hxs := within_moveAll xs (fun l h => hl l (by simp [refsAll, h]))
      fun o h => ho o (by simp [placesAll, h])
    intro y hy
    rcases List.mem_cons.mp hy with rfl | hy
    · exact hx
    · exact hxs y hy

end

end Value

namespace Object

variable {r : Relocation} {R : Set Place}

theorem values_move (o : Object) : (o.move r).values = o.values.map (Value.move r) := by
  cases o with
  | list xs => exact Value.moveAll_eq_map
  | slots xs => exact Value.moveAll_eq_map
  | mapping es => simp [move, values, List.flatMap_map, List.map_flatMap]
  | record cls xs extras =>
    simp only [move, values, Value.moveAll_eq_map, List.map_append, List.map_map]
    rfl

/-- Moving an object moves the objects it refers to, and nothing else that it names. -/
theorem within_move {o : Object} (hl : ∀ l ∈ o.refs, Place.object (r.place l) ∈ R)
    (ho : ∀ w, Place.attributes w ∈ o.places → Place.attributes w ∈ R) : (o.move r).Within R := by
  have hvalue : ∀ v ∈ o.values, (v.move r).Within R := by
    intro v hv
    refine Value.within_move v (fun l h => hl l (Value.mem_refsAll.mpr ⟨v, hv, h⟩)) fun w h => ho w ?_
    exact List.mem_append_left _ (Value.mem_placesAll.mpr ⟨v, hv, h⟩)
  intro p hp
  rcases List.mem_append.mp hp with hp | hp
  · obtain ⟨x, hx, hp⟩ := Value.mem_placesAll.mp hp
    rw [values_move] at hx
    obtain ⟨v, hv, rfl⟩ := List.mem_map.mp hx
    exact hvalue v hv p hp
  · cases o with
    | record cls xs extras =>
      cases p with
      | object l => simp [move, RecordClass.places, Atom.places] at hp
      | attributes w => exact ho w (List.mem_append_right _ hp)
    | _ => cases hp

end Object

/-! ## The copy -/

namespace Store

variable {s : Store} {roots : List Loc}

theorem renumber_of_not_mem {listed : List Nat} {base n : Nat} (h : n ∉ listed) :
    renumber listed base n = n := by
  rw [renumber, List.idxOf?_eq_none_iff.mpr h]

theorem renumber_of_mem {listed : List Nat} {n : Nat} (base : Nat) (h : n ∈ listed) :
    ∃ i, listed[i]? = some n ∧ renumber listed base n = base + i := by
  cases hi : listed.idxOf? n with
  | none => exact absurd h (List.idxOf?_eq_none_iff.mp hi)
  | some i =>
    obtain ⟨hlt, heq, -⟩ := List.idxOf?_eq_some_iff.mp hi
    exact ⟨i, by simp [heq, hlt], by rw [renumber, hi]⟩

/-- A copy puts what it finds at new places. -/
theorem size_le_copy_place {l : Loc} (h : l ∈ s.reachable roots) :
    s.size ≤ (s.copy roots).1.place l := by
  obtain ⟨i, -, hi⟩ := renumber_of_mem s.objects.size h
  show s.objects.size ≤ renumber (s.reachable roots) s.objects.size l
  rw [hi]
  exact Nat.le_add_right _ _

theorem copy_place_of_not_mem {l : Loc} (h : l ∉ s.reachable roots) :
    (s.copy roots).1.place l = l :=
  renumber_of_not_mem h

@[simp] theorem given_copy : (s.copy roots).2.given = s.given := rfl

theorem size_copy : (s.copy roots).2.size = s.size + (s.reachable roots).length := by
  simp [copy, size]

theorem get?_copy_of_lt {l : Loc} (h : l < s.size) : (s.copy roots).2.get? l = s.get? l := by
  have hlt : l < s.objects.size := h
  simp [copy, get?, Array.getElem?_append, hlt]

/-- The copy of an object is the object with all its references moved. -/
theorem get?_copy_place {l : Loc} (h : l ∈ s.reachable roots) :
    (s.copy roots).2.get? ((s.copy roots).1.place l) = (s.get? l).map (Object.move (s.copy roots).1) := by
  obtain ⟨i, hi, hplace⟩ := renumber_of_mem s.objects.size h
  have hp : (s.copy roots).1.place l = s.objects.size + i := hplace
  obtain ⟨o, ho⟩ := exists_get? (lt_of_mem_reachable h)
  rw [hp, ho]
  simp only [copy, get?, Array.getElem?_append]
  have hget : s.objects[l]? = some o := ho
  simp [hi, hget]

/-- Every object that a copy adds is the copy of one found. -/
theorem exists_of_size_le {m : Loc} {o : Object} (hm : s.size ≤ m)
    (h : (s.copy roots).2.get? m = some o) :
    ∃ l ∈ s.reachable roots, ∃ o', s.get? l = some o' ∧ o = o'.move (s.copy roots).1 := by
  have hlt := lt_size_of_get? h
  rw [size_copy] at hlt
  have hi : m - s.size < (s.reachable roots).length := Nat.sub_lt_left_of_lt_add hm hlt
  refine ⟨(s.reachable roots)[m - s.size], List.getElem_mem hi, ?_⟩
  obtain ⟨o', ho'⟩ := exists_get? (lt_of_mem_reachable (List.getElem_mem hi))
  refine ⟨o', ho', ?_⟩
  have hge : ¬ m < s.objects.size := Nat.not_lt.mpr hm
  simp only [copy, get?, Array.getElem?_append, hge, if_false] at h
  have hget : s.objects[(s.reachable roots)[m - s.size]]? = some o' := ho'
  have hi' : m - s.objects.size < (s.reachable roots).length := hi
  simp only [List.getElem?_toArray, List.getElem?_map, List.getElem?_eq_getElem hi',
    Option.map_some, Option.some.injEq] at h
  rw [← h]
  have hsize : s.size = s.objects.size := rfl
  simp only [hsize] at hget
  simp [hget]
  rfl

end Store

namespace Arena

variable {A : Arena} {s : Store} {roots : List Loc}

/-- Whether a copy may name what attributes are given to. -/
def TakesCopies (A : Arena) : Prop := ∀ o, Place.attributes o ∈ A.values

/-- Whether all that objects name and attributes are given to lies among the values, so that copies of objects do. -/
def Copyable (A : Arena) : Prop := ∀ s, A.Holds s → ∀ l o, s.get? l = some o →
  ∀ w, Place.attributes w ∈ o.places → Place.attributes w ∈ A.values

theorem TakesCopies.copyable (h : A.TakesCopies) : A.Copyable := fun _ _ _ _ _ w _ => h w

/-- Whether a place is one that values lie in and that may be written to. -/
def Free (A : Arena) (l : Loc) : Prop := Place.object l ∈ A.writable ∧ Place.object l ∈ A.values

/-- Where a copy is made, its places are free: those it moves and those where nothing is. -/
theorem Holds.copy_place (h : A.Holds s) {l : Loc} (hl : l ∈ roots) :
    A.Free ((s.copy roots).1.place l) := by
  by_cases hmem : l ∈ s.reachable roots
  · exact h.fresh _ (Store.size_le_copy_place hmem)
  · rw [Store.copy_place_of_not_mem hmem]
    refine h.fresh l (Nat.not_lt.mp fun hlt => ?_)
    exact hmem (Store.mem_reachable_root hl hlt)

/-- The copy of an object names values, and refers to free places. -/
theorem Holds.copy_object (h : A.Holds s) (hA : A.Copyable) {m : Loc} {o : Object}
    (hm : s.size ≤ m) (ho : (s.copy roots).2.get? m = some o) :
    o.Within A.values ∧ ∀ r, Value.ref r ∈ o.values → A.Free r := by
  obtain ⟨l, hl, o', ho', rfl⟩ := Store.exists_of_size_le hm ho
  have hfree : ∀ r ∈ o'.refs, A.Free ((s.copy roots).1.place r) := by
    intro r hr
    by_cases hmem : r ∈ s.reachable roots
    · exact h.fresh _ (Store.size_le_copy_place hmem)
    · rw [Store.copy_place_of_not_mem hmem]
      refine h.fresh r (Nat.not_lt.mp fun hlt => ?_)
      exact hmem (Store.reachable_closed hl ho' hr hlt)
  refine ⟨Object.within_move (fun r hr => (hfree r hr).2) (hA s h l o' ho'), ?_⟩
  intro r hr
  rw [Object.values_move] at hr
  obtain ⟨v, hv, heq⟩ := List.mem_map.mp hr
  obtain ⟨r', rfl, rfl⟩ := Value.eq_ref_of_move heq
  exact hfree r' (Value.mem_refsAll.mpr ⟨_, hv, by simp [Value.refs]⟩)

theorem Holds.copy (h : A.Holds s) (hA : A.Copyable) : A.Holds (s.copy roots).2 where
  closed := by
    intro p hp q hq
    cases p with
    | attributes o => exact h.closed _ hp q hq
    | object m =>
      obtain ⟨o, ho, hq⟩ := hq
      by_cases hm : m < s.size
      · rw [Store.get?_copy_of_lt hm] at ho
        exact h.closed _ hp q ⟨o, ho, hq⟩
      · exact (h.copy_object hA (Nat.not_lt.mp hm) ho).1 q hq
  slots := by
    intro m vs hw ho
    by_cases hm : m < s.size
    · rw [Store.get?_copy_of_lt hm] at ho
      exact h.slots m vs hw ho
    · intro r hr
      exact ((h.copy_object hA (Nat.not_lt.mp hm) ho).2 r hr).1
  fresh := by
    intro l hl
    rw [Store.size_copy] at hl
    exact h.fresh l (Nat.le_trans (Nat.le_add_right _ _) hl)
  owned := h.owned
  frame := by
    refine ⟨?_, ?_, h.frame.given, h.frame.ungiven⟩
    · rw [Store.size_copy]
      exact Nat.le_trans h.frame.size (Nat.le_add_right _ _)
    · intro l hl
      have hlt : l < s.size := by
        by_contra hge
        exact hl (h.fresh l (Nat.not_lt.mp hge)).1
      rw [Store.get?_copy_of_lt hlt, h.frame.get l hl]

end Arena

end Conform
