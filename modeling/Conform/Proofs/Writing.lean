import Conform.Proofs.Keys

/-!
# Values that can be written

A message that shows a value cannot be made if an integer in it has too many digits. `Store.Writable` says that none
has, in a value and in all objects that it leads to. Such a value stays so while objects are added, and while a list
grows by values of that kind which refer to nothing (`Store.Writable.isWritable`).
-/

namespace Conform

namespace Value

/-- Whether the integers in a value itself, apart from what it refers to, can be written. -/
def Writable (x : Value) : Prop := (x.view fun _ => .atom .null).isWritable = true

mutual

theorem isWritable_view {e f : Loc → Data} : ∀ {x : Value}, (x.view e).isWritable = true →
    (∀ l ∈ x.refs, (f l).isWritable = true) → (x.view f).isWritable = true
  | .atom _, h, _ => h
  | .tuple _ xs, h, hf | .set xs, h, hf | .frozen _ xs, h, hf => by
    rw [view, Data.isWritable] at h ⊢
    exact isWritableAll_view h hf
  | .ref l, _, hf => hf l List.mem_cons_self

theorem isWritableAll_view {e f : Loc → Data} : ∀ {xs : List Value}, Data.isWritableAll (viewAll e xs) = true →
    (∀ l ∈ refsAll xs, (f l).isWritable = true) → Data.isWritableAll (viewAll f xs) = true
  | [], _, _ => by rw [viewAll, Data.isWritableAll]
  | x :: xs, h, hf => by
    rw [viewAll, Data.isWritableAll, Bool.and_eq_true] at h ⊢
    exact ⟨isWritable_view h.1 fun l hl => hf l (List.mem_append_left _ hl),
      isWritableAll_view h.2 fun l hl => hf l (List.mem_append_right _ hl)⟩

end

end Value

namespace Object

/-- Whether the integers in an object itself, apart from what it refers to, can be written. -/
def Writable (o : Object) : Prop := (o.view fun _ => .atom .null).isWritable = true

theorem isWritableEntries_view {e f : Loc → Data} {es : List (Value × Value)}
    (h : Data.isWritableEntries (es.map fun p => (p.1.view e, p.2.view e)) = true)
    (hf : ∀ p ∈ es, (∀ l ∈ p.1.refs, (f l).isWritable = true) ∧ ∀ l ∈ p.2.refs, (f l).isWritable = true) :
    Data.isWritableEntries (es.map fun p => (p.1.view f, p.2.view f)) = true := by
  induction es with
  | nil => rw [List.map_nil, Data.isWritableEntries]
  | cons p es ih =>
    rw [List.forall_mem_cons] at hf
    simp only [List.map_cons, Data.isWritableEntries, Bool.and_eq_true] at h ⊢
    exact ⟨⟨Value.isWritable_view h.1.1 hf.1.1, Value.isWritable_view h.1.2 hf.1.2⟩, ih h.2 hf.2⟩

/-- An object can be written if it can apart from what it refers to, and what it refers to can. -/
theorem Writable.isWritable {o : Object} (h : o.Writable) {f : Loc → Data}
    (hf : ∀ l ∈ o.refs, (f l).isWritable = true) : (o.view f).isWritable = true := by
  cases o with
  | list xs | slots xs =>
    rw [Writable, view, Data.isWritable] at h
    rw [view, Data.isWritable]
    exact Value.isWritableAll_view h hf
  | mapping es =>
    rw [Writable, view, Data.isWritable] at h
    rw [view, Data.isWritable]
    refine isWritableEntries_view h fun p hp => ?_
    have hmem : ∀ x ∈ [p.1, p.2], ∀ l ∈ x.refs, (f l).isWritable = true := fun x hx l hl =>
      hf l (Value.mem_refsAll.mpr ⟨x, List.mem_flatMap.mpr ⟨p, hp, hx⟩, hl⟩)
    exact ⟨hmem p.1 List.mem_cons_self, hmem p.2 (List.mem_cons_of_mem _ List.mem_cons_self)⟩
  | record cls xs extras =>
    rw [Writable, view, Data.isWritable] at h
    rw [view, Data.isWritable]
    refine Value.isWritableAll_view h fun l hl => hf l ?_
    obtain ⟨x, hx, hl⟩ := Value.mem_refsAll.mp hl
    exact Value.mem_refsAll.mpr ⟨x, List.mem_append_left _ hx, hl⟩

end Object

namespace Store

variable {s t : Store} {x : Value} {l : Loc}

/-- Whether a value and all objects that it leads to can be written. -/
def Writable (s : Store) (x : Value) : Prop :=
  x.Writable ∧ ∀ m ∈ s.reachable x.refs, ∀ o, s.get? m = some o → o.Writable

theorem isWritable_viewAt {R : Loc → Prop}
    (hR : ∀ m o, R m → t.get? m = some o → o.Writable ∧ ∀ r ∈ o.refs, R r) :
    ∀ (fuel : Nat) (path : List Loc) (m : Loc), R m → (t.viewAt fuel path m).isWritable = true := by
  intro fuel
  induction fuel with
  | zero =>
    intro path m _
    rfl
  | succ fuel ih =>
    intro path m hm
    rw [viewAt]
    split
    · rfl
    · next o ho =>
      split
      · rfl
      · obtain ⟨hwritable, hrefs⟩ := hR m o hm ho
        exact hwritable.isWritable fun r hr => ih (m :: path) r (hrefs r hr)

/-- A value that can be written still can after a list has been given elements that can and refer to nothing. -/
theorem Writable.isWritable {ys : List Value} (h : s.Writable x) (hs : s.Whole) (hx : x.bound ≤ s.size)
    (hsame : ∀ m, m < s.size → m ≠ l → t.get? m = s.get? m) (hlist : t.get? l = some (.list ys))
    (hys : ∀ y ∈ ys, y.refs = [] ∧ y.Writable) : (t.view x).isWritable = true := by
  have hroot : ∀ m ∈ x.refs, m ∈ s.reachable x.refs := fun m hm =>
    mem_reachable_root hm (Value.bound_le.mp hx m hm)
  have hreachable : ∀ m o, m ∈ s.reachable x.refs → t.get? m = some o →
      o.Writable ∧ ∀ r ∈ o.refs, r ∈ s.reachable x.refs := by
    intro m o hm ho
    -- only the list that has grown is not as it was, and its elements lead no further
    by_cases hml : m = l
    · rw [hml, hlist] at ho
      cases ho
      have hwritable : Data.isWritableAll (Value.viewAll (fun _ => .atom .null) ys) = true := by
        clear hlist
        induction ys with
        | nil => rw [Value.viewAll, Data.isWritableAll]
        | cons y ys ih =>
          rw [List.forall_mem_cons] at hys
          rw [Value.viewAll, Data.isWritableAll, Bool.and_eq_true]
          exact ⟨hys.1.2, ih hys.2⟩
      refine ⟨?_, fun r hr => ?_⟩
      · rw [Object.Writable, Object.view, Data.isWritable]
        exact hwritable
      · obtain ⟨y, hy, hr⟩ := Value.mem_refsAll.mp hr
        rw [(hys y hy).1] at hr
        cases hr
    · rw [hsame m (lt_of_mem_reachable hm) hml] at ho
      exact ⟨h.2 m hm o ho, fun r hr => reachable_closed hm ho hr (hs.ref_lt ho hr)⟩
  exact Value.isWritable_view h.1 fun m hm => isWritable_viewAt hreachable _ [] m (hroot m hm)

end Store

end Conform
