import Conform.Proofs.Rebuilding
import Conform.Proofs.Unfolding

/-!
# Putting parts back

What is written to a part of a tree is read back (`Accessor.Tentative.stored`), what is put
into a sequence are its elements (`Store.Sequence.rebuilt`), and what is put into a pair is its first item
(`Store.withFirst_elements`). All else in the store stays but for the tree's own object (`Store.Retouches`).

Of items that a mapping is made of, each would have to be a pair that is like its own first item, and no such pair can
be a key, so only an empty mapping is made.
-/

namespace Conform

open Act Store

namespace Store

/-- Whether a store comes from another one by a change of no other object than a value, if it is one, and by adding
objects. -/
structure Retouches (s : Store) (v : Value) (t : Store) : Prop where
  size : s.size ≤ t.size
  other : ∀ l < s.size, v ≠ .ref l → t.get? l = s.get? l
  given : s.SameGiven t

variable {s t u : Store} {v x y q k : Value} {xs ys : List Value} {l : Loc} {o : Object} {ls : List Loc}

theorem Retouches.refl (s : Store) (v : Value) : s.Retouches v s := ⟨Nat.le_refl _, fun _ _ _ => rfl, .refl s⟩

theorem Retouches.put : s.Retouches (.ref l) (s.put l o) where
  size := Nat.le_of_eq size_put.symm
  other := fun _ _ hne => get?_put_of_ne fun heq => hne (by rw [heq])
  given := .of_given rfl

theorem Retouches.alloc : s.Retouches v (s.alloc o).2 where
  size := by simp
  other := fun _ hlt _ => get?_alloc_of_lt hlt
  given := (Extends.alloc s o).sameGiven

end Store

/-! ## Parts -/

namespace Accessor

variable {a : Accessor} {s t : Store} {v x y q : Value} {R : Set Place} {ls : List Loc}

/-- Records of a tree have their declared fields. -/
theorem complete_of_unfolds (h : s.Unfolds [v] ls) : ∀ l o, v = .ref l → s.get? l = some o → o.Complete := by
  rintro l o rfl ho
  obtain ⟨ks, hproper, -⟩ := h.of_ref ho
  cases o with
  | record cls xs extras => exact hproper.1
  | _ => trivial

theorem stored_attribute {name : String} (hv : v.Within R) (hR : ∀ o, Place.attributes o ∈ R → s.Barren o)
    (hcomplete : ∀ l o, v = .ref l → s.get? l = some o → o.Complete) (hget : getAttribute s v name = .ok x)
    (hset : setAttribute s v name y = .ok (q, t)) : s.Retouches v t ∧ getAttribute t q name = .ok y := by
  by_cases hatom : ∃ c, v = .atom c
  · obtain ⟨c, rfl⟩ := hatom
    exact absurd hset (setAtomAttribute_barren hv hR hget)
  · have hstored := setAttribute_stored hcomplete (fun c hc => absurd ⟨c, hc⟩ hatom) hget hset
    refine ⟨⟨Nat.le_of_eq hstored.size.symm, fun l _ => hstored.other l, ?_⟩, hstored.get_set rfl⟩
    exact .of_given (given_setAttribute hv hR hget hset)

theorem stored_item {key : Value} (hget : getItem s v key = .ok x) (hset : setItem s v key y = .ok (q, t)) :
    s.Retouches v t ∧ getItem t q key = .ok y := by
  have hfocus : (Accessor.item "" key).Focuses s v := by
    unfold setItem at hset
    split at hset
    · exact .tupleItem
    · split at hset
      · next xs hl => exact .listItem hl
      · next es hl => exact .key hl
      · cases hset
    · cases hset
  rcases lawful hfocus hget with ⟨put, hlens⟩ | ⟨cls, xs, n, f, -, heq, -⟩
  · have hput : (q, t) = put y := Except.ok.inj (hset.symm.trans (hlens.set_eq y))
    have hread := hlens.get_put y
    rw [← hput] at hread
    refine ⟨?_, hread⟩
    by_cases href : ∃ l, v = .ref l
    · obtain ⟨l, rfl⟩ := href
      obtain ⟨-, o, ho⟩ := hlens.inPlace y l rfl
      rw [← hput] at ho
      subst ho
      exact .put
    · have hanew := hlens.anew y fun l hl => href ⟨l, hl⟩
      rw [← hput] at hanew
      subst hanew
      exact .refl _ _
  · cases heq

/-- An optional attribute that is there is an attribute. -/
theorem exists_attribute {name : String} (hx : getOptional s v name = .ok x) (hpresent : x.isAbsent = false) :
    getAttribute s v name = .ok x ∧ x.isNull = false := by
  unfold getOptional at hx
  split at hx
  · next z hz =>
    cases hnull : z.isNull <;> rw [hnull] at hx <;> cases hx
    · exact ⟨hz, hnull⟩
    · cases hpresent
  · cases hx
    cases hpresent

/-- What is put where a part was read is read back, unless it counts as absent. -/
theorem Tentative.stored (ha : a.Tentative) (hv : v.Within R) (hR : ∀ o, Place.attributes o ∈ R → s.Barren o)
    (hcomplete : ∀ l o, v = .ref l → s.get? l = some o → o.Complete) (hget : a.get s v = .ok x)
    (hpresent : x.isAbsent = false ∨ a.Direct) (hset : a.set s v y = .ok (q, t)) :
    s.Retouches v t ∧ ∃ z, a.get t q = .ok z ∧ (z = y ∨ z.isAbsent = true ∧ ¬ a.Direct) := by
  cases a with
  | attr name => exact (stored_attribute hv hR hcomplete hget hset).imp_right fun h => ⟨y, h, .inl rfl⟩
  | item shown key => exact (stored_item hget hset).imp_right fun h => ⟨y, h, .inl rfl⟩
  | optionalAttr name =>
    obtain ⟨hx, -⟩ := exists_attribute hget (hpresent.resolve_right fun h => h)
    obtain ⟨hretouches, hread⟩ := stored_attribute hv hR hcomplete hx hset
    refine ⟨hretouches, if y.isNull then .absent else y, ?_, ?_⟩
    · change getOptional t q name = _
      rw [getOptional, hread]
    · split
      · exact .inr ⟨rfl, fun h => h⟩
      · exact .inl rfl
  | variant cls =>
    obtain ⟨rfl, rfl⟩ : y = q ∧ s = t := by
      cases hset
      exact ⟨rfl, rfl⟩
    refine ⟨.refl _ _, _, rfl, ?_⟩
    split
    · exact .inl rfl
    · exact .inr ⟨rfl, fun h => h⟩
  | custom name get set => exact ha.elim

/-- A part that an accessor finds is a tree, unless it is the value itself. -/
theorem Tentative.part (ha : a.Tentative) (hvariant : ∀ cls, a ≠ .variant cls) (h : s.Unfolds [v] ls) (hnd : ls.Nodup)
    (hs : s.Owned) (hx : a.get s v = .ok x) (hpresent : x.isAbsent = false ∨ a.Direct) :
    ∃ ks, Unfolds.Part s (a.get · v) v x ls ks := by
  cases a with
  | attr name => exact h.part_attribute hnd hs hx
  | item shown key => exact h.part_item hnd hs ha hx
  | optionalAttr name =>
    obtain ⟨hattribute, hnull⟩ := exists_attribute hx (hpresent.resolve_right fun h => h)
    obtain ⟨ks, hpart⟩ := h.part_attribute hnd hs hattribute
    refine ⟨ks, hpart.tree, hpart.sub, hpart.root, fun t hgiven hsame => ?_⟩
    change getOptional t v name = _
    rw [getOptional, hpart.again t hgiven hsame]
    simp only [hnull, Bool.false_eq_true, if_false]
  | variant cls => exact absurd rfl (hvariant cls)
  | custom name get set => exact ha.elim

end Accessor

/-! ## Elements -/

/-- Only an atom that is no number equals itself alone. -/
theorem Atom.eq_of_alike {a b : Atom} (ha : a.numeral? = none) (h : (Data.atom b).alike (.atom a) = true) : b = a := by
  have hnan : Data.sameNaN (.atom b) (.atom a) = false := by
    cases a with
    | nan m => cases ha
    | _ => cases b <;> rfl
  rw [Data.alike, hnan, Bool.false_or, Data.equal, Atom.equal, ha] at h
  split at h
  · next heq => cases heq
  · exact eq_of_beq h
  · cases h

namespace Data

/-- No tree equals a tuple that it is the first item of. -/
theorem not_equal_tuple : ∀ (d : Data) {cls : Option TupleClass} {ds : List Data},
    ¬ d.equal (.tuple cls (d :: ds)) = true
  | .tuple cls' (e :: es), cls, ds, h => by
    simp only [equal, equalAll, sameNaN, Bool.false_or, Bool.and_eq_true] at h
    exact not_equal_tuple e h.1
  | .tuple _ [], _, _, h | .atom _, _, _, h | .set _, _, _, h | .list _, _, _, h | .mapping _, _, _, h
  | .record _ _, _, _, h | .elided _, _, _, h => by
    simp [equal, equalAll] at h

/-- Nothing that can be a key is like a set, a list or a mapping. -/
theorem not_alike_changing {d c : Data} (hd : d.unhashable? = none)
    (hc : (∃ ds, c = .set ds) ∨ (∃ ds, c = .list ds) ∨ ∃ es, c = .mapping es) : ¬ d.alike c = true := by
  rcases hc with ⟨ds, rfl⟩ | ⟨ds, rfl⟩ | ⟨es, rfl⟩ <;> cases d <;>
    first | (simp [alike, sameNaN, equal]; done) | cases hd

end Data

namespace Store

variable {s t u : Store} {v x y q k : Value} {xs ys : List Value} {l : Loc} {o : Object} {ls : List Loc}

/-- A value of two elements is not like its first element, if that can be a key. -/
theorem not_alike_first (h : s.elements? y = some [k, x]) (hk : (s.view k).unhashable? = none) :
    ¬ (s.view k).alike (s.view y) = true := by
  cases y with
  | atom a =>
    intro halike
    obtain ⟨b, rfl⟩ : ∃ b, k = .atom b := by
      by_contra hno
      exact absurd halike (by rw [show s.view (.atom a) = .atom a from rfl, alike_other hno]; exact Bool.false_ne_true)
    change (Data.atom b).alike (.atom a) = true at halike
    cases a with
    | text t =>
      obtain ⟨c, d, hcs, rfl⟩ : ∃ c d, t.toList = [c, d] ∧ b = .text (String.ofList [c]) := by
        have hitems : t.toList.map (fun c => Value.text (String.ofList [c])) = [.atom b, x] := Option.some.inj h
        obtain ⟨c, cs, hc, hb, hrest⟩ := List.map_eq_cons_iff.mp hitems
        obtain ⟨d, ds, hd, -, hnil⟩ := List.map_eq_cons_iff.mp hrest
        rw [List.map_eq_nil_iff.mp hnil] at hd
        exact ⟨c, d, by rw [hc, hd], by cases hb; rfl⟩
      have heq := Atom.eq_of_alike rfl halike
      injection heq with heq
      rw [← heq, String.toList_ofList] at hcs
      cases hcs
    | bytes bs =>
      obtain ⟨c, cs, -, hb, -⟩ := List.map_eq_cons_iff.mp (Option.some.inj h)
      cases hb
      cases Atom.eq_of_alike rfl halike
    | enumeration cls =>
      obtain ⟨c, cs, -, hb, -⟩ := List.map_eq_cons_iff.mp (Option.some.inj h)
      cases hb
      cases Atom.eq_of_alike rfl halike
    | _ => cases h
  | tuple cls ys =>
    cases h
    change ¬ (s.view k).alike (.tuple cls [s.view k, s.view x]) = true
    have hequal : ¬ (s.view k).equal (.tuple cls [s.view k, s.view x]) = true := Data.not_equal_tuple (s.view k)
    simpa [Data.alike, Data.sameNaN] using hequal
  | set ys => exact Data.not_alike_changing hk (.inl ⟨_, rfl⟩)
  | frozen cls ys => cases h
  | ref l =>
    refine Data.not_alike_changing hk (.inr ?_)
    have hview : ∀ o, s.get? l = some o → s.view (.ref l) = o.view (s.viewAt s.objects.size [l]) := fun o ho => by
      change s.viewAt (s.objects.size + 1) [] l = _
      rw [viewAt, ho]
      rfl
    unfold elements? at h
    simp only at h
    split at h
    · next xs ho => exact .inl ⟨_, hview _ ho⟩
    · next es ho => exact .inr ⟨_, hview _ ho⟩
    · cases h

/-- A mapping that is made of pairs has the first item of the first pair for its first key. -/
theorem head_of_pairItems {es : List (Value × Value)} (h : s.pairItems (y :: ys) = .ok es) : ∃ k x z fs,
    s.elements? y = some [k, x] ∧ (s.view k).unhashable? = none ∧ es = (k, z) :: fs := by
  have hgo : ∀ {ys : List Value} {i : Nat} {k z : Value} {fs es : List (Value × Value)},
      pairItems.go s i ((k, z) :: fs) ys = .ok es → ∃ z' fs', es = (k, z') :: fs' := by
    intro ys
    induction ys with
    | nil =>
      intro i k z fs es h
      cases h
      exact ⟨z, fs, rfl⟩
    | cons y ys ih =>
      intro i k z fs es h
      rw [pairItems.go] at h
      split at h
      · cases h
      · split at h
        · cases h
        · rw [insertEntry] at h
          split at h <;> exact ih h
      · cases h
  rw [pairItems, pairItems.go] at h
  split at h
  · cases h
  · next k x hy =>
    split at h
    · cases h
    · next hk =>
      obtain ⟨z, fs, rfl⟩ := hgo h
      exact ⟨k, x, z, fs, hy, hk, rfl⟩
  · cases h

theorem elements?_put_list (h : l < s.size) : (s.put l (.list xs)).elements? (.ref l) = some xs := by
  simp only [elements?, get?_put_same h]

/-- What is put into a sequence other than a byte string are its elements. -/
theorem Sequence.rebuilt (hv : s.Sequence v xs) (hbytes : ∀ bs, v ≠ .atom (.bytes bs))
    (h : s.rebuild v ys = .ok (q, t)) : s.Retouches v t ∧ t.elements? q = some ys := by
  by_cases hadmits : v.Admits ys
  · obtain ⟨q', t', hok, hrebuilt⟩ := rebuild_of_admits hv hadmits
    cases hok.symm.trans h
    cases hrebuilt with
    | list ho => exact ⟨.put, elements?_put_list (lt_size_of_get? ho)⟩
    | tuple => exact ⟨.refl _ _, rfl⟩
    | named => exact ⟨.refl _ _, rfl⟩
    | text hchars =>
      obtain rfl := forall₂_isCharacter.mp hchars
      refine ⟨.refl _ _, ?_⟩
      change some (characters (String.ofList _)) = _
      rw [characters, String.toList_ofList]
    | bytes => exact absurd rfl (hbytes _)
  · obtain ⟨reason, herror⟩ := rebuild_of_not_admits hv hadmits
    cases herror.symm.trans h

/-- Of items that it has for keys, only an empty mapping is made. -/
theorem rebuilt_mapping {es : List (Value × Value)} (hs : s.Whole) (hes : s.get? l = some (.mapping es))
    (hys : ∀ y ∈ ys, y.bound ≤ s.size) (h : s.rebuild (.ref l) ys = .ok (q, t)) :
    s.Retouches (.ref l) t ∧ t.elements? q = some ys := by
  unfold rebuild at h
  simp only [hes] at h
  obtain ⟨hremake, hequal⟩ := remade_of_ok h
  simp only [remake] at hremake
  cases hpairs : s.pairItems ys with
  | error e =>
    rw [hpairs] at hremake
    cases hremake
  | ok fs =>
    rw [hpairs] at hremake
    cases hremake
    have helements : (s.alloc (.mapping fs)).2.elements? (.ref s.size) = some (fs.map (·.1)) := by
      simp only [elements?, get?_alloc_new]
    simp only [alloc_fst, helements, Option.getD_some] at hequal
    cases ys with
    | nil =>
      cases hpairs
      exact ⟨.alloc, helements⟩
    | cons y ys =>
      obtain ⟨k, x, z, gs, hy, hk, rfl⟩ := head_of_pairItems hpairs
      have hbound : k.bound ≤ s.size :=
        Value.boundAll_le.mp (elements?_bound hs (hys y List.mem_cons_self) hy) k List.mem_cons_self
      have hview : (s.alloc (.mapping ((k, z) :: gs))).2.view k = s.view k :=
        view_of_same hs hbound fun m hm => get?_alloc_of_lt (lt_of_mem_reachable hm)
      have hhead : (s.view k).alike (s.view y) = true := by
        rw [← hview]
        simp only [viewAll, List.map_cons, Data.equalAll] at hequal
        exact (Bool.and_eq_true_iff.mp hequal).1
      exact absurd hhead (not_alike_first hy hk)

/-- What is put into a tree that has elements are its elements. -/
theorem Unfolds.rebuilt (hv : s.Unfolds [v] ls) (hxs : s.elements? v = some xs) (ht : t.Whole)
    (hroot : ∀ l, v = .ref l → t.get? l = s.get? l) (hys : ∀ y ∈ ys, y.bound ≤ t.size)
    (h : t.rebuild v ys = .ok (q, u)) : t.Retouches v u ∧ u.elements? q = some ys := by
  unfold elements? at hxs
  split at hxs
  · exact Sequence.text.rebuilt (fun bs heq => by cases heq) h
  · exact hv.of_atom.1.elim
  · next cls => exact absurd h (by simp [rebuild, remake])
  · exact Sequence.tuple.rebuilt (fun bs heq => by cases heq) h
  · cases hv
  · next l =>
    split at hxs
    · next zs ho => exact (Sequence.list ((hroot l rfl).trans ho)).rebuilt (fun bs heq => by cases heq) h
    · next es ho => exact rebuilt_mapping ht ((hroot l rfl).trans ho) hys h
    · cases hxs
  · cases hxs

end Store

/-! ## Pairs -/

namespace Fact

variable {w u : World} {v a b c q : Value}

/-- The pair with a new first item has it, and its own second item. -/
theorem withFirst_elements (hv : w.store.elements? v = some [a, b]) (h : exec (withFirst v c b) w = (.ok q, u)) :
    w.store.Retouches v u.store ∧ u.store.elements? q = some [c, b] := by
  have hnew : ∀ {cls : Option TupleClass}, exec (pure (Value.tuple cls [c, b])) w = (.ok q, u) →
      w.store.Retouches v u.store ∧ u.store.elements? q = some [c, b] := by
    intro cls h
    cases h
    exact ⟨.refl _ _, rfl⟩
  unfold withFirst at h
  split at h
  · next l =>
    obtain ⟨o, _, ho, h⟩ := exec_bind_ok h
    cases ho
    split at h
    · next x rest ho =>
      obtain ⟨_, _, hput, h⟩ := exec_bind_ok h
      cases hput
      cases h
      simp only [elements?, ho] at hv
      cases hv
      exact ⟨.put, elements?_put_list (lt_size_of_get? ho)⟩
    · exact hnew h
  · next cls xs => exact hnew h
  · exact hnew h

end Fact

end Conform
