import Conform.Value.Accessor
import Conform.Proofs.Arena

/-!
# Parts of values in an arena

Reading a part of a value does not lead out of a closed set of places, and storing a part keeps the
invariant of an arena whose values may be changed. The same holds of the elements of a sequence and of
putting elements into one.
-/

namespace Conform

namespace Store

variable {s : Store} {R : Set Place} {v : Value} {xs : List Value}

/-! ## Sequences -/

theorem memberValues_within {cls : EnumClass} (h : Place.attributes (.enumeration cls) ∈ R) :
    ∀ x ∈ memberValues cls, x.Within R := by
  intro x hx
  obtain ⟨i, -, rfl⟩ := List.mem_map.mp hx
  exact Value.within_member.mpr h

/-- The elements of a value name nothing that the value does not lead to. -/
theorem elements?_within (hs : s.Closed R) (hv : v.Within R) (h : s.elements? v = some xs) :
    ∀ x ∈ xs, x.Within R := by
  cases v with
  | atom a =>
    cases a with
    | text t =>
      cases h
      intro x hx
      obtain ⟨c, -, rfl⟩ := List.mem_map.mp hx
      exact Value.within_text
    | bytes bs =>
      cases h
      intro x hx
      obtain ⟨b, -, rfl⟩ := List.mem_map.mp hx
      exact Value.within_int
    | enumeration cls =>
      cases h
      exact memberValues_within (Value.within_atom.mp hv _ rfl)
    | _ => cases h
  | tuple cls ys =>
    cases h
    exact Value.within_tuple.mp hv
  | set ys =>
    cases h
    exact Value.within_set.mp hv
  | frozen cls ys => cases h
  | ref l =>
    rw [Value.within_ref] at hv
    simp only [elements?] at h
    split at h
    · next ys hget =>
      cases h
      exact Object.within_list.mp (hs.object hv hget)
    · next es hget =>
      cases h
      intro x hx
      obtain ⟨e, he, rfl⟩ := List.mem_map.mp hx
      exact (Object.within_mapping.mp (hs.object hv hget) e he).1
    · cases h

/-- What can be cut to a length is cut from the front of its elements. -/
theorem elements?_of_first {n : Nat} (h : s.firstElements? v n = some xs) :
    ∃ ys, s.elements? v = some ys ∧ xs = ys.take n := by
  unfold firstElements? at h
  split at h
  · cases h
  · cases h
  · next l =>
    split at h
    · next ys hget =>
      cases h
      exact ⟨ys, by rw [elements?, hget], rfl⟩
    · cases h
  · obtain ⟨ys, hys, rfl⟩ := Option.map_eq_some_iff.mp h
    exact ⟨ys, hys, rfl⟩

theorem firstElements?_within {n : Nat} (hs : s.Closed R) (hv : v.Within R)
    (h : s.firstElements? v n = some xs) : ∀ x ∈ xs, x.Within R := by
  obtain ⟨ys, hys, rfl⟩ := elements?_of_first h
  intro x hx
  exact elements?_within hs hv hys x (List.mem_of_mem_take hx)

theorem mem_sortedBy? {α : Type} {value : α → Data} {xs ys : List α}
    (h : Data.sortedBy? value xs = some ys) {y : α} (hy : y ∈ ys) : y ∈ xs := by
  unfold Data.sortedBy? at h
  split at h
  · cases h
    exact List.mem_mergeSort.mp hy
  · cases h

theorem mem_distinctValues {x : Value} (hx : x ∈ s.distinctValues xs) : x ∈ xs := by
  -- what has been kept so far stays the induction's business, so it is generalized
  have hkept : ∀ (ys kept : List Value),
      x ∈ ys.foldl (fun kept v => if (s.view v).isIn (s.viewAll kept) then kept else kept ++ [v]) kept →
        x ∈ kept ∨ x ∈ ys := by
    intro ys
    induction ys with
    | nil =>
      intro kept h
      exact .inl h
    | cons y ys ih =>
      intro kept h
      rw [List.foldl_cons] at h
      rcases ih _ h with h | h
      · split at h
        · exact .inl h
        · rcases List.mem_append.mp h with h | h
          · exact .inl h
          · exact .inr (by simp_all)
      · exact .inr (List.mem_cons_of_mem y h)
  simpa using hkept xs [] hx

theorem collectItems_within {ys : List Value} (hxs : ∀ x ∈ xs, x.Within R)
    (h : s.collectItems xs = .ok ys) : ∀ y ∈ ys, y.Within R := by
  unfold collectItems at h
  split at h
  · cases h
  · cases h
    intro y hy
    apply hxs
    apply mem_distinctValues
    cases hsort : Data.sortedBy? s.view (s.distinctValues xs) with
    | none => simpa [hsort] using hy
    | some zs => exact mem_sortedBy? hsort (by simpa [hsort] using hy)

theorem insertEntry_within {k x : Value} (hk : k.Within R) (hx : x.Within R) :
    ∀ {es : List (Value × Value)}, (∀ e ∈ es, e.1.Within R ∧ e.2.Within R) →
      ∀ e ∈ s.insertEntry k x es, e.1.Within R ∧ e.2.Within R := by
  intro es
  induction es with
  | nil =>
    intro _ e he
    cases List.mem_singleton.mp he
    exact ⟨hk, hx⟩
  | cons e es ih =>
    intro hes
    obtain ⟨k', x'⟩ := e
    rw [insertEntry]
    split
    · intro e he
      rcases List.mem_cons.mp he with rfl | he
      · exact ⟨(hes (k', x') (by simp)).1, hx⟩
      · exact hes e (by simp [he])
    · intro e he
      rcases List.mem_cons.mp he with rfl | he
      · exact hes _ (by simp)
      · exact ih (fun e he => hes e (by simp [he])) e he

theorem pairItems_within {es : List (Value × Value)} (hs : s.Closed R) (hxs : ∀ x ∈ xs, x.Within R)
    (h : s.pairItems xs = .ok es) : ∀ e ∈ es, e.1.Within R ∧ e.2.Within R := by
  have hgo : ∀ (ys : List Value) (i : Nat) (fs : List (Value × Value)), (∀ y ∈ ys, y.Within R) →
      (∀ e ∈ fs, e.1.Within R ∧ e.2.Within R) → pairItems.go s i fs ys = .ok es →
        ∀ e ∈ es, e.1.Within R ∧ e.2.Within R := by
    intro ys
    induction ys with
    | nil =>
      intro i fs _ hfs h
      cases h
      exact hfs
    | cons y ys ih =>
      intro i fs hys hfs h
      rw [pairItems.go] at h
      split at h
      · cases h
      · next k x hpair =>
        have hparts := elements?_within hs (hys y (by simp)) hpair
        split at h
        · cases h
        · refine ih _ _ (fun z hz => hys z (by simp [hz])) ?_ h
          exact insertEntry_within (hparts k (by simp)) (hparts x (by simp)) hfs
      · cases h
  exact hgo xs 0 [] hxs nofun h

end Store

/-! ## Accessors -/

namespace Accessor

open Store

variable {s : Store} {R : Set Place} {v x : Value} {name : String}

theorem field?_within {names : List String} {xs : List Value} (hxs : ∀ y ∈ xs, y.Within R)
    (h : field? names xs name = some x) : x.Within R := by
  unfold field? at h
  split at h
  · exact hxs x (List.mem_of_getElem? h)
  · cases h

theorem payloadValue_inherent (p : Payload) : ∃ a : Atom, payloadValue p = .atom a ∧ a.IsInherent := by
  cases p <;> exact ⟨_, rfl, trivial⟩

/-- What a class passes on takes no attributes. -/
theorem owner?_of_inherent {a : Atom} (ha : a.IsInherent) : a.owner? = none := by
  cases a with
  | sealed o => simp [Atom.owner?, show o.isOpen = false from ha]
  | null | text | int => rfl
  | _ => exact ha.elim

theorem inherent_within {a : Atom} (ha : a.IsInherent) : (Value.atom a).Within R :=
  Value.within_atom.mpr fun o ho => by cases (owner?_of_inherent ha).symm.trans ho

theorem payloadValue_within {p : Payload} : (payloadValue p).Within R := by
  obtain ⟨a, hp, ha⟩ := payloadValue_inherent p
  exact hp ▸ inherent_within ha

/-- What an atom has of its own, or from its class. -/
theorem ownAttribute?_inherent {a : Atom} (h : ownAttribute? a name = some x) :
    ∃ b : Atom, x = .atom b ∧ b.IsInherent := by
  unfold ownAttribute? at h
  split at h
  · simp only [Option.or_eq_some_iff] at h
    rcases h with (hown | ⟨-, hunbound⟩) | ⟨-, hclass⟩
    · obtain ⟨p, -, rfl⟩ := Option.map_eq_some_iff.mp hown
      exact payloadValue_inherent p
    · split at hunbound
      · exact unbound?_inherent hunbound
      · cases hunbound
    · exact inherited?_inherent hclass
  · cases h
  · cases h
  · exact inherited?_inherent h

theorem member?_within {cls : EnumClass} (hcls : Place.attributes (.enumeration cls) ∈ R)
    (h : member? cls name = some x) : x.Within R := by
  obtain ⟨i, -, rfl⟩ := Option.map_eq_some_iff.mp h
  exact Value.within_member.mpr hcls

theorem mem_of_lookup {es : List (String × Value)} (h : es.lookup name = some x) :
    ∃ e ∈ es, e.2 = x := by
  induction es with
  | nil => cases h
  | cons e es ih =>
    obtain ⟨n, y⟩ := e
    rw [List.lookup_cons] at h
    split at h
    · cases h
      exact ⟨(n, x), by simp, rfl⟩
    · obtain ⟨e, he, hx⟩ := ih h
      exact ⟨e, by simp [he], hx⟩

theorem numberAttributes_within {a : Atom} : ∀ e ∈ numberAttributes a, e.2.Within R := by
  intro e he
  have hfloat : ∀ b : Atom, b.isFloat = true → (Value.atom b).Within R := by
    intro b hb
    cases b with
    | float y => exact Value.within_float
    | nan m => exact Value.within_nan
    | _ => cases hb
  unfold numberAttributes at he
  split at he
  · next ha =>
    simp only [List.mem_cons, List.not_mem_nil, or_false] at he
    rcases he with rfl | rfl
    · exact hfloat a ha
    · exact Value.within_float
  · cases ha : a.integer? with
    | none => simp [ha] at he
    | some n =>
      simp only [ha, Option.map_some, Option.getD_some, integerAttributes, List.mem_cons,
        List.not_mem_nil, or_false] at he
      rcases he with rfl | rfl | rfl | rfl <;> exact Value.within_int

theorem fixedAttribute?_within {a : Atom} (ha : (Value.atom a).Within R)
    (h : fixedAttribute? a name = some x) : x.Within R := by
  have hnumber : (numberAttributes a).lookup name = some x → x.Within R := by
    intro h
    obtain ⟨e, he, rfl⟩ := mem_of_lookup h
    exact numberAttributes_within e he
  unfold fixedAttribute? at h
  split at h
  · next cls i =>
    obtain ⟨e, he, rfl⟩ := mem_of_lookup h
    rcases List.mem_append.mp he with he | he
    · unfold memberAttributes at he
      split at he
      · simp only [List.mem_cons, List.not_mem_nil, or_false] at he
        rcases he with rfl | rfl
        · exact Value.within_text
        · exact payloadValue_within
      · cases he
    · exact numberAttributes_within e he
  · exact member?_within (Value.within_atom.mp ha _ rfl) h
  · exact hnumber h

theorem pick_within {xs : List Value} {key : Value} (hxs : ∀ y ∈ xs, y.Within R)
    (h : pick xs key = .ok x) : x.Within R := by
  unfold pick at h
  split at h
  · cases h
  · split at h
    · cases h
      exact Value.within_getD hxs
    · cases h

theorem replace_within {xs ys : List Value} {key part : Value} (hxs : ∀ y ∈ xs, y.Within R)
    (hpart : part.Within R) (h : replace xs key part = .ok ys) : ∀ y ∈ ys, y.Within R := by
  unfold replace at h
  split at h
  · cases h
  · split at h
    · cases h
      intro y hy
      rcases List.mem_or_eq_of_mem_set hy with hy | rfl
      · exact hxs y hy
      · exact hpart
    · cases h

theorem lookup_within {es : List (Value × Value)} {key : Data}
    (hes : ∀ e ∈ es, e.1.Within R ∧ e.2.Within R) (h : s.lookup es key = some x) : x.Within R := by
  obtain ⟨e, he, rfl⟩ := Option.map_eq_some_iff.mp h
  exact (hes e (List.mem_of_find?_eq_some he)).2

theorem replaceField_within {part : Value} (hpart : part.Within R) :
    ∀ {fs : List Field} {xs : List Value}, (∀ f ∈ fs, (Value.atom f.initial).Within R) →
      (∀ y ∈ xs, y.Within R) → ∀ y ∈ replaceField name part fs xs, y.Within R := by
  intro fs
  induction fs with
  | nil =>
    intro xs _ _
    exact nofun
  | cons f fs ih =>
    intro xs hfs hxs
    cases xs with
    | nil => exact nofun
    | cons y ys =>
      intro z hz
      rw [replaceField] at hz
      rcases List.mem_cons.mp hz with rfl | hz
      · split
        · exact hpart
        · split
          · exact hxs y (by simp)
          · exact hfs f (by simp)
      · exact ih (fun g hg => hfs g (by simp [hg])) (fun u hu => hxs u (by simp [hu])) z hz

theorem setExtra_within {part : Value} (hpart : part.Within R) :
    ∀ {es : List (String × Value)}, (∀ e ∈ es, e.2.Within R) →
      ∀ e ∈ setExtra name part es, e.2.Within R := by
  intro es
  induction es with
  | nil =>
    intro _ e he
    cases List.mem_singleton.mp he
    exact hpart
  | cons e es ih =>
    intro hes
    obtain ⟨n, y⟩ := e
    rw [setExtra]
    split
    · intro e he
      rcases List.mem_cons.mp he with rfl | he
      · exact hpart
      · exact hes e (by simp [he])
    · intro e he
      rcases List.mem_cons.mp he with rfl | he
      · exact hes _ (by simp)
      · exact ih (fun e he => hes e (by simp [he])) e he

/-! ## Reading -/

theorem atomAttribute?_within (hs : s.Closed R) (ho : s.Owned) {a : Atom}
    (ha : (Value.atom a).Within R) (h : atomAttribute? s a name = some x) : x.Within R := by
  simp only [atomAttribute?, Option.or_eq_some_iff] at h
  rcases h with (hfixed | ⟨-, hgiven⟩) | ⟨-, hown⟩
  · exact fixedAttribute?_within ha hfixed
  · exact hs.given ho ha hgiven
  · obtain ⟨b, rfl, hb⟩ := ownAttribute?_inherent hown
    exact inherent_within hb

/-- What a search has answered, and not raised, is what it has found. -/
theorem eq_some_of_found {o : Option Value} {cause : Misuse} (h : found o cause = .ok x) : o = some x := by
  cases o with
  | none => cases h
  | some y =>
    cases h
    rfl

theorem found_eq_ok {o : Option Value} {cause : Misuse} : found o cause = .ok x ↔ o = some x :=
  ⟨eq_some_of_found, fun h => by rw [h, found]⟩

theorem inherited?_within {className shown : String} (h : inherited? className shown name = some x) :
    x.Within R := by
  obtain ⟨a, rfl, ha⟩ := inherited?_inherent h
  exact inherent_within ha

/-- Under the name of a declared field there is its value. -/
theorem fieldOrInherited?_eq {names : List String} {xs : List Value} {className : String} {i : Nat}
    (hi : names.idxOf? name = some i) : fieldOrInherited? names xs className name = field? names xs name := by
  simp only [fieldOrInherited?, field?, hi]

theorem fieldOrInherited?_within {names : List String} {xs : List Value} {className : String}
    (hxs : ∀ y ∈ xs, y.Within R) (h : fieldOrInherited? names xs className name = some x) : x.Within R := by
  unfold fieldOrInherited? at h
  split at h
  · exact hxs x (List.mem_of_getElem? h)
  · exact inherited?_within h

theorem objectAttribute?_within {o : Object} (hwithin : o.Within R) (h : objectAttribute? o name = some x) :
    x.Within R := by
  cases o with
  | list xs => exact inherited?_within h
  | record cls xs extras =>
    obtain ⟨-, hxs, hextras⟩ := Object.within_record.mp hwithin
    rcases Option.or_eq_some_iff.mp h with hx | ⟨-, hx⟩
    · unfold attribute? at hx
      split at hx
      · next hfield =>
        cases hx
        exact field?_within hxs hfield
      · obtain ⟨e, he, rfl⟩ := Option.map_eq_some_iff.mp hx
        exact hextras e (List.mem_of_find?_eq_some he)
    · exact inherited?_within hx
  | mapping | slots => cases h

theorem getAttribute_within (hs : s.Closed R) (ho : s.Owned) (hv : v.Within R)
    (h : getAttribute s v name = .ok x) : x.Within R := by
  unfold getAttribute at h
  split at h
  · next l =>
    rw [Value.within_ref] at hv
    split at h
    · next es hget => exact lookup_within (Object.within_mapping.mp (hs.object hv hget)) (eq_some_of_found h)
    · next o _ hget => exact objectAttribute?_within (hs.object hv hget) (eq_some_of_found h)
    · cases h
  · exact fieldOrInherited?_within (Value.within_frozen.mp hv).2 (eq_some_of_found h)
  · exact fieldOrInherited?_within (Value.within_tuple.mp hv) (eq_some_of_found h)
  · exact inherited?_within (eq_some_of_found h)
  · exact inherited?_within (eq_some_of_found h)
  · exact atomAttribute?_within hs ho hv (eq_some_of_found h)

theorem foundUnder_ok {key : Value} {o : Option Value} (h : foundUnder s key o = .ok x) :
    o = some x := by
  unfold foundUnder at h
  split at h
  · cases h
  · split at h
    · cases h
      rfl
    · cases h

theorem getItem_within {key : Value} (hs : s.Closed R) (hv : v.Within R)
    (h : getItem s v key = .ok x) : x.Within R := by
  unfold getItem at h
  split at h
  · next t => exact pick_within (elements?_within (v := .atom (.text t)) hs hv rfl) h
  · next bs => exact pick_within (elements?_within (v := .atom (.bytes bs)) hs hv rfl) h
  · next cls =>
    have hx := foundUnder_ok h
    split at hx
    · exact member?_within (Value.within_atom.mp hv _ rfl) hx
    · cases hx
  · exact pick_within (Value.within_tuple.mp hv) h
  · next l =>
    rw [Value.within_ref] at hv
    split at h
    · next xs hget => exact pick_within (Object.within_list.mp (hs.object hv hget)) h
    · next es hget =>
      exact lookup_within (Object.within_mapping.mp (hs.object hv hget)) (foundUnder_ok h)
    · cases h
  · cases h

/-! ## Writing -/

/-- What storing a part asks of an invariant of stores and of the places that values lie in. -/
structure Keeps (I : Store → Prop) (R : Set Place) : Prop where
  object : ∀ {s l o}, I s → Place.object l ∈ R → s.get? l = some o → o.Within R
  put : ∀ {s l o}, I s → Place.object l ∈ R → o.Within R → (∀ vs, o ≠ .slots vs) → I (s.put l o)
  give : ∀ {s a o name v}, I s → a.owner? = some o → Place.attributes o ∈ R → v.Within R →
    I (s.give a name v)

section

variable {I : Store → Prop} {t : Store} {part w : Value}

theorem setEntry_within {l : Loc} {es : List (Value × Value)} {key : Value} (hI : Keeps I R)
    (hs : I s) (hl : Place.object l ∈ R) (hget : s.get? l = some (.mapping es))
    (hkey : key.Within R) (hpart : part.Within R) :
    (setEntry s l es key part).1.Within R ∧ I (setEntry s l es key part).2 := by
  refine ⟨Value.within_ref.mpr hl, hI.put hs hl ?_ nofun⟩
  rw [Object.within_mapping]
  exact insertEntry_within hkey hpart (Object.within_mapping.mp (hI.object hs hl hget))

theorem setAtomAttribute_within {a : Atom} (hI : Keeps I R) (hs : I s)
    (ha : (Value.atom a).Within R) (hpart : part.Within R)
    (h : setAtomAttribute s a name part = .ok (w, t)) : w.Within R ∧ I t := by
  have hgive : ∀ o, a.owner? = some o → I (s.give a name part) := fun o ho =>
    hI.give hs ho (Value.within_atom.mp ha o ho) hpart
  unfold setAtomAttribute at h
  split at h
  · next cls =>
    split at h
    · next hopen =>
      cases h
      exact ⟨ha, hgive (.sealed cls) (by simp [Atom.owner?, hopen])⟩
    · cases h
  · next cls =>
    split at h
    · cases h
    · cases h
      exact ⟨ha, hgive (.enumeration cls) rfl⟩
  · next cls i =>
    split at h
    · cases h
    · cases h
      exact ⟨ha, hgive (.enumeration cls) rfl⟩
  · cases h

theorem setAttribute_within (hI : Keeps I R) (hs : I s) (hv : v.Within R)
    (hpart : part.Within R) (h : setAttribute s v name part = .ok (w, t)) :
    w.Within R ∧ I t := by
  unfold setAttribute at h
  split at h
  · next l =>
    have hl := Value.within_ref.mp hv
    split at h
    · next es hget =>
      cases h
      exact setEntry_within hI hs hl hget Value.within_text hpart
    · next cls xs extras hget =>
      obtain ⟨hcls, hxs, hextras⟩ := Object.within_record.mp (hI.object hs hl hget)
      split at h
      · next i hi =>
        cases h
        refine ⟨hv, hI.put hs hl (Object.within_record.mpr ⟨hcls, ?_, hextras⟩) nofun⟩
        intro y hy
        rcases List.mem_or_eq_of_mem_set hy with hy | rfl
        · exact hxs y hy
        · exact hpart
      · cases h
        refine ⟨hv, hI.put hs hl (Object.within_record.mpr ⟨hcls, hxs, ?_⟩) nofun⟩
        exact setExtra_within hpart hextras
    · cases h
  · next cls xs =>
    obtain ⟨hcls, hxs⟩ := Value.within_frozen.mp hv
    split at h
    · split at h
      · cases h
        refine ⟨Value.within_frozen.mpr ⟨hcls, replaceField_within hpart ?_ hxs⟩, hs⟩
        exact fun f hf => Value.within_initial hcls hf
      · cases h
    · cases h
  · next cls xs =>
    split at h
    · next i hi =>
      cases h
      refine ⟨Value.within_tuple.mpr ?_, hs⟩
      intro y hy
      rcases List.mem_or_eq_of_mem_set hy with hy | rfl
      · exact Value.within_tuple.mp hv y hy
      · exact hpart
    · cases h
  · exact setAtomAttribute_within hI hs hv hpart h
  · cases h
  · cases h

theorem setItem_within {key : Value} (hI : Keeps I R) (hs : I s) (hv : v.Within R)
    (hkey : key.Within R) (hpart : part.Within R)
    (h : setItem s v key part = .ok (w, t)) : w.Within R ∧ I t := by
  have hmap : ∀ {xs : List Value} {f : List Value → Value × Store},
      (replace xs key part).map f = .ok (w, t) → ∃ ys, replace xs key part = .ok ys ∧ f ys = (w, t) := by
    intro xs f h
    cases hr : replace xs key part with
    | error e =>
      rw [hr] at h
      cases h
    | ok ys =>
      rw [hr] at h
      exact ⟨ys, rfl, Except.ok.inj h⟩
  unfold setItem at h
  split at h
  · next cls xs =>
    obtain ⟨ys, hys, heq⟩ := hmap h
    cases heq
    exact ⟨Value.within_tuple.mpr (replace_within (Value.within_tuple.mp hv) hpart hys), hs⟩
  · next l =>
    have hl := Value.within_ref.mp hv
    split at h
    · next xs hget =>
      obtain ⟨ys, hys, heq⟩ := hmap h
      cases heq
      have hxs := Object.within_list.mp (hI.object hs hl hget)
      exact ⟨hv, hI.put hs hl (Object.within_list.mpr (replace_within hxs hpart hys)) nofun⟩
    · next es hget =>
      split at h
      · cases h
      · cases h
        exact setEntry_within hI hs hl hget hkey hpart
    · cases h
  · cases h

end

/-- Whether what an accessor reads of a value in a closed set of places lies there too. Only code brought
from outside is in question. -/
def Reads (R : Set Place) : Accessor → Prop
  | .custom _ get _ => ∀ s v x, s.Closed R → s.Owned → v.Within R → get s v = .ok x → x.Within R
  | _ => True

/-- Whether reading and writing a part keeps to an arena. Only keys and code brought from outside are
in question. -/
def Fits (A : Arena) : Accessor → Prop
  | .item _ key => key.Within A.values
  | .custom n get set =>
    Reads A.values (.custom n get set) ∧
    (∀ s v e, A.Holds s → v.Within A.values → get s v = .error e → A.Admits e) ∧
    (A.Mutable → ∀ s v part, A.Holds s → v.Within A.values → part.Within A.values →
      match set s v part with
      | .ok (w, t) => w.Within A.values ∧ A.Holds t
      | .error e => A.Admits e)
  | _ => True

section

variable {A : Arena} {a : Accessor}

/-- Reading and writing end with the fault of an operation that its operand does not admit. -/
theorem getAttribute_misuse {e : Fault} (h : getAttribute s v name = .error e) : ∃ m, e = .misuse m := by
  unfold getAttribute found at h
  repeat' split at h
  all_goals
    cases h
    try exact ⟨_, rfl⟩

theorem getItem_misuse {key : Value} {e : Fault} (h : getItem s v key = .error e) : ∃ m, e = .misuse m := by
  unfold getItem pick foundUnder at h
  repeat' split at h
  all_goals
    cases h
    try exact ⟨_, rfl⟩

theorem setAttribute_misuse {part : Value} {e : Fault} (h : setAttribute s v name part = .error e) :
    ∃ m, e = .misuse m := by
  unfold setAttribute setAtomAttribute at h
  repeat' split at h
  all_goals
    cases h
    try exact ⟨_, rfl⟩

theorem replace_misuse {xs : List Value} {key part : Value} {e : Fault}
    (h : replace xs key part = .error e) : ∃ m, e = .misuse m := by
  unfold replace at h
  repeat' split at h
  all_goals
    cases h
    try exact ⟨_, rfl⟩

theorem setItem_misuse {key part : Value} {e : Fault} (h : setItem s v key part = .error e) :
    ∃ m, e = .misuse m := by
  have hmap : ∀ {xs : List Value} {f : List Value → Value × Store},
      (replace xs key part).map f = .error e → ∃ m, e = .misuse m := by
    intro xs f h
    cases hr : replace xs key part with
    | error e' =>
      rw [hr] at h
      cases h
      exact replace_misuse hr
    | ok ys =>
      rw [hr] at h
      cases h
  unfold setItem at h
  repeat' split at h
  all_goals
    first
    | exact hmap h
    | (cases h; try exact ⟨_, rfl⟩)

theorem admits_misuse {e : Fault} (h : ∃ m, e = .misuse m) : A.Admits e := by
  obtain ⟨m, rfl⟩ := h
  exact fun _ => nofun

theorem Fits.reads (ha : a.Fits A) : a.Reads A.values := by
  cases a with
  | custom n get set => exact ha.1
  | _ => trivial

/-- The part that an accessor reads lies where the value does. -/
theorem get_within (ha : a.Reads R) (hs : s.Closed R) (ho : s.Owned) (hv : v.Within R)
    (h : a.get s v = .ok x) : x.Within R := by
  cases a with
  | attr n => exact getAttribute_within hs ho hv h
  | item shown key => exact getItem_within hs hv h
  | optionalAttr n =>
    simp only [Accessor.get, getOptional] at h
    split at h
    · next y hy =>
      cases h
      split
      · exact Value.within_absent
      · exact getAttribute_within hs ho hv hy
    · cases h
      exact Value.within_absent
  | variant cls =>
    cases h
    split
    · exact hv
    · exact Value.within_absent
  | custom n get set => exact ha s v x hs ho hv h

theorem get_plain {e : Fault} (ha : a.Fits A) (hs : A.Holds s) (hv : v.Within A.values)
    (h : a.get s v = .error e) : A.Admits e := by
  cases a with
  | attr n => exact admits_misuse (getAttribute_misuse h)
  | item shown key => exact admits_misuse (getItem_misuse h)
  | optionalAttr n =>
    simp only [Accessor.get, getOptional] at h
    split at h <;> cases h
  | variant cls => cases h
  | custom n get set => exact ha.2.1 s v e hs hv h

theorem keeps_holds (hA : A.Mutable) : Keeps A.Holds A.values where
  object := fun hs hl hget => hs.object hl hget
  put := fun hs hl ho hslots => hs.put (hA hl) ho fun vs heq => absurd heq (hslots vs)
  give := fun hs ho hw hv => hs.give ho (hA hw) hv

/-- Storing a part keeps the invariant, and answers a value of the arena. -/
theorem set_within {part w : Value} {t : Store} (ha : a.Fits A) (hA : A.Mutable) (hs : A.Holds s)
    (hv : v.Within A.values) (hpart : part.Within A.values) (h : a.set s v part = .ok (w, t)) :
    w.Within A.values ∧ A.Holds t := by
  cases a with
  | attr n => exact setAttribute_within (keeps_holds hA) hs hv hpart h
  | item shown key => exact setItem_within (keeps_holds hA) hs hv ha hpart h
  | optionalAttr n => exact setAttribute_within (keeps_holds hA) hs hv hpart h
  | variant cls =>
    cases h
    exact ⟨hpart, hs⟩
  | custom n get set =>
    have hset := ha.2.2 hA s v part hs hv hpart
    rw [show set s v part = .ok (w, t) from h] at hset
    exact hset

theorem set_plain {part : Value} {e : Fault} (ha : a.Fits A) (hA : A.Mutable) (hs : A.Holds s)
    (hv : v.Within A.values) (hpart : part.Within A.values) (h : a.set s v part = .error e) :
    A.Admits e := by
  cases a with
  | attr n => exact admits_misuse (setAttribute_misuse h)
  | item shown key => exact admits_misuse (setItem_misuse h)
  | optionalAttr n => exact admits_misuse (setAttribute_misuse h)
  | variant cls => cases h
  | custom n get set =>
    have hset := ha.2.2 hA s v part hs hv hpart
    rw [show set s v part = .error e from h] at hset
    exact hset

end

end Accessor

/-- Storing a part sets the store of the world it is stored in. -/
theorem Act.exec_write {a : Accessor} {v part : Value} {w : World} :
    exec (a.write v part) w =
      match a.set w.store v part with
      | .ok (x, s) => (.ok x, { w with store := s })
      | .error e => (.error e, w) := by
  have hget : exec (getThe World : Act World) w = (.ok w, w) := rfl
  simp only [Accessor.write, exec_bind, hget]
  cases a.set w.store v part with
  | ok p => rfl
  | error e => rfl

/-! ## Rebuilding -/

namespace Store

variable {s t : Store} {R : Set Place} {v w : Value} {xs : List Value}

/-- A value that is made anew of elements is immutable, unless it is a new mapping. -/
theorem remake_cases (hs : s.Closed R) (hv : v.Within R) (hxs : ∀ x ∈ xs, x.Within R)
    (h : s.remake v xs = .ok (w, t)) : (w.Within R ∧ t = s) ∨
      ∃ es, (Object.mapping es).Within R ∧ w = .ref s.size ∧ t = (s.alloc (.mapping es)).2 := by
  unfold remake at h
  split at h
  · cases hj : joinItems (s.viewAll xs) with
    | error e => simp [hj, Except.map] at h
    | ok text =>
      simp only [hj, Except.map, Except.ok.injEq, Prod.mk.injEq] at h
      obtain ⟨rfl, rfl⟩ := h
      exact .inl ⟨Value.within_text, rfl⟩
  · cases hp : packItems (s.viewAll xs) with
    | error e => simp [hp, Except.map] at h
    | ok bs =>
      simp only [hp, Except.map, Except.ok.injEq, Prod.mk.injEq] at h
      obtain ⟨rfl, rfl⟩ := h
      exact .inl ⟨Value.within_bytes, rfl⟩
  · cases h
  · split at h
    · cases h
      exact .inl ⟨Value.within_tuple.mpr hxs, rfl⟩
    · cases h
  · cases h
    exact .inl ⟨Value.within_tuple.mpr hxs, rfl⟩
  · cases hc : s.collectItems xs with
    | error e => simp [hc, Except.map] at h
    | ok ys =>
      simp only [hc, Except.map, Except.ok.injEq, Prod.mk.injEq] at h
      obtain ⟨rfl, rfl⟩ := h
      exact .inl ⟨Value.within_set.mpr (collectItems_within hxs hc), rfl⟩
  · cases hp : s.pairItems xs with
    | error e => simp [hp, Except.map] at h
    | ok es =>
      simp only [hp, Except.map, Except.ok.injEq, Prod.mk.injEq] at h
      obtain ⟨rfl, rfl⟩ := h
      exact .inr ⟨es, Object.within_mapping.mpr (pairItems_within hs hxs hp), rfl, rfl⟩
  · cases h
    exact .inl ⟨hv, rfl⟩

/-- What is made anew of elements is taken only if these are the elements of it. -/
theorem remade_of_ok {d : List Data} {kind : String} {r : Value × Store}
    (h : (match s.remake v xs with
      | .error reason => .error (some ("cannot rebuild " ++ kind ++ ": " ++ reason))
      | .ok (w, t) =>
        if Data.equalAll (t.viewAll ((t.elements? w).getD [])) d then .ok (w, t)
        else .error ((Data.list d).text?.map (("cannot rebuild " ++ kind ++ " from ") ++ ·)) :
      Except (Option String) (Value × Store)) = .ok r) :
    s.remake v xs = .ok r ∧ Data.equalAll (r.2.viewAll ((r.2.elements? r.1).getD [])) d = true := by
  split at h
  · cases h
  · next w t hr =>
    split at h
    · next hequal =>
      cases h
      exact ⟨hr, hequal⟩
    · cases h

/-- Elements are put into a list in place; any other value is made anew. -/
theorem rebuild_cases (hs : s.Closed R) (hv : v.Within R) (hxs : ∀ x ∈ xs, x.Within R)
    (h : s.rebuild v xs = .ok (w, t)) :
    (w = v ∧ ∃ l, v = .ref l ∧ t = s.put l (.list xs)) ∨ (w.Within R ∧ t = s) ∨
      ∃ es, (Object.mapping es).Within R ∧ w = .ref s.size ∧ t = (s.alloc (.mapping es)).2 := by
  unfold rebuild at h
  dsimp only at h
  split at h
  · next l =>
    split at h
    · cases h
      exact .inl ⟨rfl, l, rfl, rfl⟩
    · exact .inr (remake_cases hs hv hxs (remade_of_ok h).1)
  · exact .inr (remake_cases hs hv hxs (remade_of_ok h).1)

/-- Putting elements into a sequence keeps the invariant, and answers a value of the arena. -/
theorem rebuild_within {A : Arena} (hA : A.Mutable) (hs : A.Holds s) (hv : v.Within A.values)
    (hxs : ∀ x ∈ xs, x.Within A.values) (h : s.rebuild v xs = .ok (w, t)) :
    w.Within A.values ∧ A.Holds t := by
  rcases rebuild_cases hs.closed hv hxs h with ⟨rfl, l, rfl, rfl⟩ | ⟨hw, rfl⟩ | ⟨es, hes, rfl, rfl⟩
  · exact ⟨hv, hs.put (hA (Value.within_ref.mp hv)) (Object.within_list.mpr hxs) nofun⟩
  · exact ⟨hw, hs⟩
  · exact ⟨Value.within_ref.mpr (hs.fresh _ (Nat.le_refl _)).2, hs.alloc hes nofun⟩

end Store

end Conform
