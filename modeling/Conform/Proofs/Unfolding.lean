import Conform.Proofs.Lawful
import Conform.Proofs.MutationAttributes
import Conform.Proofs.VerdictScope

/-!
# Finite trees

`Store.Unfolds s xs ls` says that some values are finite trees: following them meets the objects `ls`, each of them as
often as it is listed, and the leaves are plain atoms. No object is met twice if `ls` has no duplicates. A tree is told
by the objects that it meets (`Unfolds.keep`), what an accessor or a sequence has for parts are trees on fewer of them
(`Unfolds.part_attribute`, `Unfolds.part_item`,
`Unfolds.elements`), and no comparison finds a tree different from itself (`Unfolds.equal_self`).
-/

namespace Conform

open Act

/-- Whether an atom is neither a floating-point number nor a byte string. -/
def Atom.IsLeaf : Atom → Prop
  | .float _ | .nan _ | .bytes _ => False
  | _ => True

namespace Store

/-- The enumerations that have been given no attributes. -/
def barren (s : Store) : Set Place := {p | ∃ o, p = .attributes o ∧ s.Barren o}

/-- Whether an object can be part of a tree: it is no cell, no two keys of a mapping are alike, and a record has its
declared fields. -/
def Proper (s : Store) : Object → Prop
  | .list _ => True
  | .mapping es => es.Pairwise fun e e' => ¬ (s.view e.1).alike (s.view e'.1) = true
  | .record cls xs _ => cls.fields.length ≤ xs.length ∧ ∀ p ∈ cls.places, p ∈ s.barren
  | .slots _ => False

/-- Whether values are trees, and which objects are met when they are followed. -/
inductive Unfolds (s : Store) : List Value → List Loc → Prop
  | nil : Unfolds s [] []
  | atom {a : Atom} {xs : List Value} {ls : List Loc} (hleaf : a.IsLeaf) (ha : (Value.atom a).Within s.barren)
    (h : Unfolds s xs ls) : Unfolds s (.atom a :: xs) ls
  | tuple {cls : Option TupleClass} {ys xs : List Value} {ks ls : List Loc} (hy : Unfolds s ys ks)
    (h : Unfolds s xs ls) : Unfolds s (.tuple cls ys :: xs) (ks ++ ls)
  | frozen {cls : RecordClass} {ys xs : List Value} {ks ls : List Loc} (hcls : ∀ p ∈ cls.places, p ∈ s.barren)
    (hy : Unfolds s ys ks) (h : Unfolds s xs ls) :
    Unfolds s (.frozen cls ys :: xs) (ks ++ ls)
  | ref {l : Loc} {o : Object} {xs : List Value} {ks ls : List Loc} (ho : s.get? l = some o) (hproper : s.Proper o)
    (hy : Unfolds s o.values ks) (h : Unfolds s xs ls) : Unfolds s (.ref l :: xs) (l :: ks ++ ls)

/-- The places of a tree: the objects that are met, and the enumerations without attributes. -/
def ground (s : Store) (ls : List Loc) : Set Place := {p | (∃ l ∈ ls, p = .object l) ∨ p ∈ s.barren}

section

variable {s t : Store} {xs ys : List Value} {ks ls : List Loc} {v x : Value} {l : Loc} {a : Atom} {o : Object}

theorem mem_ground : Place.object l ∈ s.ground ls ↔ l ∈ ls := by
  constructor
  · rintro (⟨m, hm, heq⟩ | ⟨o, heq, -⟩)
    · cases heq
      exact hm
    · cases heq
  · exact fun h => .inl ⟨l, h, rfl⟩

theorem ground_mono (h : ks ⊆ ls) : s.ground ks ⊆ s.ground ls :=
  fun _ hp => hp.imp_left fun ⟨l, hl, heq⟩ => ⟨l, h hl, heq⟩

theorem barren_subset : s.barren ⊆ s.ground ls := fun _ hp => .inr hp

theorem SameGiven.barren (h : s.SameGiven t) : t.barren = s.barren := by
  ext p
  exact ⟨fun ⟨o, heq, ho⟩ => ⟨o, heq, ho.keep h.symm⟩, fun ⟨o, heq, ho⟩ => ⟨o, heq, ho.keep h⟩⟩

/-- What has been given no attributes leads nowhere. -/
theorem not_names_barren {p q : Place} (hp : p ∈ s.barren) : ¬ s.Names p q := by
  obtain ⟨o, rfl, -, hnone⟩ := hp
  rintro ⟨b, name, x, hb, hmem, -⟩
  have hsome := hnone b name hb
  rw [given?, Option.map_eq_none_iff, List.find?_eq_none] at hsome
  exact hsome _ hmem (by simp)

namespace Unfolds

/-! ## Putting trees together and taking them apart -/

theorem append (hx : s.Unfolds xs ks) (hy : s.Unfolds ys ls) : s.Unfolds (xs ++ ys) (ks ++ ls) := by
  induction hx with
  | nil => exact hy
  | atom hleaf ha _ ih => exact .atom hleaf ha ih
  | tuple hz _ _ ih =>
    rw [List.append_assoc]
    exact .tuple hz ih
  | frozen hcls hz _ _ ih =>
    rw [List.append_assoc]
    exact .frozen hcls hz ih
  | ref ho hproper hz _ _ ih =>
    rw [List.append_assoc]
    exact .ref ho hproper hz ih

theorem of_cons (h : s.Unfolds (x :: xs) ls) :
    ∃ ks ms, ls = ks ++ ms ∧ s.Unfolds [x] ks ∧ s.Unfolds xs ms := by
  cases h with
  | atom hleaf ha h => exact ⟨[], ls, rfl, .atom hleaf ha .nil, h⟩
  | tuple hy h => exact ⟨_, _, rfl, by simpa using Unfolds.tuple hy .nil, h⟩
  | frozen hcls hy h => exact ⟨_, _, rfl, by simpa using Unfolds.frozen hcls hy .nil, h⟩
  | ref ho hproper hy h => exact ⟨_, _, rfl, by simpa using Unfolds.ref ho hproper hy .nil, h⟩

theorem of_append (h : s.Unfolds (xs ++ ys) ls) :
    ∃ ks ms, ls = ks ++ ms ∧ s.Unfolds xs ks ∧ s.Unfolds ys ms := by
  induction xs generalizing ls with
  | nil => exact ⟨[], ls, rfl, .nil, h⟩
  | cons x xs ih =>
    obtain ⟨ks, ms, rfl, hx, hrest⟩ := of_cons h
    obtain ⟨ks', ms', rfl, hxs, hys⟩ := ih hrest
    exact ⟨ks ++ ks', ms', (List.append_assoc ..).symm, hx.append hxs, hys⟩

theorem sublist (h : s.Unfolds ys ls) (hsub : xs.Sublist ys) : ∃ ks, s.Unfolds xs ks ∧ ks.Sublist ls := by
  induction hsub generalizing ls with
  | slnil => exact ⟨ls, h, .refl _⟩
  | cons y _ ih =>
    obtain ⟨ks, ms, rfl, -, hrest⟩ := h.of_cons
    obtain ⟨ks', hks', hsub⟩ := ih hrest
    exact ⟨ks', hks', hsub.trans (List.sublist_append_right ..)⟩
  | cons_cons y _ ih =>
    obtain ⟨ks, ms, rfl, hy, hrest⟩ := h.of_cons
    obtain ⟨ks', hks', hsub⟩ := ih hrest
    exact ⟨ks ++ ks', hy.append hks', (List.Sublist.refl ks).append hsub⟩

theorem mem (h : s.Unfolds xs ls) (hx : x ∈ xs) : ∃ ks, s.Unfolds [x] ks ∧ ks.Sublist ls :=
  h.sublist (List.singleton_sublist.mpr hx)

/-- Values without parts are trees. -/
theorem leaves (h : ∀ x ∈ xs, ∃ a : Atom, x = .atom a ∧ a.IsLeaf ∧ x.Within s.barren) : s.Unfolds xs [] := by
  induction xs with
  | nil => exact .nil
  | cons x xs ih =>
    rw [List.forall_mem_cons] at h
    obtain ⟨⟨a, rfl, hleaf, ha⟩, hxs⟩ := h
    exact .atom hleaf ha (ih hxs)

/-- The objects below an object. -/
theorem of_ref (h : s.Unfolds [.ref l] ls) (ho : s.get? l = some o) :
    ∃ ks, s.Proper o ∧ s.Unfolds o.values ks ∧ ls = l :: ks := by
  cases h with
  | ref ho' hproper hy h =>
    cases h
    cases ho.symm.trans ho'
    exact ⟨_, hproper, hy, List.append_nil _⟩

theorem of_atom (h : s.Unfolds [.atom a] ls) : a.IsLeaf ∧ (Value.atom a).Within s.barren ∧ ls = [] := by
  cases h with
  | atom hleaf ha h =>
    cases h
    exact ⟨hleaf, ha, rfl⟩

theorem of_tuple {cls : Option TupleClass} (h : s.Unfolds [.tuple cls ys] ls) : s.Unfolds ys ls := by
  cases h with
  | tuple hy h =>
    cases h
    rwa [List.append_nil]

theorem of_frozen {cls : RecordClass} (h : s.Unfolds [.frozen cls ys] ls) : s.Unfolds ys ls := by
  cases h with
  | frozen hcls hy h =>
    cases h
    rwa [List.append_nil]

/-! ## Where trees lie -/

theorem lt (h : s.Unfolds xs ls) : ∀ l ∈ ls, l < s.size := by
  induction h with
  | nil => simp
  | atom _ _ _ ih => exact ih
  | tuple _ _ ihy ih | frozen _ _ _ ihy ih =>
    intro l hl
    exact (List.mem_append.mp hl).elim (ihy l) (ih l)
  | ref ho _ _ _ ihy ih =>
    intro l hl
    rcases List.mem_append.mp hl with hl | hl
    · rcases List.mem_cons.mp hl with rfl | hl
      · exact lt_size_of_get? ho
      · exact ihy l hl
    · exact ih l hl

theorem within (h : s.Unfolds xs ls) : ∀ x ∈ xs, x.Within (s.ground ls) := by
  induction h with
  | nil => simp
  | atom _ ha _ ih => exact List.forall_mem_cons.mpr ⟨ha.mono barren_subset, ih⟩
  | tuple _ _ ihy ih =>
    refine List.forall_mem_cons.mpr ⟨Value.within_tuple.mpr fun y hy => ?_, fun x hx => ?_⟩
    · exact (ihy y hy).mono (ground_mono (List.subset_append_left ..))
    · exact (ih x hx).mono (ground_mono (List.subset_append_right ..))
  | frozen hcls _ _ ihy ih =>
    refine List.forall_mem_cons.mpr ⟨Value.within_frozen.mpr ⟨fun p hp => barren_subset (hcls p hp), fun y hy => ?_⟩,
      fun x hx => ?_⟩
    · exact (ihy y hy).mono (ground_mono (List.subset_append_left ..))
    · exact (ih x hx).mono (ground_mono (List.subset_append_right ..))
  | ref _ _ _ _ _ ih =>
    refine List.forall_mem_cons.mpr ⟨Value.within_ref.mpr (mem_ground.mpr (by simp)), fun x hx => ?_⟩
    exact (ih x hx).mono (ground_mono (List.subset_append_right ..))

/-- The objects of a tree name places of the tree. -/
theorem objects (h : s.Unfolds xs ls) : ∀ l ∈ ls, ∃ o, s.get? l = some o ∧ o.Within (s.ground ls) := by
  induction h with
  | nil => simp
  | atom _ _ _ ih => exact ih
  | tuple _ _ ihy ih | frozen _ _ _ ihy ih =>
    intro l hl
    rcases List.mem_append.mp hl with hl | hl
    · obtain ⟨o, ho, hwithin⟩ := ihy l hl
      exact ⟨o, ho, hwithin.mono (ground_mono (List.subset_append_left ..))⟩
    · obtain ⟨o, ho, hwithin⟩ := ih l hl
      exact ⟨o, ho, hwithin.mono (ground_mono (List.subset_append_right ..))⟩
  | @ref l o _ ks ls ho hproper hy _ ihy ih =>
    intro m hm
    rcases List.mem_append.mp hm with hm | hm
    · rcases List.mem_cons.mp hm with rfl | hm
      · refine ⟨o, ho, fun p hp => ?_⟩
        rcases List.mem_append.mp hp with hp | hp
        · obtain ⟨y, hmem, hp⟩ := Value.mem_placesAll.mp hp
          exact ground_mono (by simp) (hy.within y hmem p hp)
        · cases o with
          | record cls zs extras => exact barren_subset (hproper.2 p hp)
          | _ => cases hp
      · obtain ⟨o', ho', hwithin⟩ := ihy m hm
        exact ⟨o', ho', hwithin.mono (ground_mono fun k hk => by simp [hk])⟩
    · obtain ⟨o', ho', hwithin⟩ := ih m hm
      exact ⟨o', ho', hwithin.mono (ground_mono (List.subset_append_right ..))⟩

theorem region (h : s.Unfolds xs ls) : s.Region (s.ground ls) where
  closed := by
    rintro p (⟨l, hl, rfl⟩ | hp) q hq
    · obtain ⟨o, ho, hwithin⟩ := h.objects l hl
      obtain ⟨o', ho', hq⟩ := hq
      cases ho.symm.trans ho'
      exact hwithin q hq
    · exact absurd hq (not_names_barren hp)
  bounded := fun l hl => h.lt l (mem_ground.mp hl)

theorem bound (h : s.Unfolds xs ls) : ∀ x ∈ xs, x.bound ≤ s.size := fun x hx =>
  Value.within_upTo.mp fun p hp l heq => h.region.bounded l (heq ▸ h.within x hx p hp)

/-- The object that a value is belongs to its tree. -/
theorem root_mem (h : s.Unfolds [.ref l] ls) : l ∈ ls :=
  mem_ground.mp (Value.within_ref.mp (h.within _ (List.mem_singleton_self _)))

/-! ## Trees in other stores -/

/-- A store with the same objects and attributes looks the same to a tree. -/
theorem image (h : s.Unfolds xs ls) (hs : s.Owned) (hsame : ∀ l ∈ ls, t.get? l = s.get? l) (hgiven : s.SameGiven t) :
    Image ⟨id, id⟩ (s.ground ls) True s t :=
  Image.of_sameGiven h.region hs (fun l hl => hsame l (mem_ground.mp hl)) hgiven

theorem keep (h : s.Unfolds xs ls) (hs : s.Owned) (hsame : ∀ l ∈ ls, t.get? l = s.get? l) (hgiven : s.SameGiven t) :
    t.Unfolds xs ls := by
  induction h with
  | nil => exact .nil
  | atom hleaf ha _ ih =>
    rw [← hgiven.barren] at ha
    exact .atom hleaf ha (ih hsame)
  | tuple _ _ ihy ih =>
    exact .tuple (ihy fun l hl => hsame l (List.mem_append_left _ hl))
      (ih fun l hl => hsame l (List.mem_append_right _ hl))
  | frozen hcls _ _ ihy ih =>
    rw [← hgiven.barren] at hcls
    exact .frozen hcls (ihy fun l hl => hsame l (List.mem_append_left _ hl))
      (ih fun l hl => hsame l (List.mem_append_right _ hl))
  | @ref l o _ ks ls ho hproper hy _ ihy ih =>
    have hbelow : ∀ k ∈ ks, t.get? k = s.get? k := fun k hk => hsame k (by simp [hk])
    refine .ref ((hsame l (by simp)).trans ho) ?_ (ihy hbelow) (ih fun k hk => hsame k (by simp [hk]))
    cases o with
    | list zs => trivial
    | mapping es =>
      have hview : ∀ e ∈ es, t.view e.1 = s.view e.1 := fun e he =>
        (hy.image hs hbelow hgiven).view_same (hy.within e.1 (List.mem_flatMap.mpr ⟨e, he, by simp⟩))
      exact hproper.imp_of_mem fun {e e'} he he' hne => by rwa [hview e he, hview e' he']
    | record cls zs extras => exact ⟨hproper.1, by rw [hgiven.barren]; exact hproper.2⟩
    | slots vs => exact hproper.elim

/-! ## Parts -/

/-- Whether a part that is read of a tree is a tree on some of the objects, the value itself not among them, and is
read as long as the other objects stay. -/
structure Part (s : Store) (read : Store → Except Fault Value) (v x : Value) (ls ks : List Loc) : Prop where
  tree : s.Unfolds [x] ks
  sub : ks.Sublist ls
  root : ∀ l, v = .ref l → l ∉ ks
  again : ∀ t, s.SameGiven t → (∀ l ∈ ls, l ∉ ks → t.get? l = s.get? l) → read t = .ok x

/-- The value of an entry of a mapping is apart from all keys, which stay the same while it changes. -/
theorem entry {es : List (Value × Value)} {e : Value × Value} (h : s.Unfolds (Object.mapping es).values ls)
    (hnd : ls.Nodup) (hs : s.Owned) (he : e ∈ es) : ∃ ks, s.Unfolds [e.2] ks ∧ ks.Sublist ls ∧
      ∀ t, s.SameGiven t → (∀ l ∈ ls, l ∉ ks → t.get? l = s.get? l) → ∀ k ∈ es.map (·.1), t.view k = s.view k := by
  obtain ⟨es, fs, rfl⟩ := List.append_of_mem he
  -- the objects of the value stand in a row between those of what comes before it and after it
  have hsplit : (Object.mapping (es ++ e :: fs)).values =
      ((es.flatMap fun e => [e.1, e.2]) ++ [e.1]) ++ ([e.2] ++ fs.flatMap fun e => [e.1, e.2]) := by
    simp [Object.values]
  rw [hsplit] at h
  obtain ⟨ls₁, ls₂, rfl, hbefore, h⟩ := of_append h
  obtain ⟨ks, ls₃, rfl, he, hafter⟩ := of_append h
  refine ⟨ks, he, (List.sublist_append_left ..).trans (List.sublist_append_right ..), fun t hgiven hsame k hk => ?_⟩
  have hkey : ∀ {zs : List Value} {ms : List Loc}, s.Unfolds zs ms → (∀ l ∈ ms, l ∈ ls₁ ++ (ks ++ ls₃) ∧ l ∉ ks) →
      k ∈ zs → t.view k = s.view k := by
    intro zs ms hzs hms hk
    obtain ⟨js, hjs, hsub⟩ := hzs.mem hk
    have himage := hjs.image hs (fun l hl => hsame l (hms l (hsub.subset hl)).1 (hms l (hsub.subset hl)).2) hgiven
    exact himage.view_same (hjs.within k (List.mem_singleton_self k))
  rw [List.nodup_append] at hnd
  obtain ⟨-, hnd, hdisjoint⟩ := hnd
  rw [List.nodup_append] at hnd
  obtain ⟨-, -, hdisjoint'⟩ := hnd
  obtain ⟨e', he', rfl⟩ := List.mem_map.mp hk
  rcases List.mem_append.mp he' with he' | he'
  · refine hkey hbefore (fun l hl => ⟨by simp [hl], fun hmem => ?_⟩) ?_
    · exact hdisjoint l hl l (by simp [hmem]) rfl
    · exact List.mem_append_left _ (List.mem_flatMap.mpr ⟨e', he', by simp⟩)
  · rcases List.mem_cons.mp he' with rfl | he'
    · refine hkey hbefore (fun l hl => ⟨by simp [hl], fun hmem => ?_⟩) (by simp)
      exact hdisjoint l hl l (by simp [hmem]) rfl
    · refine hkey hafter (fun l hl => ⟨by simp [hl], fun hmem => ?_⟩) (List.mem_flatMap.mpr ⟨e', he', by simp⟩)
      exact hdisjoint' l hmem l hl rfl

/-- No object is below itself. -/
theorem root_of_nodup (hnd : (l :: ls).Nodup) (hsub : ks.Sublist ls) : ∀ m, Value.ref l = .ref m → m ∉ ks := by
  rintro m ⟨⟩ hmem
  exact (List.nodup_cons.mp hnd).1 (hsub.subset hmem)

end Unfolds

end

/-! ### Attributes and items -/

section

variable {s : Store} {a : Atom} {x : Value} {name : String}

theorem closed_barren : s.Closed s.barren := fun _ hp _ hq => absurd hq (not_names_barren hp)

theorem leaf_of_inherent (ha : a.IsInherent) : a.IsLeaf := by
  cases a with
  | float | nan | bytes => exact ha
  | _ => trivial

theorem leaf_payloadValue (p : Payload) : ∃ b : Atom, Accessor.payloadValue p = .atom b ∧ b.IsLeaf := by
  cases p <;> exact ⟨_, rfl, trivial⟩

theorem leaf_numberAttributes (ha : a.IsLeaf) :
    ∀ e ∈ Accessor.numberAttributes a, ∃ b : Atom, e.2 = .atom b ∧ b.IsLeaf := by
  have hfloat : ¬ a.isFloat = true := by cases a <;> first | exact Bool.false_ne_true | exact ha.elim
  rw [Accessor.numberAttributes, if_neg hfloat]
  intro e he
  cases hn : a.integer? with
  | none => simp [hn] at he
  | some n =>
    simp only [hn, Option.map_some, Option.getD_some, Accessor.integerAttributes, List.mem_cons, List.not_mem_nil,
      or_false] at he
    rcases he with rfl | rfl | rfl | rfl <;> exact ⟨_, rfl, trivial⟩

/-- What an atom has from its class is an atom. -/
theorem leaf_fixedAttribute? (ha : a.IsLeaf) (h : Accessor.fixedAttribute? a name = some x) :
    ∃ b : Atom, x = .atom b ∧ b.IsLeaf := by
  unfold Accessor.fixedAttribute? at h
  split at h
  · next cls i =>
    obtain ⟨e, he, rfl⟩ := Accessor.mem_of_lookup h
    rcases List.mem_append.mp he with he | he
    · unfold Accessor.memberAttributes at he
      split at he
      · simp only [List.mem_cons, List.not_mem_nil, or_false] at he
        rcases he with rfl | rfl
        · exact ⟨_, rfl, trivial⟩
        · exact leaf_payloadValue _
      · cases he
    · exact leaf_numberAttributes ha e he
  · obtain ⟨i, -, rfl⟩ := Option.map_eq_some_iff.mp h
    exact ⟨_, rfl, trivial⟩
  · obtain ⟨e, he, rfl⟩ := Accessor.mem_of_lookup h
    exact leaf_numberAttributes ha e he

/-- Nothing has been given to what takes attributes, and nothing can be to all else. -/
theorem given?_of_barren (hs : s.Owned) (h : (Value.atom a).Within s.barren) : s.given? a name = none := by
  cases ho : a.owner? with
  | none => exact Accessor.given?_plain hs ho name
  | some o =>
    obtain ⟨o', heq, -, hnone⟩ := Value.within_atom.mp h o ho
    cases heq
    exact hnone a name ho

/-- Without given attributes there are only those of the class, which are atoms. -/
theorem leaf_atomAttribute? (hs : s.Owned) (ha : a.IsLeaf) (hwithin : (Value.atom a).Within s.barren)
    (h : Accessor.atomAttribute? s a name = some x) : ∃ b : Atom, x = .atom b ∧ b.IsLeaf := by
  simp only [Accessor.atomAttribute?, given?_of_barren hs hwithin, Option.or_none, Option.or_eq_some_iff] at h
  rcases h with hfixed | ⟨-, hown⟩
  · exact leaf_fixedAttribute? ha hfixed
  · obtain ⟨b, rfl, hb⟩ := Accessor.ownAttribute?_inherent hown
    exact ⟨b, rfl, leaf_of_inherent hb⟩

theorem SameGiven.atomAttribute? {t : Store} (h : s.SameGiven t) :
    Accessor.atomAttribute? t a name = Accessor.atomAttribute? s a name := by
  simp only [Accessor.atomAttribute?, h a name]

namespace Unfolds

variable {t : Store} {v key : Value} {ls : List Loc} {xs : List Value}

/-- A part that is an atom lies on no object. -/
theorem Part.leaf {read : Store → Except Fault Value} (hx : ∃ b : Atom, x = .atom b ∧ b.IsLeaf)
    (hwithin : x.Within s.barren)
    (hagain : ∀ t, s.SameGiven t → (∀ l ∈ ls, t.get? l = s.get? l) → read t = .ok x) : Part s read v x ls [] where
  tree := leaves fun y hy => by
    obtain rfl := List.mem_singleton.mp hy
    obtain ⟨b, rfl, hb⟩ := hx
    exact ⟨b, rfl, hb, hwithin⟩
  sub := List.nil_sublist _
  root := fun _ _ => List.not_mem_nil
  again := fun t ht hsame => hagain t ht fun l hl => hsame l hl List.not_mem_nil

/-- What a class passes on is part of no object. -/
theorem Part.of_class {read : Store → Except Fault Value} {className shown : String}
    (hx : inherited? className shown name = some x)
    (hagain : ∀ t, s.SameGiven t → (∀ l ∈ ls, t.get? l = s.get? l) → read t = .ok x) :
    ∃ ks, Part s read v x ls ks := by
  obtain ⟨b, rfl, hb⟩ := inherited?_inherent hx
  exact ⟨[], .leaf ⟨b, rfl, leaf_of_inherent hb⟩ (Accessor.inherent_within hb) hagain⟩

theorem mem_of_field? {names : List String} (h : Accessor.field? names xs name = some x) : x ∈ xs := by
  unfold Accessor.field? at h
  split at h
  · exact List.mem_of_getElem? h
  · cases h

theorem field_or_inherited {names : List String} {className : String}
    (h : Accessor.fieldOrInherited? names xs className name = some x) :
    x ∈ xs ∨ inherited? className "" name = some x := by
  unfold Accessor.fieldOrInherited? at h
  split at h
  · exact .inl (List.mem_of_getElem? h)
  · exact .inr h

theorem mem_of_pick (h : Accessor.pick xs key = .ok x) : x ∈ xs := by
  obtain ⟨k, i, hk, hi⟩ := Accessor.exists_index_of_pick h
  exact List.mem_of_getElem? ((Accessor.pick_iff hk hi).mp h)

theorem mem_of_attribute? {cls : RecordClass} {extras : List (String × Value)}
    (h : Accessor.attribute? cls xs extras name = some x) : x ∈ xs ++ extras.map (·.2) := by
  unfold Accessor.attribute? at h
  split at h
  · next hfield =>
    cases h
    exact List.mem_append_left _ (mem_of_field? hfield)
  · obtain ⟨e, he, rfl⟩ := Option.map_eq_some_iff.mp h
    exact List.mem_append_right _ (List.mem_map.mpr ⟨e, List.mem_of_find?_eq_some he, rfl⟩)

/-- A part of an object whose other parts do not matter for reading it. -/
theorem Part.of_object {read : Store → Except Fault Value} {l : Loc} {o : Object} (h : s.Unfolds [.ref l] ls)
    (hnd : ls.Nodup) (ho : s.get? l = some o) (hx : x ∈ o.values)
    (hagain : ∀ t, s.SameGiven t → t.get? l = some o → read t = .ok x) : ∃ ks, Part s read (.ref l) x ls ks := by
  obtain ⟨js, -, hvalues, rfl⟩ := h.of_ref ho
  obtain ⟨ks, htree, hsub⟩ := hvalues.mem hx
  have hroot := root_of_nodup hnd hsub
  refine ⟨ks, htree, hsub.trans (List.sublist_cons_self ..), hroot, fun t hgiven hsame => hagain t hgiven ?_⟩
  rw [hsame l (List.mem_cons_self ..) (hroot l rfl), ho]

/-- A part of a mapping, which is found as long as the keys stay. -/
theorem Part.of_mapping {read : Store → Except Fault Value} {l : Loc} {es : List (Value × Value)} {d : Data}
    (h : s.Unfolds [.ref l] ls) (hnd : ls.Nodup) (hs : s.Owned) (hes : s.get? l = some (.mapping es))
    (hx : s.lookup es d = some x)
    (hagain : ∀ t, s.SameGiven t → t.get? l = some (.mapping es) → t.lookup es d = some x → read t = .ok x) :
    ∃ ks, Part s read (.ref l) x ls ks := by
  obtain ⟨js, -, hvalues, rfl⟩ := h.of_ref hes
  obtain ⟨e, he, rfl⟩ := Option.map_eq_some_iff.mp hx
  obtain ⟨ks, htree, hsub, hkeys⟩ :=
    hvalues.entry (List.nodup_cons.mp hnd).2 hs (List.mem_of_find?_eq_some he)
  have hroot := root_of_nodup hnd hsub
  refine ⟨ks, htree, hsub.trans (List.sublist_cons_self ..), hroot, fun t hgiven hsame => hagain t hgiven ?_ ?_⟩
  · rw [hsame l (List.mem_cons_self ..) (hroot l rfl), hes]
  · have hview : ∀ e ∈ es, t.view e.1 = s.view e.1 := fun e he =>
      hkeys t hgiven (fun m hm hnot => hsame m (List.mem_cons_of_mem _ hm) hnot) e.1 (List.mem_map.mpr ⟨e, he, rfl⟩)
    rw [lookup_congr hview, hx]

/-- An attribute of a tree is a tree. -/
theorem part_attribute (h : s.Unfolds [v] ls) (hnd : ls.Nodup) (hs : s.Owned)
    (hx : Accessor.getAttribute s v name = .ok x) : ∃ ks, Part s (Accessor.getAttribute · v name) v x ls ks := by
  cases v with
  | atom a =>
    obtain ⟨hleaf, hwithin, rfl⟩ := h.of_atom
    have hatom : Accessor.atomAttribute? s a name = some x := Accessor.eq_some_of_found hx
    refine ⟨[], .leaf (leaf_atomAttribute? hs hleaf hwithin hatom) ?_ fun t ht _ => ?_⟩
    · exact Accessor.atomAttribute?_within closed_barren hs hwithin hatom
    · simp only [Accessor.getAttribute, ht.atomAttribute?, hatom, Accessor.found]
  | tuple cls ys =>
    cases cls with
    | none => exact Part.of_class (Accessor.eq_some_of_found hx) fun t _ _ => hx
    | some cls =>
      rcases field_or_inherited (Accessor.eq_some_of_found hx) with hmem | hclass
      · obtain ⟨ks, htree, hsub⟩ := h.of_tuple.mem hmem
        exact ⟨ks, htree, hsub, (fun l hl => by cases hl), fun t _ _ => hx⟩
      · exact Part.of_class hclass fun t _ _ => hx
  | set ys => exact Part.of_class (Accessor.eq_some_of_found hx) fun t _ _ => hx
  | frozen cls ys =>
    rcases field_or_inherited (Accessor.eq_some_of_found hx) with hmem | hclass
    · obtain ⟨ks, htree, hsub⟩ := h.of_frozen.mem hmem
      exact ⟨ks, htree, hsub, (fun l hl => by cases hl), fun t _ _ => hx⟩
    · exact Part.of_class hclass fun t _ _ => hx
  | ref l =>
    have hread := hx
    unfold Accessor.getAttribute at hx
    simp only at hx
    split at hx
    · next es hes =>
      refine Part.of_mapping h hnd hs hes (Accessor.eq_some_of_found hx) fun t _ ht hlookup => ?_
      simp only [Accessor.getAttribute, ht, hlookup, Accessor.found]
    · next o hnot ho =>
      have hagain : ∀ t, t.get? l = s.get? l → Accessor.getAttribute t (.ref l) name = .ok x := fun t ht => by
        simp only [Accessor.getAttribute, ht, ho]
        exact hx
      have hattribute := Accessor.eq_some_of_found hx
      obtain ⟨js, -, -, rfl⟩ := h.of_ref ho
      cases o with
      | list ys => exact Part.of_class hattribute fun t _ ht => hagain t (ht l (List.mem_cons_self ..))
      | mapping es => exact absurd rfl (hnot es)
      | record cls fields extras =>
        rcases Option.or_eq_some_iff.mp hattribute with hown | ⟨-, hclass⟩
        · exact Part.of_object h hnd ho (mem_of_attribute? hown) fun t _ ht => hagain t (ht.trans ho.symm)
        · exact Part.of_class hclass fun t _ ht => hagain t (ht l (List.mem_cons_self ..))
      | slots vs => cases hattribute
    · cases hx

/-- An item of a tree is a tree. -/
theorem part_item (h : s.Unfolds [v] ls) (hnd : ls.Nodup) (hs : s.Owned) (hkey : key.places = [])
    (hx : Accessor.getItem s v key = .ok x) : ∃ ks, Part s (Accessor.getItem · v key) v x ls ks := by
  have hview : ∀ t, s.SameGiven t → t.view key = s.view key := fun t ht => by
    have himage : Image ⟨id, id⟩ ∅ True s t := Image.of_sameGiven ⟨fun _ hp => hp.elim, fun _ hl => hl.elim⟩ hs
      (fun _ hl => hl.elim) ht
    exact himage.view_same fun p hp => by rw [hkey] at hp; cases hp
  have hread := hx
  unfold Accessor.getItem at hx
  split at hx
  · next text =>
    obtain ⟨c, -, rfl⟩ := List.mem_map.mp (mem_of_pick hx)
    exact ⟨[], .leaf ⟨_, rfl, trivial⟩ Value.within_text fun t _ _ => hread⟩
  · next bs => exact h.of_atom.1.elim
  · next cls =>
    have hmember := Accessor.foundUnder_ok hx
    split at hmember
    · next name =>
      have hwithin := Accessor.member?_within (Value.within_atom.mp h.of_atom.2.1 _ rfl) hmember
      obtain ⟨i, -, rfl⟩ := Option.map_eq_some_iff.mp hmember
      exact ⟨[], .leaf ⟨_, rfl, trivial⟩ hwithin fun t _ _ => hread⟩
    · cases hmember
  · next cls ys =>
    obtain ⟨ks, htree, hsub⟩ := h.of_tuple.mem (mem_of_pick hx)
    exact ⟨ks, htree, hsub, (fun l hl => by cases hl), fun t _ _ => hread⟩
  · next l =>
    split at hx
    · next xs ho =>
      refine Part.of_object h hnd ho (mem_of_pick hx) fun t _ ht => ?_
      simp only [Accessor.getItem, ht, hx]
    · next es hes =>
      refine Part.of_mapping h hnd hs hes (Accessor.foundUnder_ok hx) fun t hgiven ht hlookup => ?_
      rw [Accessor.foundUnder_ok hx] at hx
      simpa only [Accessor.getItem, ht, hview t hgiven, hlookup, Accessor.foundUnder] using hx
    · cases hx
  · cases hx

/-- The elements of a tree are trees, on other objects than the value itself. -/
theorem elements (h : s.Unfolds [v] ls) (hnd : ls.Nodup) (hxs : s.elements? v = some xs) :
    ∃ ks, s.Unfolds xs ks ∧ ks.Sublist ls ∧ ∀ l, v = .ref l → l ∉ ks := by
  unfold Store.elements? at hxs
  split at hxs
  · cases hxs
    refine ⟨[], leaves fun x hx => ?_, List.nil_sublist _, fun _ _ => List.not_mem_nil⟩
    obtain ⟨c, -, rfl⟩ := List.mem_map.mp hx
    exact ⟨_, rfl, trivial, Value.within_text⟩
  · exact h.of_atom.1.elim
  · next cls =>
    cases hxs
    refine ⟨[], leaves fun x hx => ?_, List.nil_sublist _, fun _ _ => List.not_mem_nil⟩
    obtain ⟨i, -, rfl⟩ := List.mem_map.mp hx
    exact ⟨_, rfl, trivial, Value.within_member.mpr (Value.within_atom.mp h.of_atom.2.1 _ rfl)⟩
  · cases hxs
    exact ⟨ls, h.of_tuple, .refl _, fun l hl => by cases hl⟩
  · next ys => cases h
  · next l =>
    split at hxs
    · next ys ho =>
      cases hxs
      obtain ⟨ks, -, htree, rfl⟩ := h.of_ref ho
      exact ⟨ks, htree, List.sublist_cons_self .., root_of_nodup hnd (.refl _)⟩
    · next es hes =>
      cases hxs
      obtain ⟨js, -, htree, rfl⟩ := h.of_ref hes
      have hkeys : (es.map (·.1)).Sublist (Object.mapping es).values := by
        clear h htree hes hnd
        induction es with
        | nil => exact .refl _
        | cons e es ih => exact (ih.cons e.2).cons_cons e.1
      obtain ⟨ks, hks, hsub⟩ := htree.sublist hkeys
      exact ⟨ks, hks, hsub.trans (List.sublist_cons_self ..), root_of_nodup hnd hsub⟩
    · cases hxs
  · cases hxs

end Unfolds

end

/-! ### Comparisons -/

section

variable {s : Store} {equal? : Value → Value → Option Bool} {v : Value} {xs : List Value} {ls : List Loc}

theorem alike?_self (h : equal? v v ≠ some false) : alike? equal? v v ≠ some false := by
  unfold alike?
  split
  · exact fun h => by cases h
  · exact h

theorem allAlike?_self (h : ∀ x ∈ xs, alike? equal? x x ≠ some false) : allAlike? equal? xs xs ≠ some false := by
  induction xs with
  | nil => exact fun h => by cases h
  | cons x xs ih =>
    rw [List.forall_mem_cons] at h
    rw [allAlike?]
    cases hx : alike? equal? x x with
    | none => exact fun h => by cases h
    | some b =>
      cases b with
      | true => exact ih h.2
      | false => exact absurd hx h.1

/-- The value under a key that no other key is like. -/
theorem lookup_own {es : List (Value × Value)} {e : Value × Value}
    (h : es.Pairwise fun e e' => ¬ (s.view e.1).alike (s.view e'.1) = true) (he : e ∈ es) :
    s.lookup es (s.view e.1) = some e.2 := by
  induction es with
  | nil => cases he
  | cons e' es ih =>
    rw [List.pairwise_cons] at h
    rw [lookup_cons]
    rcases List.mem_cons.mp he with rfl | he
    · rw [if_pos (Data.alike_self _)]
    · rw [if_neg (h.1 e he), ih h.2 he]

theorem entriesAlike?_self {fs : List (Value × Value)} : ∀ {es : List (Value × Value)},
    (∀ e ∈ es, s.lookup fs (s.view e.1) = some e.2) → (∀ e ∈ es, alike? equal? e.2 e.2 ≠ some false) →
      s.entriesAlike? equal? fs es ≠ some false
  | [], _, _ => fun h => by cases h
  | (k, x) :: es, hkeys, hvalues => by
    rw [List.forall_mem_cons] at hkeys hvalues
    simp only [entriesAlike?, hkeys.1]
    cases hx : alike? equal? x x with
    | none => exact fun h => by cases h
    | some b =>
      cases b with
      | true => exact entriesAlike?_self hkeys.2 hvalues.2
      | false => exact absurd hx hvalues.1

/-- No comparison finds a tree different from itself. -/
theorem Unfolds.equal_self (h : s.Unfolds xs ls) : ∀ x ∈ xs, ∀ n, s.equalWithin? n x x ≠ some false := by
  induction h with
  | nil => exact List.forall_mem_nil _
  | @atom a _ _ hleaf _ _ ih =>
    refine List.forall_mem_cons.mpr ⟨fun n => ?_, ih⟩
    cases n with
    | zero => exact fun h => by cases h
    | succ n =>
      rw [equalWithin?, Atom.equal_self (by rintro m rfl; exact hleaf)]
      exact fun h => by cases h
  | tuple _ _ ihy ih =>
    refine List.forall_mem_cons.mpr ⟨fun n => ?_, ih⟩
    cases n with
    | zero => exact fun h => by cases h
    | succ n => exact allAlike?_self fun y hy => alike?_self (ihy y hy n)
  | frozen _ _ _ ihy ih =>
    refine List.forall_mem_cons.mpr ⟨fun n => ?_, ih⟩
    cases n with
    | zero => exact fun h => by cases h
    | succ n =>
      rw [equalWithin?, if_pos rfl]
      exact allAlike?_self fun y hy => alike?_self (ihy y hy n)
  | @ref l o _ _ _ ho hproper hy _ ihy ih =>
    refine List.forall_mem_cons.mpr ⟨fun n => ?_, ih⟩
    cases n with
    | zero => exact fun h => by cases h
    | succ n =>
      have hbelow : ∀ y ∈ o.values, alike? (s.equalWithin? n) y y ≠ some false := fun y hy => alike?_self (ihy y hy n)
      rw [equalWithin?, ho]
      cases o with
      | list zs =>
        simp only [if_true]
        exact allAlike?_self hbelow
      | mapping es =>
        simp only [if_true]
        exact entriesAlike?_self (fun e he => lookup_own hproper he)
          fun e he => hbelow e.2 (List.mem_flatMap.mpr ⟨e, he, by simp⟩)
      | record cls zs extras =>
        simp only [if_true]
        exact allAlike?_self fun y hy => hbelow y (List.mem_append_left _ hy)
      | slots zs => exact hproper.elim

mutual

/-- Nor does it find a value different from itself that refers to no objects, unless it is a NaN. -/
theorem equalWithin?_self : ∀ {v : Value}, v.refs = [] → (∀ m, v ≠ .atom (.nan m)) → ∀ n,
    s.equalWithin? n v v ≠ some false
  | _, _, _, 0 => fun h => by cases h
  | .atom a, _, hnan, n + 1 => by
    rw [equalWithin?, Atom.equal_self fun m hm => hnan m (by rw [hm])]
    exact fun h => by cases h
  | .tuple cls ys, hrefs, _, n + 1 => allAlike?_self (alike?_self_all hrefs n)
  | .set ys, _, _, n + 1 => by
    rw [equalWithin?, Accessor.equal_self_view (by rintro ⟨c, hc⟩; cases hc)]
    exact fun h => by cases h
  | .frozen cls ys, hrefs, _, n + 1 => by
    rw [equalWithin?, if_pos rfl]
    exact allAlike?_self (alike?_self_all hrefs n)
  | .ref l, hrefs, _, _ => by cases hrefs

theorem alike?_self_all : ∀ {xs : List Value}, Value.refsAll xs = [] → ∀ n, ∀ x ∈ xs,
    alike? (s.equalWithin? n) x x ≠ some false
  | [], _, _ => List.forall_mem_nil _
  | x :: xs, hrefs, n => by
    obtain ⟨hx, hxs⟩ := List.append_eq_nil_iff.mp hrefs
    refine List.forall_mem_cons.mpr ⟨?_, alike?_self_all hxs n⟩
    by_cases hnan : ∃ m, x = .atom (.nan m)
    · obtain ⟨m, rfl⟩ := hnan
      simp [alike?, Value.isSame]
    · exact alike?_self (equalWithin?_self hx (fun m hm => hnan ⟨m, hm⟩) n)

end

/-- Such a value is one of several that it is among, NaNs included. -/
theorem isIn?_self (hv : v.refs = []) (hmem : v ∈ xs) : s.isIn? v xs ≠ some false := by
  induction xs with
  | nil => cases hmem
  | cons x xs ih =>
    rw [isIn?]
    cases hx : alike? s.equal? x v with
    | none => exact fun h => by cases h
    | some b =>
      cases b with
      | true => exact fun h => by cases h
      | false =>
        rcases List.mem_cons.mp hmem with rfl | hmem
        · have hself : ∀ y ∈ [v], alike? s.equal? y y ≠ some false :=
            alike?_self_all (by simpa [Value.refsAll] using hv) deepest
          exact absurd hx (hself v (List.mem_singleton_self v))
        · exact ih hmem

/-- A tree is no floating-point number. -/
theorem Unfolds.isFloat (h : s.Unfolds [v] ls) : (s.view v).isFloat = false := by
  by_cases hatom : ∃ a, v = .atom a
  · obtain ⟨a, rfl⟩ := hatom
    have hleaf := h.of_atom.1
    change a.isFloat = false
    cases a <;> first | rfl | exact hleaf.elim
  · cases hview : s.view v with
    | atom a => exact absurd hview (view_ne_atom hatom s a)
    | _ => rfl

end

end Store

end Conform
