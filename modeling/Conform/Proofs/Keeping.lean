import Conform.Proofs.Matching

/-!
# Writing equal contents

`Retains s t` says that every value that stands for a plain tree in a store stands for one of equal contents in
another, and that the cells of facts are the same. A store keeps everything where an object is replaced by one of
equal contents (`retains_put`): a value that stands for a tree does not contain itself, so by induction on the height
of the tree whatever has the object as a part changes as little as the object does.
-/

namespace Conform

open Data

/-- Whether an object holds what a tree is made of. -/
def Data.Contents (s : Store) : Data → Object → Prop
  | .list ds, .list xs => StoredAll s ds xs
  | .mapping es, .mapping fs => StoredEntries s es fs
  | _, _ => False

/-- Whether all that stands for plain trees is kept up to equal contents, and cells and attributes are as before. -/
structure Retains (s t : Store) : Prop where
  values : ∀ v, v.Settled s → Matches s v t v
  slots : ∀ c, t.slots c = s.slots c
  given : t.given = s.given

section

variable {s t u : Store} {v w x y : Value} {d c : Data} {l m : Loc} {o o' : Object} {fs gs : List (Value × Value)}
  {es cs : List (Data × Data)} {xs ys : List Value} {ds : List Data}

theorem Retains.refl (s : Store) : Retains s s := ⟨fun _ hv => hv.refl, fun _ => rfl, rfl⟩

theorem Retains.trans (h : Retains s t) (k : Retains t u) : Retains s u where
  values v hv := (h.values v hv).trans (k.values v (h.values v hv).right)
  slots c := (k.slots c).trans (h.slots c)
  given := k.given.trans h.given

theorem Retains.slot (h : Retains s t) (c : Loc) (i : Nat) : t.slot c i = s.slot c i := by
  rw [Store.slot, Store.slot, h.slots]

theorem Retains.owned (h : Retains s t) (hs : s.Owned) : t.Owned := by
  intro e he
  rw [h.given] at he
  exact hs e he

/-! ## Objects -/

theorem stored_ref : d.Stored s (.ref l) ↔ ∃ o, s.get? l = some o ∧ d.Contents s o := by
  cases d with
  | list ds =>
    constructor
    · rintro ⟨m, xs, ⟨⟩, hget, hxs⟩
      exact ⟨_, hget, hxs⟩
    · rintro ⟨o, hget, ho⟩
      cases o with
      | list xs => exact ⟨l, xs, rfl, hget, ho⟩
      | _ => exact ho.elim
  | mapping es =>
    constructor
    · rintro ⟨m, fs, ⟨⟩, hget, hfs⟩
      exact ⟨_, hget, hfs⟩
    · rintro ⟨o, hget, ho⟩
      cases o with
      | mapping fs => exact ⟨l, fs, rfl, hget, ho⟩
      | _ => exact ho.elim
  | atom a =>
    constructor
    · rintro ⟨⟩
    · rintro ⟨o, -, ho⟩
      cases o <;> exact ho.elim
  | tuple cls ds | set ds =>
    constructor
    · rintro ⟨xs, ⟨⟩, -⟩
    · rintro ⟨o, -, ho⟩
      cases o <;> exact ho.elim
  | _ =>
    constructor
    · exact False.elim
    · rintro ⟨o, -, ho⟩
      cases o <;> exact ho.elim

/-- Contents of the same keys in the same order, with equal contents under them. -/
theorem same_mapping_of_forall₂ (hes : Keyed es) (h : List.Forall₂ (fun e f => f.1 = e.1 ∧ Same e.2 f.2) es cs) :
    Same (.mapping es) (.mapping cs) := by
  have hkeys : cs.map (·.1) = es.map (·.1) := by
    rw [← List.forall₂_eq_eq_eq, List.forall₂_map_left_iff, List.forall₂_map_right_iff]
    exact h.flip.imp fun _ _ hef => hef.1
  have hcs : Keyed cs := by
    refine ⟨hkeys ▸ hes.1, fun f hf => ?_⟩
    obtain ⟨e, he, hkey, -⟩ := exists_of_forall₂ h.flip f hf
    obtain ⟨name, hname⟩ := hes.2 e he
    exact ⟨name, hkey.trans hname⟩
  exact (same_mapping hes).mpr ⟨cs, rfl, hcs, h.length_eq, exists_of_forall₂ h⟩

/-- Where all that is less high is kept, so are the contents of an object. -/
theorem contents_kept (hplain : d.Plain) (h : d.Contents s o)
    (hkept : ∀ {b : Data} {v : Value}, b.Plain → b.height < d.height → b.Stored s v → Matches s v t v) :
    ∃ c, c.Contents t o ∧ Same d c := by
  have hpart : ∀ {b : Data} {v : Value}, b.Plain → b.height < d.height → b.Stored s v →
      ∃ c : Data, c.Stored t v ∧ Same b c := by
    intro b v hb hlt hv
    obtain ⟨b', c, hb', hc, hsame⟩ := hkept hb hlt hv
    obtain rfl := hv.unique hb'
    exact ⟨c, hc, hsame⟩
  cases hplain with
  | atom => cases o <;> exact h.elim
  | @list ds hds =>
    cases o with
    | list xs =>
      have hitems : ∃ cs, StoredAll t cs xs ∧ List.Forall₂ Same ds cs := by
        have hlt : ∀ b ∈ ds, b.height < (Data.list ds).height := fun b hb =>
          Nat.lt_succ_of_le (height_le_heightAll hb)
        have hxs : List.Forall₂ (Stored s) ds xs := storedAll_iff.mp h
        -- the height of the whole stays, while the items become fewer
        generalize (Data.list ds).height = n at hpart hlt
        clear h hkept
        induction hxs with
        | nil => exact ⟨[], trivial, .nil⟩
        | @cons b x _ _ hbx _ ih =>
          obtain ⟨c, hc, hsame⟩ := hpart (hds b List.mem_cons_self) (hlt b List.mem_cons_self) hbx
          obtain ⟨cs, hcs, hall⟩ := ih (fun b hb => hds b (List.mem_cons_of_mem _ hb))
            fun b hb => hlt b (List.mem_cons_of_mem _ hb)
          exact ⟨c :: cs, ⟨hc, hcs⟩, .cons hsame hall⟩
      obtain ⟨cs, hcs, hall⟩ := hitems
      exact ⟨.list cs, hcs, same_list.mpr ⟨cs, rfl, hall⟩⟩
    | _ => exact h.elim
  | @mapping es hes hvalues =>
    cases o with
    | mapping fs =>
      have hentries : ∃ cs, StoredEntries t cs fs ∧ List.Forall₂ (fun e f => f.1 = e.1 ∧ Same e.2 f.2) es cs := by
        have hlt : ∀ e ∈ es, e.2.height < (Data.mapping es).height := fun e he =>
          Nat.lt_succ_of_le (height_le_heightEntries (k := e.1) he)
        have hkeys := hes.2
        have hfs := storedEntries_iff.mp h
        generalize (Data.mapping es).height = n at hpart hlt
        clear h hkept hes
        induction hfs with
        | nil => exact ⟨[], trivial, .nil⟩
        | @cons e f _ _ hef _ ih =>
          obtain ⟨name, hname⟩ := hkeys e List.mem_cons_self
          obtain ⟨c, hc, hsame⟩ := hpart (hvalues e List.mem_cons_self) (hlt e List.mem_cons_self) hef.2
          obtain ⟨cs, hcs, hall⟩ := ih (fun e he => hvalues e (List.mem_cons_of_mem _ he))
            (fun e he => hkeys e (List.mem_cons_of_mem _ he)) fun e he => hlt e (List.mem_cons_of_mem _ he)
          have hkey : e.1.Stored t f.1 := by
            have hstored := hef.1
            rw [hname] at hstored ⊢
            exact hstored
          exact ⟨(e.1, c) :: cs, ⟨⟨hkey, hc⟩, hcs⟩, .cons ⟨rfl, hsame⟩ hall⟩
      obtain ⟨cs, hcs, hall⟩ := hentries
      exact ⟨.mapping cs, hcs, same_mapping_of_forall₂ hes hall⟩
    | _ => exact h.elim

/-- A store keeps everything where an object is replaced by one of equal contents. -/
theorem matches_put (hl : s.get? l = some o) (hd : d.Contents s o) (hc : c.Contents s o') (hsame : Same d c) :
    ∀ n {b : Data} {v : Value}, b.height = n → b.Plain → b.Stored s v → Matches s v (s.put l o') v := by
  intro n
  induction n using Nat.strong_induction_on with
  | _ n ih =>
    intro b v hn hb hv
    cases v with
    | atom a =>
      obtain rfl := hv.eq_atom
      exact ⟨.atom a, .atom a, rfl, rfl, hb.refl⟩
    | ref m =>
      have hkept : ∀ {b' : Data} {v : Value}, b'.Plain → b'.height < b.height → b'.Stored s v →
          Matches s v (s.put l o') v := fun hb' hlt hv' => ih _ (hn ▸ hlt) rfl hb' hv'
      obtain ⟨p, hget, hcontents⟩ := stored_ref.mp hv
      by_cases hm : l = m
      · -- the object that is replaced: its new contents are no higher, so all that they have as parts is kept
        subst hm
        cases hl.symm.trans hget
        obtain rfl : b = d := hv.unique (stored_ref.mpr ⟨o, hl, hd⟩)
        obtain ⟨c', hc', hsame'⟩ := contents_kept hsame.right hc fun hb' hlt => hkept hb' (hsame.height ▸ hlt)
        have hput : (s.put l o').get? l = some o' := Store.get?_put_same (Store.lt_size_of_get? hl)
        exact ⟨b, c', hv, stored_ref.mpr ⟨o', hput, hc'⟩, hsame.trans hsame'⟩
      · -- another object, which changes by its parts only
        obtain ⟨c', hc', hsame'⟩ := contents_kept hb hcontents hkept
        have hput : (s.put l o').get? m = some p := by rw [Store.get?_put_of_ne hm, hget]
        exact ⟨b, c', hv, stored_ref.mpr ⟨p, hput, hc'⟩, hsame'⟩
    | tuple | set | frozen =>
      -- no plain tree has tuples, sets or records in it
      cases hb with
      | atom => cases hv
      | list | mapping =>
        obtain ⟨l, xs, hv, -⟩ := hv
        cases hv

theorem slots_of_contents (h : d.Contents s o) (hget : t.get? l = some o) : t.slots l = [] := by
  rw [Store.slots, hget]
  cases o with
  | slots vs => cases d <;> exact h.elim
  | _ => rfl

theorem retains_put (hl : s.get? l = some o) (hd : d.Contents s o) (hc : c.Contents s o') (hsame : Same d c) :
    Retains s (s.put l o') where
  values := by
    rintro v ⟨b, hb, hv⟩
    exact matches_put hl hd hc hsame _ rfl hb hv
  slots := by
    intro m
    by_cases hm : l = m
    · subst hm
      rw [slots_of_contents hd hl, slots_of_contents hc (Store.get?_put_same (Store.lt_size_of_get? hl))]
    · rw [Store.slots, Store.slots, Store.get?_put_of_ne hm]
  given := rfl

/-- A new object changes nothing of what is there. -/
theorem retains_alloc (h : d.Contents s o) : Retains s (s.alloc o).2 where
  values := by
    rintro v ⟨b, hb, hv⟩
    exact ⟨b, b, hv, hv.grow (.alloc s o), hb.refl⟩
  slots := by
    intro m
    by_cases hm : m = s.size
    · subst hm
      have hnone : s.get? s.size = none := Array.getElem?_eq_none (Nat.le_refl _)
      rw [slots_of_contents h Store.get?_alloc_new, Store.slots, hnone]
    · rw [Store.slots, Store.slots, Store.get?_alloc, if_neg hm]
  given := rfl

/-- A list of items that match the ones before is kept. -/
theorem retains_put_list (hl : s.get? l = some (.list xs)) (h : List.Forall₂ (fun x y => Matches s x s y) xs ys) :
    Retains s (s.put l (.list ys)) ∧ Matches s (.ref l) (s.put l (.list ys)) (.ref l) := by
  obtain ⟨ds, cs, hds, hcs, hall⟩ := same_of_matches h
  have hsame : Same (.list ds) (.list cs) := same_list.mpr ⟨cs, rfl, hall⟩
  have hretains : Retains s (s.put l (.list ys)) := retains_put (d := .list ds) (c := .list cs) hl hds hcs hsame
  exact ⟨hretains, hretains.values _ ⟨.list ds, hsame.left, stored_ref.mpr ⟨_, hl, hds⟩⟩⟩

/-! ## Writing a part -/

/-- An entry that is found is replaced in its place. -/
theorem stored_insertEntry {key : Value} (hes : ∀ e ∈ es, (∃ name : String, e.1 = .atom (.text name)) ∧ e.2.Plain)
    (h : StoredEntries s es fs) (hfound : s.lookup fs (s.view key) = some x) (hxy : Matches s x s y) :
    ∃ cs, StoredEntries s cs (s.insertEntry key y fs) ∧
      List.Forall₂ (fun e f => f.1 = e.1 ∧ Same e.2 f.2) es cs := by
  have hfs := storedEntries_iff.mp h
  clear h
  induction hfs with
  | nil => cases hfound
  | @cons e f es fs hef hrest ih =>
    obtain ⟨k, z⟩ := f
    rw [Store.lookup_cons] at hfound
    rw [Store.insertEntry]
    have htail : List.Forall₂ (fun e f => f.1 = e.1 ∧ Same e.2 f.2) es es :=
      List.forall₂_same.mpr fun e he => ⟨rfl, ((hes e (List.mem_cons_of_mem _ he)).2).refl⟩
    split at hfound
    · next hkey =>
      cases hfound
      -- the entry that is read is the one that is replaced, the first under the key
      obtain ⟨d, c, hd, hc, hsame⟩ := hxy
      obtain rfl := hef.2.unique hd
      rw [if_pos hkey]
      exact ⟨(e.1, c) :: es, ⟨⟨hef.1, hc⟩, storedEntries_iff.mpr hrest⟩, .cons ⟨rfl, hsame⟩ htail⟩
    · next hkey =>
      obtain ⟨cs, hcs, hall⟩ := ih (fun e he => hes e (List.mem_cons_of_mem _ he)) hfound
      rw [if_neg hkey]
      have hplain := (hes e List.mem_cons_self).2
      exact ⟨e :: cs, ⟨⟨hef.1, hef.2⟩, hcs⟩, .cons ⟨rfl, hplain.refl⟩ hall⟩

/-- A mapping keeps its contents where an entry is replaced by one that matches it. -/
theorem retains_setEntry {key : Value} (hl : s.get? l = some (.mapping fs)) (hv : (Value.ref l).Settled s)
    (hfound : s.lookup fs (s.view key) = some x) (hxy : Matches s x s y) :
    Retains s (Accessor.setEntry s l fs key y).2 := by
  obtain ⟨d, hd, hstored⟩ := hv
  obtain ⟨o, hget, hcontents⟩ := stored_ref.mp hstored
  cases hl.symm.trans hget
  cases hd with
  | @mapping es hes hplain =>
    obtain ⟨cs, hcs, hall⟩ := stored_insertEntry (fun e he => ⟨hes.2 e he, hplain e he⟩) hcontents hfound hxy
    exact retains_put (d := .mapping es) (c := .mapping cs) hl hcontents hcs (same_mapping_of_forall₂ hes hall)
  | atom | list => exact hcontents.elim

/-- A list keeps its contents where an item is replaced by one that matches it. -/
theorem retains_replace {key : Value} (hl : s.get? l = some (.list xs)) (hv : (Value.ref l).Settled s)
    (hget : Accessor.pick xs key = .ok x) (hxy : Matches s x s y) (h : Accessor.replace xs key y = .ok ys) :
    Retains s (s.put l (.list ys)) := by
  have hitems : List.Forall₂ (fun x y => Matches s x s y) xs xs := (matches_list hl hl).mp hv.refl
  unfold Accessor.pick at hget
  unfold Accessor.replace at h
  cases hi : Accessor.index? key with
  | none =>
    rw [hi] at h
    cases h
  | some i =>
    simp only [hi] at hget h
    cases hj : Accessor.place? xs.length i with
    | none =>
      rw [hj] at h
      cases h
    | some j =>
      simp only [hj] at hget h
      have hlt : j < xs.length := Accessor.place?_lt hj
      rw [List.getElem?_eq_getElem hlt] at hget
      cases hget
      cases h
      refine (retains_put_list hl ?_).1
      refine List.forall₂_iff_get.mpr ⟨(List.length_set ..).symm, fun i hi hi' => ?_⟩
      rw [List.get_eq_getElem, List.get_eq_getElem, List.getElem_set]
      split
      · next heq =>
        subst heq
        exact hxy
      · exact (List.forall₂_iff_get.mp hitems).2 i hi hi

theorem retains_setAttribute {n : String} {r : Value × Store} (hv : v.Settled s)
    (hget : Accessor.getAttribute s v n = .ok x) (hxy : Matches s x s y)
    (hset : Accessor.setAttribute s v n y = .ok r) : r.1 = v ∧ Retains s r.2 := by
  rcases hv.refl.shape with ⟨a, ha, rfl, -⟩ | ⟨l, m, xs, ys, ⟨rfl, hl⟩, -, -⟩ | ⟨l, m, fs, gs, ⟨rfl, hl⟩, -, -⟩
  · cases a with
    | null | int | text | absent => cases hset
    | sealed o =>
      simp only [Accessor.setAttribute, Accessor.setAtomAttribute, show o.isOpen = false from ha] at hset
      cases hset
    | _ => exact ha.elim
  · simp only [Accessor.setAttribute, hl] at hset
    cases hset
  · simp only [Accessor.getAttribute, hl] at hget
    simp only [Accessor.setAttribute, hl] at hset
    cases hset
    have hfound : s.lookup fs (s.view (.text n)) = some x := Accessor.eq_some_of_found hget
    exact ⟨rfl, retains_setEntry hl hv hfound hxy⟩

theorem retains_setItem {key : Value} {r : Value × Store} (hv : v.Settled s) (hget : Accessor.getItem s v key = .ok x)
    (hxy : Matches s x s y) (hset : Accessor.setItem s v key y = .ok r) : r.1 = v ∧ Retains s r.2 := by
  rcases hv.refl.shape with ⟨a, ha, rfl, -⟩ | ⟨l, m, xs, ys, ⟨rfl, hl⟩, -, -⟩ | ⟨l, m, fs, gs, ⟨rfl, hl⟩, -, -⟩
  · cases hset
  · simp only [Accessor.getItem, hl] at hget
    simp only [Accessor.setItem, hl] at hset
    cases hys : Accessor.replace xs key y with
    | error e =>
      rw [hys] at hset
      cases hset
    | ok ys =>
      rw [hys] at hset
      cases hset
      exact ⟨rfl, retains_replace hl hv hget hxy hys⟩
  · simp only [Accessor.getItem, hl, Accessor.foundUnder] at hget
    simp only [Accessor.setItem, hl] at hset
    split at hget
    · cases hget
    · next hkey =>
      rw [if_neg hkey] at hset
      cases hset
      cases hx : s.lookup fs (s.view key) with
      | none =>
        rw [hx] at hget
        cases hget
      | some z =>
        rw [hx] at hget
        cases hget
        exact ⟨rfl, retains_setEntry hl hv hx hxy⟩

/-- Whether a part is there for an accessor to write: an optional attribute may be missing. -/
def Accessor.Present (a : Accessor) (x : Value) : Prop :=
  match a with
  | .optionalAttr _ => x.isAbsent = false
  | _ => True

/-- Writing a part that matches the one read keeps everything, and the value is answered itself. -/
theorem retains_set {a : Accessor} {r : Value × Store} (hv : v.Settled s) (ha : a.Fixed s s) (hget : a.get s v = .ok x)
    (hpresent : a.Present x) (hxy : Matches s x s y) (hset : a.set s v y = .ok r) : r.1 = v ∧ Retains s r.2 := by
  cases a with
  | attr n => exact retains_setAttribute hv hget hxy hset
  | item shown key => exact retains_setItem hv hget hxy hset
  | optionalAttr n =>
    have hthere : Accessor.getAttribute s v n = .ok x := by
      simp only [Accessor.get, Accessor.getOptional] at hget
      cases hx : Accessor.getAttribute s v n with
      | error e =>
        rw [hx] at hget
        cases hget
        cases hpresent
      | ok z =>
        simp only [hx] at hget
        split at hget
        · cases hget
          cases hpresent
        · cases hget
          rfl
    exact retains_setAttribute hv hthere hxy hset
  | variant | custom => exact ha.elim

/-! ## Rebuilding -/

/-- The characters of a text make it up again. -/
theorem joinItems_characters (r : String) : Store.joinItems (s.viewAll (Store.characters r)) = .ok r := by
  have hgo : ∀ (cs : List Char) (i : Nat),
      Store.joinItems.go i (cs.map fun c => .atom (.text (String.ofList [c]))) = .ok (String.ofList cs) := by
    intro cs
    induction cs with
    | nil => exact fun _ => rfl
    | cons c cs ih =>
      intro i
      rw [List.map_cons, Store.joinItems.go, ih]
      show Except.ok (String.ofList [c] ++ String.ofList cs) = _
      rw [← String.ofList_append]
      rfl
  have hview : s.viewAll (Store.characters r) = r.toList.map fun c => .atom (.text (String.ofList [c])) := by
    rw [Store.viewAll, Store.characters, List.map_map]
    rfl
  rw [Store.joinItems, hview, hgo, String.ofList_toList]

/-- Whether a value is a text of one character. -/
def Value.IsLetter (v : Value) : Prop := ∃ c, v = .text (String.ofList [c])

theorem insertEntry_letter {k x : Value} (hk : k.IsLetter) (hfs : ∀ f ∈ fs, f.1.IsLetter) :
    ∀ f ∈ s.insertEntry k x fs, f.1.IsLetter := by
  induction fs with
  | nil => exact List.forall_mem_singleton.mpr hk
  | cons f fs ih =>
    obtain ⟨hf, hrest⟩ := List.forall_mem_cons.mp hfs
    rw [Store.insertEntry]
    split
    · exact List.forall_mem_cons.mpr ⟨hf, hrest⟩
    · exact List.forall_mem_cons.mpr ⟨hf, ih hrest⟩

/-- Texts that are taken for pairs have two characters, the first of which becomes a key. -/
theorem pairItems_texts (hys : ∀ y ∈ ys, ∃ r, y = .text r) (h : s.pairItems ys = .ok gs) :
    (∀ g ∈ gs, g.1.IsLetter) ∧ ∀ y ∈ ys, ¬ y.IsLetter := by
  have hgo : ∀ (ys : List Value) (i : Nat) (fs : List (Value × Value)), (∀ y ∈ ys, ∃ r, y = .text r) →
      (∀ f ∈ fs, f.1.IsLetter) → Store.pairItems.go s i fs ys = .ok gs →
        (∀ g ∈ gs, g.1.IsLetter) ∧ ∀ y ∈ ys, ¬ y.IsLetter := by
    intro ys
    induction ys with
    | nil =>
      intro i fs _ hfs h
      cases h
      exact ⟨hfs, List.forall_mem_nil _⟩
    | cons y ys ih =>
      intro i fs hys hfs h
      obtain ⟨⟨r, rfl⟩, hrest⟩ := List.forall_mem_cons.mp hys
      have helements : s.elements? (.text r) = some (Store.characters r) := rfl
      rw [Store.pairItems.go, helements] at h
      split at h
      · cases h
      · next k x hpair =>
        have hchars : Store.characters r = [k, x] := Option.some.inj hpair
        have hk : k.IsLetter := by
          have hmem : k ∈ Store.characters r := by
            rw [hchars]
            exact List.mem_cons_self
          obtain ⟨c, -, rfl⟩ := List.mem_map.mp hmem
          exact ⟨c, rfl⟩
        have hr : ¬ (Value.text r).IsLetter := by
          rintro ⟨c, heq⟩
          cases heq
          have hlength := congrArg List.length hchars
          rw [Store.characters, List.length_map, String.toList_ofList] at hlength
          cases hlength
        split at h
        · cases h
        · obtain ⟨hkeys, hletters⟩ := ih _ _ hrest (insertEntry_letter hk hfs) h
          exact ⟨hkeys, List.forall_mem_cons.mpr ⟨hr, hletters⟩⟩
      · cases h
  exact hgo ys 0 [] hys (List.forall_mem_nil _) h

/-- A mapping is rebuilt from its keys only if it has none: each key would have to be the first character of
itself. -/
theorem eq_nil_of_rebuilt (hys : ∀ y ∈ ys, ∃ r, y = .text r) (h : s.pairItems ys = .ok gs)
    (hequal : Data.equalAll (t.viewAll (gs.map (·.1))) (s.viewAll ys) = true) : ys = [] := by
  obtain ⟨hkeys, hletters⟩ := pairItems_texts hys h
  rw [equalAll_iff] at hequal
  cases ys with
  | nil => rfl
  | cons y ys =>
    cases gs with
    | nil => cases hequal
    | cons g gs =>
      obtain ⟨r, rfl⟩ := hys y List.mem_cons_self
      obtain ⟨c, hg⟩ := hkeys g List.mem_cons_self
      rw [List.map_cons, hg] at hequal
      have hfirst : (Data.atom (.text (String.ofList [c]))).alike (.atom (.text r)) = true := by
        cases hequal with
        | cons hfirst => exact hfirst
      rw [alike_texts, beq_iff_eq] at hfirst
      exact absurd ⟨c, by rw [hfirst]⟩ (hletters (.text r) List.mem_cons_self)

/-- Any value but a list is made anew of its elements. -/
theorem exists_remake {r : Value × Store} (hv : ∀ l zs, v = .ref l → s.get? l ≠ some (.list zs))
    (h : s.rebuild v ys = .ok r) : s.remake v ys = .ok r ∧
      Data.equalAll (r.2.viewAll ((r.2.elements? r.1).getD [])) (s.viewAll ys) = true := by
  unfold Store.rebuild at h
  cases v with
  | ref l =>
    dsimp only at h
    split at h
    · next zs hget => exact absurd hget (hv l zs rfl)
    · exact Store.remade_of_ok h
  | _ => exact Store.remade_of_ok h

/-- A sequence that is rebuilt from elements that match those it had is kept. -/
theorem retains_rebuild {r : Value × Store} (hv : Matches s v t v) (hxs : s.elements? v = some xs)
    (h : List.Forall₂ (fun x y => Matches s x t y) xs ys) (hr : t.rebuild v ys = .ok r) :
    Matches t v r.2 r.1 ∧ Retains t r.2 := by
  rcases hv.shape with ⟨a, ha, rfl, -⟩ | ⟨l, m, zs, zs', ⟨rfl, hl⟩, ⟨⟨⟩, hm⟩, hall⟩ |
    ⟨l, m, fs, gs, ⟨rfl, hl⟩, ⟨⟨⟩, hm⟩, es, cs, hes, hcs, hsame⟩
  · cases a with
    | text p =>
      -- a text is joined from its own characters
      cases hxs
      have heq : ys = Store.characters p := by
        rw [← List.forall₂_eq_eq_eq]
        refine (forall₂_imp_mem h fun x hx y hxy => ?_).flip
        obtain ⟨c, -, rfl⟩ := List.mem_map.mp hx
        exact (Matches.atom_iff.mp hxy).2
      subst heq
      obtain ⟨hremake, -⟩ := exists_remake (by rintro l zs ⟨⟩) hr
      rw [Store.remake, joinItems_characters] at hremake
      cases hremake
      exact ⟨hv.right.refl, .refl t⟩
    | null | int | absent | sealed => cases hxs
    | _ => exact ha.elim
  · -- a list is filled anew, in place
    simp only [Store.elements?, hl] at hxs
    cases hxs
    simp only [Store.rebuild, hm] at hr
    cases hr
    have hitems : List.Forall₂ (fun x y => Matches t x t y) zs' ys :=
      forall₂_comp (hall.flip.imp fun z' z (hzz : Matches s z t z') y hzy => hzz.symm.trans hzy) h
    obtain ⟨hretains, hmatches⟩ := retains_put_list hm hitems
    exact ⟨hmatches, hretains⟩
  · -- a mapping is made anew of its keys, taken for pairs
    simp only [Store.elements?, hl] at hxs
    cases hxs
    obtain ⟨hremake, hequal⟩ := exists_remake (by rintro l zs ⟨⟩ hget; cases hm.symm.trans hget) hr
    cases hpairs : t.pairItems ys with
    | error e =>
      rw [Store.remake, hpairs] at hremake
      cases hremake
    | ok ps =>
      rw [Store.remake, hpairs] at hremake
      cases hremake
      have hys : ∀ y ∈ ys, ∃ r, y = .text r := by
        intro y hy
        obtain ⟨x, hx, hxy⟩ := exists_of_forall₂ h.flip y hy
        obtain ⟨f, hf, rfl⟩ := List.mem_map.mp hx
        obtain ⟨e, he, hkey, -⟩ := exists_of_forall₂ (storedEntries_iff.mp hes).flip f hf
        obtain ⟨name, hname⟩ := hsame.left.keyed.2 e he
        rw [hname] at hkey
        have hf : f.1 = .text name := hkey
        rw [hf] at hxy
        exact ⟨name, (Matches.atom_iff.mp hxy).2⟩
      have helements : (t.alloc (.mapping ps)).2.elements? (.ref (t.alloc (.mapping ps)).1) = some (ps.map (·.1)) := by
        rw [Store.alloc_fst]
        simp only [Store.elements?, Store.get?_alloc_new]
      rw [helements] at hequal
      have hnil : ys = [] := eq_nil_of_rebuilt hys hpairs hequal
      subst hnil
      cases hpairs
      -- so the mapping had no entries, and has none
      have hfs : fs = [] := List.map_eq_nil_iff.mp (List.eq_nil_of_length_eq_zero h.length_eq)
      subst hfs
      cases es with
      | cons => exact hes.elim
      | nil =>
        have hkeyed : Keyed [] := ⟨List.nodup_nil, List.forall_mem_nil _⟩
        have hempty : Same (.mapping cs) (.mapping []) := by
          obtain ⟨_, heq, -, hlength, -⟩ := (same_mapping hkeyed).mp hsame
          cases heq
          rw [List.eq_nil_of_length_eq_zero hlength.symm]
          exact (Plain.mapping hkeyed (List.forall_mem_nil _)).refl
        refine ⟨Matches.of_mapping hm Store.get?_alloc_new ⟨cs, [], hcs, trivial, hempty⟩, ?_⟩
        exact retains_alloc (d := .mapping []) trivial

end

end Conform
