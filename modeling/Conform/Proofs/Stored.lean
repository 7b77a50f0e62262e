import Conform.Proofs.Copying

/-!
# Values that stand for finite trees

`Data.Stored s d v` says that a value stands for a tree of atoms, tuples, sets, lists and mappings, the last two of
which are objects of the store. The recursion is that of the tree, so a value that stands for one does not contain
itself: it is read as that very tree (`Stored.view`), and no way down meets more objects than the store has
(`Stored.height_le`).
-/

namespace Conform

/-- Whether every object of a store is there, unchanged, in another one. -/
def Store.Grows (s t : Store) : Prop := ∀ l o, s.get? l = some o → t.get? l = some o

namespace Store.Grows

variable {s t u : Store}

theorem refl (s : Store) : s.Grows s := fun _ _ h => h

theorem trans (h : s.Grows t) (k : t.Grows u) : s.Grows u := fun l o hl => k l o (h l o hl)

theorem alloc (s : Store) (o : Object) : s.Grows (s.alloc o).2 := by
  intro l o' hl
  rw [Store.get?_alloc_of_lt (lt_size_of_get? hl)]
  exact hl

end Store.Grows

/-- What stands on the right of a relation between lists stands to something. -/
theorem exists_of_forall₂_right {α β : Type} {R : α → β → Prop} {xs : List α} {ys : List β}
    (h : List.Forall₂ R xs ys) : ∀ y ∈ ys, ∃ x ∈ xs, R x y := by
  induction h with
  | nil => exact List.forall_mem_nil _
  | cons hxy _ ih =>
    refine List.forall_mem_cons.mpr ⟨⟨_, List.mem_cons_self, hxy⟩, fun z hz => ?_⟩
    obtain ⟨x, hx, hR⟩ := ih z hz
    exact ⟨x, List.mem_cons_of_mem _ hx, hR⟩

namespace Data

mutual

/-- The number of lists and mappings on the longest way down. -/
def height : Data → Nat
  | .list ds => heightAll ds + 1
  | .mapping es => heightEntries es + 1
  | .tuple _ ds | .set ds => heightAll ds
  | _ => 0

/-- The greatest height of several trees. -/
def heightAll : List Data → Nat
  | [] => 0
  | d :: ds => max (height d) (heightAll ds)

/-- The greatest height of the keys and values of a mapping. -/
def heightEntries : List (Data × Data) → Nat
  | [] => 0
  | (k, d) :: es => max (max (height k) (height d)) (heightEntries es)

end

mutual

/-- Whether a value stands for a tree, the lists and mappings of which are objects of the store. -/
def Stored (s : Store) : Data → Value → Prop
  | .atom a, v => v = .atom a
  | .tuple cls ds, v => ∃ xs, v = .tuple cls xs ∧ StoredAll s ds xs
  | .set ds, v => ∃ xs, v = .set xs ∧ StoredAll s ds xs
  | .list ds, v => ∃ l xs, v = .ref l ∧ s.get? l = some (.list xs) ∧ StoredAll s ds xs
  | .mapping es, v => ∃ l fs, v = .ref l ∧ s.get? l = some (.mapping fs) ∧ StoredEntries s es fs
  | _, _ => False

/-- Whether values stand for trees, one for one. -/
def StoredAll (s : Store) : List Data → List Value → Prop
  | [], [] => True
  | d :: ds, x :: xs => Stored s d x ∧ StoredAll s ds xs
  | _, _ => False

/-- Whether the entries of a mapping stand for those of a tree, one for one. -/
def StoredEntries (s : Store) : List (Data × Data) → List (Value × Value) → Prop
  | [], [] => True
  | (k, d) :: es, (x, y) :: fs => (Stored s k x ∧ Stored s d y) ∧ StoredEntries s es fs
  | _, _ => False

end

section

variable {s t : Store} {d : Data} {ds : List Data} {es : List (Data × Data)} {v : Value} {xs : List Value}
  {fs : List (Value × Value)} {l : Loc}

theorem height_le_heightAll (h : d ∈ ds) : d.height ≤ heightAll ds := by
  induction ds with
  | nil => cases h
  | cons c ds ih =>
    rw [heightAll]
    rcases List.mem_cons.mp h with rfl | h
    · exact le_max_left _ _
    · exact le_trans (ih h) (le_max_right _ _)

theorem height_le_heightEntries {k : Data} (h : (k, d) ∈ es) : d.height ≤ heightEntries es := by
  induction es with
  | nil => cases h
  | cons e es ih =>
    obtain ⟨k', d'⟩ := e
    rw [heightEntries]
    rcases List.mem_cons.mp h with heq | h
    · cases heq
      exact le_trans (le_max_right _ _) (le_max_left _ _)
    · exact le_trans (ih h) (le_max_right _ _)

theorem storedAll_iff : StoredAll s ds xs ↔ List.Forall₂ (Stored s) ds xs := by
  induction ds generalizing xs with
  | nil => cases xs <;> simp [StoredAll]
  | cons d ds ih => cases xs <;> simp [StoredAll, ih]

theorem storedEntries_iff :
    StoredEntries s es fs ↔ List.Forall₂ (fun e f => e.1.Stored s f.1 ∧ e.2.Stored s f.2) es fs := by
  induction es generalizing fs with
  | nil => cases fs <;> simp [StoredEntries]
  | cons e es ih => cases fs <;> simp [StoredEntries, ih]

mutual

/-- A value stands for the same tree in a store that has grown. -/
theorem Stored.grow (h : s.Grows t) : ∀ {d : Data} {v : Value}, d.Stored s v → d.Stored t v
  | .atom _, _, hd => hd
  | .list _, _, hd => by
    obtain ⟨l, xs, rfl, hget, hxs⟩ := hd
    exact ⟨l, xs, rfl, h l _ hget, hxs.grow h⟩
  | .mapping _, _, hd => by
    obtain ⟨l, fs, rfl, hget, hfs⟩ := hd
    exact ⟨l, fs, rfl, h l _ hget, hfs.grow h⟩
  | .tuple _ _, _, hd | .set _, _, hd => by
    obtain ⟨xs, rfl, hxs⟩ := hd
    exact ⟨xs, rfl, hxs.grow h⟩
  | .record _ _, _, hd | .elided _, _, hd => hd.elim

theorem StoredAll.grow (h : s.Grows t) : ∀ {ds : List Data} {xs : List Value},
    StoredAll s ds xs → StoredAll t ds xs
  | [], [], _ => trivial
  | _ :: _, _ :: _, hd => ⟨hd.1.grow h, hd.2.grow h⟩
  | [], _ :: _, hd | _ :: _, [], hd => hd.elim

theorem StoredEntries.grow (h : s.Grows t) : ∀ {es : List (Data × Data)} {fs : List (Value × Value)},
    StoredEntries s es fs → StoredEntries t es fs
  | [], [], _ => trivial
  | _ :: _, _ :: _, hd => ⟨⟨hd.1.1.grow h, hd.1.2.grow h⟩, hd.2.grow h⟩
  | [], _ :: _, hd | _ :: _, [], hd => hd.elim

end

mutual

/-- A value stands for one tree at most. -/
theorem Stored.unique : ∀ {d c : Data} {v : Value}, d.Stored s v → c.Stored s v → d = c
  | .atom _, c, _, hd, hc => by
    cases hd
    cases c with
    | atom b =>
      cases hc
      rfl
    | list ds | mapping es =>
      obtain ⟨l, xs, hv, -⟩ := hc
      cases hv
    | tuple cls ds | set ds =>
      obtain ⟨xs, hv, -⟩ := hc
      cases hv
    | _ => exact hc.elim
  | .tuple cls ds, c, _, hd, hc => by
    obtain ⟨xs, rfl, hxs⟩ := hd
    cases c with
    | atom b => cases hc
    | tuple cls' cs =>
      obtain ⟨ys, hv, hys⟩ := hc
      cases hv
      rw [hxs.unique hys]
    | set cs =>
      obtain ⟨ys, hv, -⟩ := hc
      cases hv
    | list cs | mapping cs =>
      obtain ⟨m, ys, hv, -⟩ := hc
      cases hv
    | _ => exact hc.elim
  | .set ds, c, _, hd, hc => by
    obtain ⟨xs, rfl, hxs⟩ := hd
    cases c with
    | atom b => cases hc
    | set cs =>
      obtain ⟨ys, hv, hys⟩ := hc
      cases hv
      rw [hxs.unique hys]
    | tuple cls cs =>
      obtain ⟨ys, hv, -⟩ := hc
      cases hv
    | list cs | mapping cs =>
      obtain ⟨m, ys, hv, -⟩ := hc
      cases hv
    | _ => exact hc.elim
  | .list ds, c, _, hd, hc => by
    obtain ⟨l, xs, rfl, hget, hxs⟩ := hd
    cases c with
    | atom b => cases hc
    | list cs =>
      obtain ⟨m, ys, hv, hget', hys⟩ := hc
      cases hv
      cases hget.symm.trans hget'
      rw [hxs.unique hys]
    | mapping es =>
      obtain ⟨m, fs, hv, hget', -⟩ := hc
      cases hv
      cases hget.symm.trans hget'
    | tuple cls cs | set cs =>
      obtain ⟨ys, hv, -⟩ := hc
      cases hv
    | _ => exact hc.elim
  | .mapping es, c, _, hd, hc => by
    obtain ⟨l, fs, rfl, hget, hfs⟩ := hd
    cases c with
    | atom b => cases hc
    | list cs =>
      obtain ⟨m, ys, hv, hget', -⟩ := hc
      cases hv
      cases hget.symm.trans hget'
    | mapping cs =>
      obtain ⟨m, gs, hv, hget', hgs⟩ := hc
      cases hv
      cases hget.symm.trans hget'
      rw [hfs.unique hgs]
    | tuple cls cs | set cs =>
      obtain ⟨ys, hv, -⟩ := hc
      cases hv
    | _ => exact hc.elim
  | .record _ _, _, _, hd, _ | .elided _, _, _, hd, _ => hd.elim

theorem StoredAll.unique : ∀ {ds cs : List Data} {xs : List Value},
    StoredAll s ds xs → StoredAll s cs xs → ds = cs
  | [], [], [], _, _ => rfl
  | d :: ds, c :: cs, x :: xs, hd, hc => by rw [hd.1.unique hc.1, hd.2.unique hc.2]
  | [], _, _ :: _, hd, _ | _ :: _, _, [], hd, _ => hd.elim
  | _, [], _ :: _, _, hc | _, _ :: _, [], _, hc => hc.elim

theorem StoredEntries.unique : ∀ {es cs : List (Data × Data)} {fs : List (Value × Value)},
    StoredEntries s es fs → StoredEntries s cs fs → es = cs
  | [], [], [], _, _ => rfl
  | (k, d) :: es, (k', c) :: cs, f :: fs, hd, hc => by
    rw [hd.1.1.unique hc.1.1, hd.1.2.unique hc.1.2, hd.2.unique hc.2]
  | [], _, _ :: _, hd, _ | _ :: _, _, [], hd, _ => hd.elim
  | _, [], _ :: _, _, hc | _, _ :: _, [], _, hc => hc.elim

end

/-- An atom stands for itself only. -/
theorem Stored.eq_atom {a : Atom} (h : d.Stored s (.atom a)) : d = .atom a :=
  h.unique (c := .atom a) rfl

/-! ## Reading -/

/-- Whether a tree is less high than what the places on a path stand for. -/
def Below (s : Store) (path : List Loc) (n : Nat) : Prop :=
  ∀ m ∈ path, ∀ c : Data, c.Stored s (.ref m) → n < c.height

theorem Below.mono {path : List Loc} {m n : Nat} (h : Below s path n) (hmn : m ≤ n) : Below s path m :=
  fun l hl c hc => Nat.lt_of_le_of_lt hmn (h l hl c hc)

/-- One step down, the place itself is on the path. -/
theorem Below.cons {path : List Loc} {n : Nat} (h : Below s path (n + 1)) (hd : d.Stored s (.ref l))
    (hn : d.height = n + 1) : Below s (l :: path) n := by
  intro m hm c hc
  rcases List.mem_cons.mp hm with rfl | hm
  · rw [hc.unique hd, hn]
    exact Nat.lt_succ_self n
  · exact Nat.lt_of_succ_lt (h m hm c hc)

theorem Below.not_mem {path : List Loc} (h : Below s path d.height) (hd : d.Stored s (.ref l)) :
    path.contains l = false := by
  rw [List.contains_eq_mem, decide_eq_false_iff_not]
  exact fun hl => Nat.lt_irrefl _ (h l hl d hd)

mutual

/-- Reading a value that stands for a tree gives the tree, if enough references may be followed and the path
has led down to it. -/
theorem Stored.viewAt : ∀ {d : Data} {v : Value} {fuel : Nat} {path : List Loc}, d.Stored s v →
    d.height ≤ fuel → Below s path d.height → v.view (s.viewAt fuel path) = d
  | .atom _, _, _, _, hd, _, _ => by
    cases hd
    rfl
  | .list ds, _, 0, _, _, hn, _ | .mapping _, _, 0, _, _, hn, _ => absurd hn (Nat.not_succ_le_zero _)
  | .list ds, _, fuel + 1, path, hd, hn, hb => by
    have hstored := hd
    obtain ⟨l, xs, rfl, hget, hxs⟩ := hd
    have hpath : path.contains l = false := hb.not_mem hstored
    have hitems := hxs.viewAt (Nat.le_of_succ_le_succ hn) (hb.cons hstored rfl)
    simp only [Value.view, Store.viewAt, hget, hpath, Bool.false_eq_true, if_false, Object.view, hitems]
  | .mapping es, _, fuel + 1, path, hd, hn, hb => by
    have hstored := hd
    obtain ⟨l, fs, rfl, hget, hfs⟩ := hd
    have hpath : path.contains l = false := hb.not_mem hstored
    have hentries := hfs.viewAt (Nat.le_of_succ_le_succ hn) (hb.cons hstored rfl)
    simp only [Value.view, Store.viewAt, hget, hpath, Bool.false_eq_true, if_false, Object.view, hentries]
  | .tuple cls ds, _, fuel, path, hd, hn, hb | .set ds, _, fuel, path, hd, hn, hb => by
    obtain ⟨xs, rfl, hxs⟩ := hd
    rw [Value.view, hxs.viewAt hn hb]
  | .record _ _, _, _, _, hd, _, _ | .elided _, _, _, _, hd, _, _ => hd.elim

theorem StoredAll.viewAt : ∀ {ds : List Data} {xs : List Value} {fuel : Nat} {path : List Loc},
    StoredAll s ds xs → heightAll ds ≤ fuel → Below s path (heightAll ds) →
    Value.viewAll (s.viewAt fuel path) xs = ds
  | [], [], _, _, _, _, _ => rfl
  | d :: ds, x :: xs, fuel, path, hd, hn, hb => by
    have hhead : d.height ≤ heightAll (d :: ds) := le_max_left _ _
    have htail : heightAll ds ≤ heightAll (d :: ds) := le_max_right _ _
    rw [Value.viewAll, hd.1.viewAt (le_trans hhead hn) (hb.mono hhead),
      hd.2.viewAt (le_trans htail hn) (hb.mono htail)]
  | [], _ :: _, _, _, hd, _, _ | _ :: _, [], _, _, hd, _, _ => hd.elim

theorem StoredEntries.viewAt : ∀ {es : List (Data × Data)} {fs : List (Value × Value)} {fuel : Nat}
    {path : List Loc}, StoredEntries s es fs → heightEntries es ≤ fuel → Below s path (heightEntries es) →
    (fs.map fun f => (f.1.view (s.viewAt fuel path), f.2.view (s.viewAt fuel path))) = es
  | [], [], _, _, _, _, _ => rfl
  | (k, d) :: es, (x, y) :: fs, fuel, path, hd, hn, hb => by
    have hkey : k.height ≤ heightEntries ((k, d) :: es) := le_trans (le_max_left _ _) (le_max_left _ _)
    have hvalue : d.height ≤ heightEntries ((k, d) :: es) := le_trans (le_max_right _ _) (le_max_left _ _)
    have htail : heightEntries es ≤ heightEntries ((k, d) :: es) := le_max_right _ _
    rw [List.map_cons, hd.1.1.viewAt (le_trans hkey hn) (hb.mono hkey),
      hd.1.2.viewAt (le_trans hvalue hn) (hb.mono hvalue), hd.2.viewAt (le_trans htail hn) (hb.mono htail)]
  | [], _ :: _, _, _, hd, _, _ | _ :: _, [], _, _, hd, _, _ => hd.elim

end

/-! ## The length of a way down -/

/-- Whether places are different objects, each standing for a tree of at most the given height, and as many as
that. -/
def Descends (s : Store) (n : Nat) (ls : List Loc) : Prop :=
  ls.length = n ∧ ls.Nodup ∧ ∀ l ∈ ls, l < s.size ∧ ∃ c : Data, c.Stored s (.ref l) ∧ c.height ≤ n

/-- An object that stands for a higher tree is none of those below. -/
theorem Descends.cons {n : Nat} {ls : List Loc} (h : Descends s n ls) (hd : d.Stored s (.ref l))
    (hn : d.height = n + 1) (hl : l < s.size) : Descends s (n + 1) (l :: ls) := by
  obtain ⟨hlength, hnodup, hmem⟩ := h
  refine ⟨by rw [List.length_cons, hlength], List.nodup_cons.mpr ⟨?_, hnodup⟩, ?_⟩
  · intro hlmem
    obtain ⟨-, c, hc, hle⟩ := hmem l hlmem
    rw [hc.unique hd, hn] at hle
    exact Nat.not_succ_le_self n hle
  · intro m hm
    rcases List.mem_cons.mp hm with rfl | hm
    · exact ⟨hl, d, hd, Nat.le_of_eq hn⟩
    · obtain ⟨hlt, c, hc, hle⟩ := hmem m hm
      exact ⟨hlt, c, hc, Nat.le_succ_of_le hle⟩

theorem Descends.max {m n : Nat} (hm : ∃ ls, Descends s m ls) (hn : ∃ ls, Descends s n ls) :
    ∃ ls, Descends s (max m n) ls := by
  rcases Nat.le_total m n with h | h
  · rw [Nat.max_eq_right h]
    exact hn
  · rw [Nat.max_eq_left h]
    exact hm

theorem descends_zero : ∃ ls, Descends s 0 ls := ⟨[], rfl, .nil, nofun⟩

mutual

/-- Down the longest way, every list and mapping is another object. -/
theorem Stored.descends : ∀ {d : Data} {v : Value}, d.Stored s v → ∃ ls, Descends s d.height ls
  | .atom _, _, _ => descends_zero
  | .list ds, _, hd => by
    have hstored := hd
    obtain ⟨l, xs, rfl, hget, hxs⟩ := hd
    obtain ⟨ls, hls⟩ := hxs.descends
    exact ⟨l :: ls, hls.cons hstored rfl (Store.lt_size_of_get? hget)⟩
  | .mapping es, _, hd => by
    have hstored := hd
    obtain ⟨l, fs, rfl, hget, hfs⟩ := hd
    obtain ⟨ls, hls⟩ := hfs.descends
    exact ⟨l :: ls, hls.cons hstored rfl (Store.lt_size_of_get? hget)⟩
  | .tuple _ ds, _, hd | .set ds, _, hd => by
    obtain ⟨xs, rfl, hxs⟩ := hd
    exact hxs.descends
  | .record _ _, _, hd | .elided _, _, hd => hd.elim

theorem StoredAll.descends : ∀ {ds : List Data} {xs : List Value}, StoredAll s ds xs →
    ∃ ls, Descends s (heightAll ds) ls
  | [], [], _ => descends_zero
  | _ :: _, _ :: _, hd => Descends.max hd.1.descends hd.2.descends
  | [], _ :: _, hd | _ :: _, [], hd => hd.elim

theorem StoredEntries.descends : ∀ {es : List (Data × Data)} {fs : List (Value × Value)},
    StoredEntries s es fs → ∃ ls, Descends s (heightEntries es) ls
  | [], [], _ => descends_zero
  | _ :: _, _ :: _, hd => Descends.max (Descends.max hd.1.1.descends hd.1.2.descends) hd.2.descends
  | [], _ :: _, hd | _ :: _, [], hd => hd.elim

end

/-- No tree that a value stands for is higher than there are objects. -/
theorem Stored.height_le (h : d.Stored s v) : d.height ≤ s.size := by
  obtain ⟨ls, hlength, hnodup, hmem⟩ := h.descends
  rw [← hlength]
  exact Store.length_le_size hnodup fun l hl => (hmem l hl).1

/-- A value that stands for a tree is read as that tree. -/
theorem Stored.view (h : d.Stored s v) : s.view v = d :=
  h.viewAt (Nat.le_succ_of_le h.height_le) nofun

/-- The keys of a mapping that stands for a tree are those of the tree. -/
theorem StoredEntries.viewKeys (h : StoredEntries s es fs) : s.viewAll (fs.map (·.1)) = es.map (·.1) := by
  rw [storedEntries_iff] at h
  induction h with
  | nil => rfl
  | cons hd _ ih =>
    rw [Store.viewAll, List.map_cons, List.map_cons, hd.1.view, ← Store.viewAll, ih, List.map_cons]

/-- What is found under a key stands for what the tree has there. -/
theorem StoredEntries.lookup (h : StoredEntries s es fs) (key : Data) :
    (Data.find? es key = none ∧ s.lookup fs key = none) ∨
      ∃ d v, Data.find? es key = some d ∧ s.lookup fs key = some v ∧ d.Stored s v := by
  rw [storedEntries_iff] at h
  induction h with
  | nil => exact .inl ⟨rfl, rfl⟩
  | cons hd _ ih =>
    simp only [Data.find?, Store.lookup, List.find?_cons, hd.1.view] at ih ⊢
    split
    · exact .inr ⟨_, _, rfl, rfl, hd.2⟩
    · exact ih

/-- A store that has grown finds the same under a key. -/
theorem StoredEntries.lookup_grow (h : StoredEntries s es fs) (ht : s.Grows t) (key : Data) :
    t.lookup fs key = s.lookup fs key := by
  rw [storedEntries_iff] at h
  induction h with
  | nil => rfl
  | cons hd _ ih =>
    simp only [Store.lookup, List.find?_cons, (hd.1.grow ht).view, hd.1.view] at ih ⊢
    split
    · rfl
    · exact ih

end

end Data

end Conform
