import Conform.Proofs.Focus
import Conform.Proofs.Sameness

/-!
# Values of equal contents

`Matches s v t w` says that a value in one store and a value in another stand for plain trees of equal contents.
Comparing two values of one store finds out whether they match (`equal?_iff`), and reading a part, the elements or
an entry of values that match gives values that match, or fails the same way.
-/

namespace Conform

open Data

/-- Whether values of two stores stand for plain trees of equal contents. -/
def Matches (s : Store) (v : Value) (t : Store) (w : Value) : Prop :=
  ∃ d c : Data, d.Stored s v ∧ c.Stored t w ∧ Same d c

/-- Whether a value stands for a plain tree. -/
def Value.Settled (s : Store) (v : Value) : Prop := ∃ d : Data, d.Plain ∧ d.Stored s v

section

variable {s t u : Store} {v w x y : Value} {d c : Data} {l : Loc} {fs gs : List (Value × Value)}
  {es cs : List (Data × Data)} {xs ys : List Value} {ds : List Data}

theorem Value.Settled.refl (h : v.Settled s) : Matches s v s v := by
  obtain ⟨d, hd, hv⟩ := h
  exact ⟨d, d, hv, hv, hd.refl⟩

theorem Matches.symm (h : Matches s v t w) : Matches t w s v := by
  obtain ⟨d, c, hd, hc, hsame⟩ := h
  exact ⟨c, d, hc, hd, hsame.symm⟩

theorem Matches.trans (h : Matches s v t w) (k : Matches t w u x) : Matches s v u x := by
  obtain ⟨d, c, hd, hc, hsame⟩ := h
  obtain ⟨c', b, hc', hb, hsame'⟩ := k
  obtain rfl := hc.unique hc'
  exact ⟨d, b, hd, hb, hsame.trans hsame'⟩

theorem Matches.left (h : Matches s v t w) : v.Settled s := by
  obtain ⟨d, c, hd, -, hsame⟩ := h
  exact ⟨d, hsame.left, hd⟩

theorem Matches.right (h : Matches s v t w) : w.Settled t := h.symm.left

/-- Values that match are read as trees of equal contents. -/
theorem Matches.view (h : Matches s v t w) : Same (s.view v) (t.view w) := by
  obtain ⟨d, c, hd, hc, hsame⟩ := h
  rw [hd.view, hc.view]
  exact hsame

theorem Value.Settled.of_atom {a : Atom} (ha : a.IsPlain) : (Value.atom a).Settled s := ⟨_, .atom ha, rfl⟩

theorem Matches.atom_iff {a : Atom} : Matches s (.atom a) t w ↔ a.IsPlain ∧ w = .atom a := by
  constructor
  · rintro ⟨d, c, hd, hc, hsame⟩
    obtain rfl := hd.eq_atom
    have ha : a.IsPlain := by
      cases hsame.left with
      | atom ha => exact ha
    obtain rfl := (same_atom ha).mp hsame
    exact ⟨ha, hc⟩
  · rintro ⟨ha, rfl⟩
    exact ⟨.atom a, .atom a, rfl, rfl, (Plain.atom ha).refl⟩

/-- Whether the entries of two mappings stand for equal contents. -/
def EntriesMatch (s : Store) (fs : List (Value × Value)) (t : Store) (gs : List (Value × Value)) : Prop :=
  ∃ es cs, StoredEntries s es fs ∧ StoredEntries t cs gs ∧ Same (.mapping es) (.mapping cs)

theorem matches_of_same {ds cs : List Data} {xs ys : List Value} (h : List.Forall₂ Same ds cs)
    (hxs : StoredAll s ds xs) (hys : StoredAll t cs ys) : List.Forall₂ (fun x y => Matches s x t y) xs ys := by
  rw [storedAll_iff] at hxs hys
  induction h generalizing xs ys with
  | nil =>
    cases hxs
    cases hys
    exact .nil
  | cons hdc _ ih =>
    cases hxs with
    | cons hx hxs =>
      cases hys with
      | cons hy hys => exact .cons ⟨_, _, hx, hy, hdc⟩ (ih hxs hys)

/-- Values that match are the same atom, or lists of items that match, or mappings of entries that do. -/
theorem Matches.shape (h : Matches s v t w) :
    (∃ a : Atom, a.IsPlain ∧ v = .atom a ∧ w = .atom a) ∨
      (∃ l m xs ys, (v = .ref l ∧ s.get? l = some (.list xs)) ∧ (w = .ref m ∧ t.get? m = some (.list ys)) ∧
        List.Forall₂ (fun x y => Matches s x t y) xs ys) ∨
      ∃ l m fs gs, (v = .ref l ∧ s.get? l = some (.mapping fs)) ∧ (w = .ref m ∧ t.get? m = some (.mapping gs)) ∧
        EntriesMatch s fs t gs := by
  obtain ⟨d, c, hd, hc, hsame⟩ := h
  cases hsame.left with
  | @atom a ha =>
    obtain rfl := (same_atom ha).mp hsame
    exact .inl ⟨a, ha, hd, hc⟩
  | list =>
    obtain ⟨cs, rfl, hcs⟩ := same_list.mp hsame
    obtain ⟨l, xs, rfl, hl, hxs⟩ := hd
    obtain ⟨m, ys, rfl, hm, hys⟩ := hc
    exact .inr (.inl ⟨l, m, xs, ys, ⟨rfl, hl⟩, ⟨rfl, hm⟩, matches_of_same hcs hxs hys⟩)
  | mapping hes =>
    obtain ⟨cs, rfl, -⟩ := (same_mapping hes).mp hsame
    obtain ⟨l, fs, rfl, hl, hfs⟩ := hd
    obtain ⟨m, gs, rfl, hm, hgs⟩ := hc
    exact .inr (.inr ⟨l, m, fs, gs, ⟨rfl, hl⟩, ⟨rfl, hm⟩, _, _, hfs, hgs, hsame⟩)

theorem same_of_matches (h : List.Forall₂ (fun x y => Matches s x t y) xs ys) :
    ∃ ds cs, StoredAll s ds xs ∧ StoredAll t cs ys ∧ List.Forall₂ Same ds cs := by
  induction h with
  | nil => exact ⟨[], [], trivial, trivial, .nil⟩
  | cons hxy _ ih =>
    obtain ⟨d, c, hd, hc, hsame⟩ := hxy
    obtain ⟨ds, cs, hds, hcs, hall⟩ := ih
    exact ⟨d :: ds, c :: cs, ⟨hd, hds⟩, ⟨hc, hcs⟩, .cons hsame hall⟩

/-- Lists of items that match, match. -/
theorem Matches.of_list {m : Loc} (hl : s.get? l = some (.list xs)) (hm : t.get? m = some (.list ys))
    (h : List.Forall₂ (fun x y => Matches s x t y) xs ys) : Matches s (.ref l) t (.ref m) := by
  obtain ⟨ds, cs, hds, hcs, hall⟩ := same_of_matches h
  exact ⟨.list ds, .list cs, ⟨l, xs, rfl, hl, hds⟩, ⟨m, ys, rfl, hm, hcs⟩, same_list.mpr ⟨cs, rfl, hall⟩⟩

/-- Two lists match if and only if their items do. -/
theorem matches_list {m : Loc} (hl : s.get? l = some (.list xs)) (hm : t.get? m = some (.list ys)) :
    Matches s (.ref l) t (.ref m) ↔ List.Forall₂ (fun x y => Matches s x t y) xs ys := by
  refine ⟨fun h => ?_, .of_list hl hm⟩
  rcases h.shape with ⟨a, -, ⟨⟩, -⟩ | ⟨_, _, xs', ys', ⟨⟨⟩, hl'⟩, ⟨⟨⟩, hm'⟩, hall⟩ | ⟨_, _, fs, gs, ⟨⟨⟩, hl'⟩, -⟩
  · cases hl.symm.trans hl'
    cases hm.symm.trans hm'
    exact hall
  · cases hl.symm.trans hl'

theorem settled_of_storedAll (h : StoredAll s ds xs) (hds : ∀ d ∈ ds, d.Plain) : ∀ x ∈ xs, x.Settled s := by
  rw [storedAll_iff] at h
  induction h with
  | nil => exact nofun
  | cons hdx _ ih =>
    refine List.forall_mem_cons.mpr ⟨⟨_, hds _ List.mem_cons_self, hdx⟩, ?_⟩
    exact ih fun d hd => hds d (List.mem_cons_of_mem _ hd)

theorem Matches.of_mapping {m : Loc} (hl : s.get? l = some (.mapping fs)) (hm : t.get? m = some (.mapping gs))
    (h : EntriesMatch s fs t gs) : Matches s (.ref l) t (.ref m) := by
  obtain ⟨es, cs, hes, hcs, hsame⟩ := h
  exact ⟨.mapping es, .mapping cs, ⟨l, fs, rfl, hl, hes⟩, ⟨m, gs, rfl, hm, hcs⟩, hsame⟩

/-- Under every key, entries that match have values that match, or nothing. -/
theorem EntriesMatch.lookup (h : EntriesMatch s fs t gs) (key : Data) :
    (s.lookup fs key = none ∧ t.lookup gs key = none) ∨
      ∃ x y, s.lookup fs key = some x ∧ t.lookup gs key = some y ∧ Matches s x t y := by
  obtain ⟨es, cs, hes, hcs, hsame⟩ := h
  rcases hsame.find? key with ⟨hd, hc⟩ | ⟨d, c, hd, hc, hdc⟩
  · rcases hes.lookup key with ⟨-, hx⟩ | ⟨d, x, hd', -⟩
    · rcases hcs.lookup key with ⟨-, hy⟩ | ⟨c, y, hc', -⟩
      · exact .inl ⟨hx, hy⟩
      · cases hc.symm.trans hc'
    · cases hd.symm.trans hd'
  · rcases hes.lookup key with ⟨hd', -⟩ | ⟨d, x, hd', hx, hxs⟩
    · cases hd'.symm.trans hd
    · rcases hcs.lookup key with ⟨hc', -⟩ | ⟨c, y, hc', hy, hys⟩
      · cases hc'.symm.trans hc
      · cases hd'.symm.trans hd
        cases hc'.symm.trans hc
        exact .inr ⟨x, y, hx, hy, d, c, hxs, hys, hdc⟩

/-! ## Comparing -/

namespace Store

/-- Whether a comparison of parts finds out whether they match. -/
def Finds (s : Store) (equal? : Value → Value → Option Bool) : Prop :=
  ∀ {v w b}, v.Settled s → w.Settled s → equal? v w = some b → (b = true ↔ Matches s v s w)

variable {equal? : Value → Value → Option Bool} {b : Bool}

/-- Being one and the same object is having equal contents. -/
theorem Finds.alike? (h : Finds s equal?) (hv : v.Settled s) (hw : w.Settled s) (hb : alike? equal? v w = some b) :
    b = true ↔ Matches s v s w := by
  unfold Store.alike? at hb
  split at hb
  · next hsame =>
    cases hb
    have heq : v = w := by
      unfold Value.isSame at hsame
      split at hsame
      · rw [beq_iff_eq.mp hsame]
      · rw [beq_iff_eq.mp hsame]
      · cases hsame
    subst heq
    exact iff_of_true rfl hv.refl
  · exact h hv hw hb

theorem Finds.allAlike? (h : Finds s equal?) (hxs : ∀ x ∈ xs, x.Settled s) (hys : ∀ y ∈ ys, y.Settled s)
    (hb : allAlike? equal? xs ys = some b) : b = true ↔ List.Forall₂ (fun x y => Matches s x s y) xs ys := by
  induction xs generalizing ys with
  | nil =>
    cases ys with
    | nil =>
      cases hb
      exact iff_of_true rfl .nil
    | cons y ys =>
      cases hb
      exact iff_of_false Bool.false_ne_true nofun
  | cons x xs ih =>
    cases ys with
    | nil =>
      cases hb
      exact iff_of_false Bool.false_ne_true nofun
    | cons y ys =>
      have hx := hxs x List.mem_cons_self
      have hy := hys y List.mem_cons_self
      obtain ⟨b', hb', hrest⟩ := Option.bind_eq_some_iff.mp hb
      have hhead := h.alike? hx hy hb'
      cases b' with
      | true =>
        -- only equal items let the comparison go on
        have htail := ih (fun x hx => hxs x (List.mem_cons_of_mem _ hx))
          (fun y hy => hys y (List.mem_cons_of_mem _ hy)) hrest
        rw [htail, List.forall₂_cons]
        exact ⟨fun h => ⟨hhead.mp rfl, h⟩, And.right⟩
      | false =>
        cases hrest
        refine iff_of_false Bool.false_ne_true fun hall => ?_
        cases hall with
        | cons hxy => exact Bool.false_ne_true (hhead.mpr hxy)

/-- Each entry is looked for among the others by its key. -/
theorem Finds.entriesAlike? (h : Finds s equal?) (hcs : StoredEntries s cs gs) (hc : (Data.mapping cs).Plain)
    (hes : StoredEntries s es fs) (hd : ∀ e ∈ es, (∃ t : String, e.1 = .atom (.text t)) ∧ e.2.Plain)
    (hb : s.entriesAlike? equal? gs fs = some b) :
    b = true ↔ ∀ e ∈ es, ∃ f ∈ cs, f.1 = e.1 ∧ Same e.2 f.2 := by
  rw [storedEntries_iff] at hes
  induction hes generalizing b with
  | nil =>
    cases hb
    exact iff_of_true rfl nofun
  | @cons e f es fs hef _ ih =>
    obtain ⟨⟨t, ht⟩, hplain⟩ := hd e List.mem_cons_self
    have hrest : ∀ e ∈ es, (∃ t : String, e.1 = .atom (.text t)) ∧ e.2.Plain := fun e he =>
      hd e (List.mem_cons_of_mem _ he)
    rw [List.forall_mem_cons]
    have hview : s.view f.1 = .atom (.text t) := by rw [hef.1.view, ht]
    simp only [Store.entriesAlike?, hview] at hb
    rcases hcs.lookup (.atom (.text t)) with ⟨hnone, hlookup⟩ | ⟨c, y, hsome, hlookup, hy⟩
    · -- nothing is found under the key
      rw [hlookup] at hb
      cases hb
      refine iff_of_false Bool.false_ne_true ?_
      rintro ⟨⟨g, hg, hkey, -⟩, -⟩
      obtain ⟨k, c⟩ := g
      cases hkey.trans ht
      cases hnone.symm.trans (hc.keyed.find?_iff.mpr hg)
    · rw [hlookup] at hb
      have hmem := hc.keyed.find?_iff.mp hsome
      have hcplain : c.Plain := hc.entry _ hmem
      obtain ⟨b', hb', hgo⟩ := Option.bind_eq_some_iff.mp hb
      have hhead := h.alike? ⟨e.2, hplain, hef.2⟩ ⟨c, hcplain, hy⟩ hb'
      -- keys occur once, so what is found is the only candidate for a counterpart
      have hmatch : Matches s f.2 s y ↔ ∃ g ∈ cs, g.1 = e.1 ∧ Same e.2 g.2 := by
        constructor
        · rintro ⟨d', c', hd', hc', hsame⟩
          obtain rfl := hef.2.unique hd'
          obtain rfl := hy.unique hc'
          exact ⟨_, hmem, ht.symm, hsame⟩
        · rintro ⟨g, hg, hkey, hsame⟩
          obtain ⟨k, c'⟩ := g
          cases hkey.trans ht
          cases hsome.symm.trans (hc.keyed.find?_iff.mpr hg)
          exact ⟨_, _, hef.2, hy, hsame⟩
      cases b' with
      | true =>
        rw [ih hrest hgo]
        exact ⟨fun h => ⟨hmatch.mp (hhead.mp rfl), h⟩, And.right⟩
      | false =>
        cases hgo
        exact iff_of_false Bool.false_ne_true fun hall => Bool.false_ne_true (hhead.mpr (hmatch.mpr hall.1))

/-- What a comparison finds out is whether two values match. -/
theorem finds_equalWithin? (n : Nat) : s.Finds (s.equalWithin? n) := by
  induction n with
  | zero => exact fun _ _ hb => nomatch hb
  | succ n ih =>
    rintro v w b ⟨d, hd, hvd⟩ ⟨c, hc, hwc⟩ hb
    have hmatches : Matches s v s w ↔ Same d c := by
      constructor
      · rintro ⟨d', c', hd', hc', hsame⟩
        obtain rfl := hvd.unique hd'
        obtain rfl := hwc.unique hc'
        exact hsame
      · exact fun hsame => ⟨d, c, hvd, hwc, hsame⟩
    have hdiffer : b = false → ¬ Same d c → (b = true ↔ Matches s v s w) := by
      rintro rfl hnot
      exact iff_of_false Bool.false_ne_true (mt hmatches.mp hnot)
    -- one case for each pair of shapes; different shapes are found to differ
    cases hd with
    | @atom a ha =>
      cases hvd
      rw [same_atom ha] at hmatches hdiffer
      cases hc with
      | @atom a' ha' =>
        cases hwc
        cases hb
        rw [hmatches, equal_iff_of_plain ha ha', Data.atom.injEq, eq_comm]
      | list =>
        obtain ⟨m, ys, rfl, -⟩ := hwc
        cases hb
        exact hdiffer rfl nofun
      | mapping =>
        obtain ⟨m, gs, rfl, -⟩ := hwc
        cases hb
        exact hdiffer rfl nofun
    | @list ds hds =>
      obtain ⟨l, xs, rfl, hl, hxs⟩ := hvd
      rw [same_list] at hdiffer
      cases hc with
      | atom =>
        cases hwc
        cases hb
        exact hdiffer rfl (by rintro ⟨cs, ⟨⟩, -⟩)
      | @list cs hcs =>
        obtain ⟨m, ys, rfl, hm, hys⟩ := hwc
        simp only [equalWithin?, hl, hm] at hb
        rw [matches_list hl hm] at hdiffer ⊢
        split at hb
        · exact ih.allAlike? (settled_of_storedAll hxs hds) (settled_of_storedAll hys hcs) hb
        · next hne =>
          cases hb
          exact iff_of_false Bool.false_ne_true fun hall => hne hall.length_eq
      | mapping =>
        obtain ⟨m, gs, rfl, hm, -⟩ := hwc
        simp only [equalWithin?, hl, hm] at hb
        cases hb
        exact hdiffer rfl (by rintro ⟨cs, ⟨⟩, -⟩)
    | @mapping es hes hplain =>
      obtain ⟨l, fs, rfl, hl, hfs⟩ := hvd
      rw [same_mapping hes] at hmatches hdiffer
      cases hc with
      | atom =>
        cases hwc
        cases hb
        exact hdiffer rfl (by rintro ⟨cs, ⟨⟩, -⟩)
      | list =>
        obtain ⟨m, ys, rfl, hm, -⟩ := hwc
        simp only [equalWithin?, hl, hm] at hb
        cases hb
        exact hdiffer rfl (by rintro ⟨cs, ⟨⟩, -⟩)
      | @mapping cs hcs hplain' =>
        obtain ⟨m, gs, rfl, hm, hgs⟩ := hwc
        simp only [equalWithin?, hl, hm] at hb
        have hfslength := (storedEntries_iff.mp hfs).length_eq
        have hgslength := (storedEntries_iff.mp hgs).length_eq
        split at hb
        · next heq =>
          have hlength : es.length = cs.length := by omega
          rw [hmatches, ih.entriesAlike? hgs (.mapping hcs hplain') hfs (fun e he => ⟨hes.2 e he, hplain e he⟩) hb]
          refine ⟨fun h => ⟨cs, rfl, hcs, hlength, h⟩, ?_⟩
          rintro ⟨_, ⟨⟩, -, -, h⟩
          exact h
        · next hne =>
          cases hb
          refine hdiffer rfl ?_
          rintro ⟨_, ⟨⟩, -, hlength, -⟩
          omega

theorem equal?_iff (hv : v.Settled s) (hw : w.Settled s) (h : s.equal? v w = some b) : b = true ↔ Matches s v s w :=
  finds_equalWithin? _ hv hw h

theorem isIn?_iff (hv : v.Settled s) (hxs : ∀ x ∈ xs, x.Settled s) (h : s.isIn? v xs = some b) :
    b = true ↔ ∃ x ∈ xs, Matches s x s v := by
  induction xs with
  | nil =>
    cases h
    simp
  | cons x xs ih =>
    obtain ⟨b', hb', hrest⟩ := Option.bind_eq_some_iff.mp h
    have hhead := Finds.alike? (finds_equalWithin? _) (hxs x List.mem_cons_self) hv hb'
    cases b' with
    | true =>
      cases hrest
      exact iff_of_true rfl ⟨x, List.mem_cons_self, hhead.mp rfl⟩
    | false =>
      rw [ih (fun y hy => hxs y (List.mem_cons_of_mem _ hy)) hrest]
      have hnot : ¬ Matches s x s v := fun h => Bool.false_ne_true (hhead.mpr h)
      simp [hnot]

end Store

/-! ## Reading -/

/-- The elements of values that match: as many, and each of one has a counterpart among those of the other. -/
theorem Matches.elements (h : Matches s v t w) :
    (s.elements? v = none ∧ t.elements? w = none) ∨
      ∃ xs ys, (s.elements? v = some xs ∧ t.elements? w = some ys) ∧ xs.length = ys.length ∧
        ∀ y ∈ ys, ∃ x ∈ xs, Matches s x t y := by
  rcases h.shape with ⟨a, ha, rfl, rfl⟩ | ⟨l, m, xs, ys, ⟨rfl, hl⟩, ⟨rfl, hm⟩, hall⟩ |
    ⟨l, m, fs, gs, ⟨rfl, hl⟩, ⟨rfl, hm⟩, es, cs, hes, hcs, hsame⟩
  · cases a with
    | text r =>
      refine .inr ⟨_, _, ⟨rfl, rfl⟩, rfl, fun y hy => ⟨y, hy, ?_⟩⟩
      obtain ⟨c, -, rfl⟩ := List.mem_map.mp hy
      exact Matches.atom_iff.mpr ⟨trivial, rfl⟩
    | null | int | absent | sealed => exact .inl ⟨rfl, rfl⟩
    | _ => exact ha.elim
  · refine .inr ⟨xs, ys, ⟨by simp only [Store.elements?, hl], by simp only [Store.elements?, hm]⟩, hall.length_eq, ?_⟩
    exact exists_of_forall₂ hall.flip
  · obtain ⟨_, heq, hkeyed, hlength, hentries⟩ := (same_mapping hsame.left.keyed).mp hsame
    cases heq
    rw [storedEntries_iff] at hes hcs
    refine .inr ⟨fs.map (·.1), gs.map (·.1), ⟨?_, ?_⟩, ?_, ?_⟩
    · simp only [Store.elements?, hl]
    · simp only [Store.elements?, hm]
    · rw [List.length_map, List.length_map, ← hes.length_eq, ← hcs.length_eq, hlength]
    · -- the elements are the keys, perhaps in another order
      intro y hy
      obtain ⟨g, hg, rfl⟩ := List.mem_map.mp hy
      obtain ⟨c, hc, hkey, -⟩ := exists_of_forall₂ hcs.flip g hg
      obtain ⟨e, he, hsamekey, -⟩ := hsame.left.keyed.counterpart hkeyed hlength hentries c hc
      obtain ⟨f, hf, hkey', -⟩ := exists_of_forall₂ hes e he
      obtain ⟨r, hr⟩ := hkeyed.2 c hc
      rw [hsamekey, hr] at hkey'
      rw [hr] at hkey
      exact ⟨f.1, List.mem_map_of_mem hf, .atom (.text r), .atom (.text r), hkey', hkey, Plain.refl (.atom trivial)⟩

/-- Accessors that read the same part of values that match. -/
def Accessor.Fixed (s t : Store) : Accessor → Prop
  | .attr _ | .optionalAttr _ => True
  | .item _ key => (∃ b, key = .atom b) ∨ Matches s key t key
  | _ => False

theorem Matches.isNull (h : Matches s v t w) : v.isNull = w.isNull := by
  rcases h.shape with ⟨a, -, rfl, rfl⟩ | ⟨l, m, xs, ys, ⟨rfl, -⟩, ⟨rfl, -⟩, -⟩ | ⟨l, m, fs, gs, ⟨rfl, -⟩, ⟨rfl, -⟩, -⟩
  · rfl
  · rfl
  · rfl

theorem Matches.isAbsent (h : Matches s v t w) : v.isAbsent = w.isAbsent := by
  rcases h.shape with ⟨a, -, rfl, rfl⟩ | ⟨l, m, xs, ys, ⟨rfl, -⟩, ⟨rfl, -⟩, -⟩ | ⟨l, m, fs, gs, ⟨rfl, -⟩, ⟨rfl, -⟩, -⟩
  · rfl
  · rfl
  · rfl

theorem isPlain_of_inherent {a : Atom} (ha : a.IsInherent) : a.IsPlain := by
  cases a with
  | null | int | text | sealed => exact ha
  | _ => exact ha.elim

theorem Atom.IsPlain.owner? {a : Atom} (ha : a.IsPlain) : a.owner? = none := by
  cases a with
  | sealed o => simp [Atom.owner?, show o.isOpen = false from ha]
  | null | int | text | absent => rfl
  | _ => exact ha.elim

/-- The parts of a plain atom that is a number are integers. -/
theorem int_of_fixedAttribute? {a : Atom} {n : String} (ha : a.IsPlain)
    (h : Accessor.fixedAttribute? a n = some x) : ∃ k, x = .int k := by
  cases a with
  | int k =>
    obtain ⟨before, after, heq, -⟩ := List.lookup_eq_some_iff.mp h
    have hmem : (n, x) ∈ Accessor.integerAttributes k := by
      show (n, x) ∈ Accessor.numberAttributes (.int k)
      rw [heq]
      exact List.mem_append_right before List.mem_cons_self
    simp only [Accessor.integerAttributes, List.mem_cons, Prod.mk.injEq, List.not_mem_nil, or_false] at hmem
    rcases hmem with ⟨-, rfl⟩ | ⟨-, rfl⟩ | ⟨-, rfl⟩ | ⟨-, rfl⟩
    · exact ⟨_, rfl⟩
    · exact ⟨_, rfl⟩
    · exact ⟨_, rfl⟩
    · exact ⟨_, rfl⟩
  | null | text | absent | sealed => cases h
  | _ => exact ha.elim

/-- The attributes of a plain atom are plain atoms. -/
theorem plain_of_atomAttribute? {a : Atom} {n : String} (ha : a.IsPlain) (hs : s.Owned)
    (h : Accessor.atomAttribute? s a n = some x) : ∃ b : Atom, x = .atom b ∧ b.IsPlain := by
  simp only [Accessor.atomAttribute?, Accessor.given?_plain hs ha.owner?, Option.or_none, Option.or_eq_some_iff] at h
  rcases h with hfixed | ⟨-, hown⟩
  · obtain ⟨k, rfl⟩ := int_of_fixedAttribute? ha hfixed
    exact ⟨_, rfl, trivial⟩
  · obtain ⟨b, rfl, hb⟩ := Accessor.ownAttribute?_inherent hown
    exact ⟨b, rfl, isPlain_of_inherent hb⟩

/-- Attributes of values that match, match. -/
theorem Matches.getAttribute (h : Matches s v t w) (hs : s.Owned) (ht : t.Owned) (n : String) :
    (∃ e, Accessor.getAttribute s v n = .error e ∧ Accessor.getAttribute t w n = .error e) ∨
      ∃ x y, Accessor.getAttribute s v n = .ok x ∧ Accessor.getAttribute t w n = .ok y ∧ Matches s x t y := by
  rcases h.shape with ⟨a, ha, rfl, rfl⟩ | ⟨l, m, xs, ys, ⟨rfl, hl⟩, ⟨rfl, hm⟩, -⟩ |
    ⟨l, m, fs, gs, ⟨rfl, hl⟩, ⟨rfl, hm⟩, hentries⟩
  · simp only [Accessor.getAttribute, Accessor.atomAttribute?_plain hs ht ha.owner?]
    cases hx : Accessor.atomAttribute? s a n with
    | none => exact .inl ⟨_, rfl, rfl⟩
    | some x =>
      obtain ⟨b, rfl, hb⟩ := plain_of_atomAttribute? ha hs hx
      exact .inr ⟨_, _, rfl, rfl, Matches.atom_iff.mpr ⟨hb, rfl⟩⟩
  · simp only [Accessor.getAttribute, hl, hm, Accessor.objectAttribute?]
    cases hx : inherited? "list" "" n with
    | none => exact .inl ⟨_, rfl, rfl⟩
    | some x =>
      obtain ⟨b, rfl, hb⟩ := inherited?_inherent hx
      exact .inr ⟨_, _, rfl, rfl, Matches.atom_iff.mpr ⟨isPlain_of_inherent hb, rfl⟩⟩
  · simp only [Accessor.getAttribute, hl, hm]
    rcases hentries.lookup (.atom (.text n)) with ⟨hx, hy⟩ | ⟨x, y, hx, hy, hxy⟩
    · rw [hx, hy]
      exact .inl ⟨_, rfl, rfl⟩
    · rw [hx, hy]
      exact .inr ⟨x, y, rfl, rfl, hxy⟩

/-- The items of two lists at the place that a key means. -/
theorem pick_matches (h : List.Forall₂ (fun x y => Matches s x t y) xs ys) (key : Value) :
    (∃ e, Accessor.pick xs key = .error e ∧ Accessor.pick ys key = .error e) ∨
      ∃ x y, Accessor.pick xs key = .ok x ∧ Accessor.pick ys key = .ok y ∧ Matches s x t y := by
  unfold Accessor.pick
  rw [← h.length_eq]
  cases Accessor.index? key with
  | none => exact .inl ⟨_, rfl, rfl⟩
  | some i =>
    cases hj : Accessor.place? xs.length i with
    | none =>
      simp only [hj]
      exact .inl ⟨_, rfl, rfl⟩
    | some j =>
      simp only [hj]
      have hlt : j < xs.length := Accessor.place?_lt hj
      have hlt' : j < ys.length := h.length_eq ▸ hlt
      refine .inr ⟨_, _, rfl, rfl, ?_⟩
      rw [List.getElem?_eq_getElem hlt, List.getElem?_eq_getElem hlt']
      exact (List.forall₂_iff_get.mp h).2 j hlt hlt'

/-- Items of values that match, match. -/
theorem Matches.getItem (h : Matches s v t w) {key : Value} (hkey : (∃ b, key = .atom b) ∨ Matches s key t key) :
    (∃ e, Accessor.getItem s v key = .error e ∧ Accessor.getItem t w key = .error e) ∨
      ∃ x y, Accessor.getItem s v key = .ok x ∧ Accessor.getItem t w key = .ok y ∧ Matches s x t y := by
  rcases h.shape with ⟨a, ha, rfl, rfl⟩ | ⟨l, m, xs, ys, ⟨rfl, hl⟩, ⟨rfl, hm⟩, hall⟩ |
    ⟨l, m, fs, gs, ⟨rfl, hl⟩, ⟨rfl, hm⟩, hentries⟩
  · cases a with
    | text r =>
      refine pick_matches (List.forall₂_same.mpr fun x hx => ?_) key
      obtain ⟨c, -, rfl⟩ := List.mem_map.mp hx
      exact Matches.atom_iff.mpr ⟨trivial, rfl⟩
    | null | int | absent | sealed => exact .inl ⟨_, rfl, rfl⟩
    | _ => exact ha.elim
  · simp only [Accessor.getItem, hl, hm]
    exact pick_matches hall key
  · simp only [Accessor.getItem, hl, hm]
    have hatom : ∀ b, key = .atom b → (∃ e, Accessor.foundUnder s key (s.lookup fs (s.view key)) = .error e ∧
          Accessor.foundUnder t key (t.lookup gs (t.view key)) = .error e) ∨
        ∃ x y, Accessor.foundUnder s key (s.lookup fs (s.view key)) = .ok x ∧
          Accessor.foundUnder t key (t.lookup gs (t.view key)) = .ok y ∧ Matches s x t y := by
      rintro b rfl
      have hview : ∀ r : Store, r.view (.atom b) = .atom b := fun _ => rfl
      simp only [Accessor.foundUnder, hview, Data.unhashable?, Option.isSome_none, Bool.false_eq_true, if_false]
      rcases hentries.lookup (.atom b) with ⟨hx, hy⟩ | ⟨x, y, hx, hy, hxy⟩
      · rw [hx, hy]
        exact .inl ⟨_, rfl, rfl⟩
      · rw [hx, hy]
        exact .inr ⟨x, y, rfl, rfl, hxy⟩
    have hchanging : ∀ {d c : Data}, s.view key = d → t.view key = c → d.unhashable?.isSome = true →
        c.unhashable?.isSome = true → ∃ e, Accessor.foundUnder s key (s.lookup fs (s.view key)) = .error e ∧
          Accessor.foundUnder t key (t.lookup gs (t.view key)) = .error e := by
      rintro d c rfl rfl hd hc
      exact ⟨_, if_pos hd, if_pos hc⟩
    rcases hkey with ⟨b, hb⟩ | ⟨d, c, hd, hc, hsame⟩
    · exact hatom b hb
    · cases hsame.left with
      | @atom b =>
        exact hatom b hd
      | list =>
        obtain ⟨cs, rfl, -⟩ := same_list.mp hsame
        exact .inl (hchanging hd.view hc.view rfl rfl)
      | mapping hes =>
        obtain ⟨cs, rfl, -⟩ := (same_mapping hes).mp hsame
        exact .inl (hchanging hd.view hc.view rfl rfl)

/-- Parts of values that match, match. -/
theorem Matches.get (h : Matches s v t w) (hs : s.Owned) (ht : t.Owned) {a : Accessor} (ha : a.Fixed s t) :
    (∃ e, a.get s v = .error e ∧ a.get t w = .error e) ∨
      ∃ x y, a.get s v = .ok x ∧ a.get t w = .ok y ∧ Matches s x t y := by
  cases a with
  | attr n => exact h.getAttribute hs ht n
  | item shown key => exact h.getItem ha
  | optionalAttr n =>
    simp only [Accessor.get, Accessor.getOptional]
    rcases h.getAttribute hs ht n with ⟨e, hx, hy⟩ | ⟨x, y, hx, hy, hxy⟩
    · rw [hx, hy]
      exact .inr ⟨_, _, rfl, rfl, Matches.atom_iff.mpr ⟨trivial, rfl⟩⟩
    · rw [hx, hy]
      refine .inr ⟨_, _, rfl, rfl, ?_⟩
      rw [hxy.isNull]
      split
      · exact Matches.atom_iff.mpr ⟨trivial, rfl⟩
      · exact hxy
  | variant | custom => exact ha.elim

theorem Accessor.Fixed.symm {a : Accessor} (ha : a.Fixed s t) : a.Fixed t s := by
  cases a with
  | attr | optionalAttr => trivial
  | item shown key =>
    rcases ha with hatom | hkey
    · exact .inl hatom
    · exact .inr hkey.symm
  | variant | custom => exact ha.elim

/-- What has a part that can be read shares it with every value that it matches. -/
theorem Matches.part (h : Matches s v t w) (hs : s.Owned) (ht : t.Owned) {a : Accessor} (ha : a.Fixed s t)
    (hx : a.get s v = .ok x) : ∃ y, a.get t w = .ok y ∧ Matches s x t y := by
  rcases h.get hs ht ha with ⟨e, he, -⟩ | ⟨x', y, hx', hy, hxy⟩
  · cases he.symm.trans hx
  · cases hx'.symm.trans hx
    exact ⟨y, hy, hxy⟩

/-- So do sequences share their elements. -/
theorem Matches.element (h : Matches s v t w) (hxs : s.elements? v = some xs) (hx : x ∈ xs) :
    ∃ ys, t.elements? w = some ys ∧ ∃ y ∈ ys, Matches s x t y := by
  rcases h.symm.elements with ⟨-, hnone⟩ | ⟨ys, xs', ⟨hys, hxs'⟩, -, hall⟩
  · cases hnone.symm.trans hxs
  · cases hxs'.symm.trans hxs
    obtain ⟨y, hy, hyx⟩ := hall x hx
    exact ⟨ys, hys, y, hy, hyx.symm⟩

end

end Conform
