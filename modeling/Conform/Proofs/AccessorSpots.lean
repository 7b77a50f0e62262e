import Conform.Proofs.Rebuilding

/-!
# Spots in a value

An accessor reads and stores at one spot of a value: at an index of the parts that a list, a tuple or a record
has in a row, or under a key of a mapping. What is written at a spot is read back, writing what is there changes
nothing, the second of two writes counts, and other spots keep their parts (`Store.Written`, `Store.writeAt_readAt?`).
A key that can be looked up contains no mapping, so writing an entry does not change what the keys are
(`Store.view_put_mapping`).
-/

namespace Conform

/-! ## Keys that can be looked up -/

namespace Data

mutual

/-- What is like a key that can be looked up can be looked up too. -/
theorem hashable_of_alike : ∀ {d c : Data}, d.alike c = true → c.unhashable? = none → d.unhashable? = none
  | .atom a, _, _, _ => rfl
  | .tuple cls ds, c, h, hc => by
    cases c with
    | tuple cls' cs => exact hashable_of_equalAll (alike_tuple.mp h) hc
    | _ => simp [alike, equal, sameNaN] at h
  | .record cls ds, c, h, hc => by
    cases c with
    | record cls' cs =>
      obtain ⟨rfl, hitems⟩ := alike_record.mp h
      rw [unhashable?] at hc ⊢
      split at hc
      · cases hc
      · next hkeeping => rw [if_neg hkeeping, hashable_of_equalAll hitems hc]
    | _ => simp [alike, equal, sameNaN] at h
  | .set ds, c, h, hc => by
    cases c with
    | set cs => cases hc
    | _ => simp [alike, equal, sameNaN] at h
  | .list ds, c, h, hc => by
    cases c with
    | list cs => cases hc
    | _ => simp [alike, equal, sameNaN] at h
  | .mapping es, c, h, hc => by
    cases c with
    | mapping cs => cases hc
    | _ => simp [alike, equal, sameNaN] at h
  | .elided n, c, h, hc => by
    cases c with
    | elided n => cases hc
    | _ => simp [alike, equal, sameNaN] at h

theorem hashable_of_equalAll : ∀ {ds cs : List Data}, equalAll ds cs = true → unhashableIn? cs = none →
    unhashableIn? ds = none
  | [], _, _, _ => rfl
  | d :: ds, cs, h, hcs => by
    cases cs with
    | nil => simp [equalAll] at h
    | cons c cs =>
      rw [equalAll_cons] at h
      rw [unhashableIn?_cons] at hcs ⊢
      exact ⟨hashable_of_alike h.1 hcs.1, hashable_of_equalAll h.2 hcs.2⟩

end

end Data

namespace Value

variable {f g : Loc → Data}

mutual

/-- The tree of a key that can be looked up depends only on places whose trees can be. -/
theorem view_congr_hashable (h : ∀ m, (f m).unhashable? = none → g m = f m) :
    ∀ {v : Value}, (v.view f).unhashable? = none → v.view g = v.view f
  | .atom a, _ => rfl
  | .tuple cls xs, hv => by rw [view, view, viewAll_congr_hashable h hv]
  | .set xs, hv => by cases hv
  | .frozen cls xs, hv => by rw [view, view, viewAll_congr_hashable h (Data.unhashableIn?_of_record hv)]
  | .ref m, hv => h m hv

theorem viewAll_congr_hashable (h : ∀ m, (f m).unhashable? = none → g m = f m) :
    ∀ {xs : List Value}, Data.unhashableIn? (viewAll f xs) = none → viewAll g xs = viewAll f xs
  | [], _ => rfl
  | x :: xs, hxs => by
    obtain ⟨hx, hrest⟩ := Data.unhashableIn?_cons.mp hxs
    rw [viewAll, viewAll, view_congr_hashable h hx, viewAll_congr_hashable h hrest]

end

end Value

namespace Store

variable {s t : Store} {l : Loc} {o o' : Object} {es fs : List (Value × Value)} {k key v p x y : Value}

theorem put_put : (s.put l o).put l o' = s.put l o' := by simp [put]

/-- Putting an object where it is changes nothing. -/
theorem put_get? (h : s.get? l = some o) : s.put l o = s := by
  have hobjects : s.objects.setIfInBounds l o = s.objects := by
    apply Array.ext_getElem?
    intro m
    rw [Array.getElem?_setIfInBounds]
    split
    · next hm =>
      subst hm
      rw [if_pos (show l < s.objects.size from lt_size_of_get? h)]
      exact h.symm
    · rfl
  rw [put, hobjects]

theorem viewAt_put_mapping (hes : s.get? l = some (.mapping es)) :
    ∀ {fuel : Nat} {path : List Loc} {m : Loc}, (s.viewAt fuel path m).unhashable? = none →
      (s.put l (.mapping fs)).viewAt fuel path m = s.viewAt fuel path m
  | 0, _, _, h => by cases h
  | fuel + 1, path, m, h => by
    rw [viewAt] at h
    cases hm : s.get? m with
    | none =>
      rw [hm] at h
      cases h
    | some o =>
      simp only [hm] at h
      split at h
      · cases h
      · next hpath =>
        -- of all objects only a record can be part of a key
        cases o with
        | record cls xs extras =>
          have hne : l ≠ m := by
            rintro rfl
            rw [hes] at hm
            cases hm
          simp only [viewAt, get?_put_of_ne hne, hm, if_neg hpath, Object.view]
          rw [Value.viewAll_congr_hashable (fun n => viewAt_put_mapping hes)
            (Data.unhashableIn?_of_record h)]
        | list xs => cases h
        | mapping es => cases h
        | slots xs => cases h

/-- A key that can be looked up contains no mapping, so it stays what it is when a mapping changes. -/
theorem view_put_mapping (hes : s.get? l = some (.mapping es)) (hk : (s.view k).unhashable? = none) :
    (s.put l (.mapping fs)).view k = s.view k := by
  have hsize : (s.put l (.mapping fs)).objects.size = s.objects.size := size_put
  rw [view, view, hsize]
  exact Value.view_congr_hashable (fun m => viewAt_put_mapping hes) hk

theorem get?_put_mapping (hes : s.get? l = some (.mapping es)) :
    (s.put l (.mapping fs)).get? l = some (.mapping fs) := get?_put_same (lt_size_of_get? hes)

/-- Whether a value is like a key that can be looked up does not change with a mapping. -/
theorem alike_put_mapping (hes : s.get? l = some (.mapping es)) (hk : (s.view k).unhashable? = none) (v : Value) :
    ((s.put l (.mapping fs)).view v).alike (s.view k) = (s.view v).alike (s.view k) := by
  by_cases hv : (s.view v).unhashable? = none
  · rw [view_put_mapping hes hv]
  · have hback : (s.put l (.mapping fs)).put l (.mapping es) = s := by rw [put_put, put_get? hes]
    have hafter : ¬ ((s.put l (.mapping fs)).view v).unhashable? = none := by
      intro h
      have hsame : ((s.put l (.mapping fs)).put l (.mapping es)).view v = (s.put l (.mapping fs)).view v :=
        view_put_mapping (get?_put_mapping hes) h
      rw [hback] at hsame
      rw [hsame] at hv
      exact hv h
    rw [Bool.eq_false_iff.mpr fun h => hafter (Data.hashable_of_alike h hk),
      Bool.eq_false_iff.mpr fun h => hv (Data.hashable_of_alike h hk)]

theorem lookup_put_mapping (hes : s.get? l = some (.mapping es)) (hk : (s.view k).unhashable? = none)
    (entries : List (Value × Value)) :
    (s.put l (.mapping fs)).lookup entries ((s.put l (.mapping fs)).view k) = s.lookup entries (s.view k) := by
  rw [view_put_mapping hes hk, lookup, lookup]
  simp only [alike_put_mapping hes hk]

theorem insertEntry_put_mapping (hes : s.get? l = some (.mapping es)) (hk : (s.view k).unhashable? = none)
    (entries : List (Value × Value)) :
    (s.put l (.mapping fs)).insertEntry k x entries = s.insertEntry k x entries := by
  induction entries with
  | nil => rfl
  | cons e entries ih =>
    rw [insertEntry, insertEntry, view_put_mapping hes hk, alike_put_mapping hes hk, ih]

/-! ## Entries -/

/-- Putting under a key what is there changes nothing. -/
theorem insertEntry_found (h : s.lookup es (s.view key) = some x) : s.insertEntry key x es = es := by
  induction es with
  | nil => cases h
  | cons e es ih =>
    obtain ⟨k, v⟩ := e
    rw [lookup_cons] at h
    rw [insertEntry]
    split at h
    · next hk =>
      cases h
      rw [if_pos hk]
    · next hk => rw [if_neg hk, ih h]

/-- Of two values put under one key the second counts. -/
theorem insertEntry_insertEntry : s.insertEntry key y (s.insertEntry key x es) = s.insertEntry key y es := by
  induction es with
  | nil => simp [insertEntry, Data.alike_self]
  | cons e es ih =>
    obtain ⟨k, v⟩ := e
    by_cases hk : (s.view k).alike (s.view key) = true
    · simp [insertEntry, hk]
    · simp [insertEntry, hk, ih]

end Store

/-! ## Spots -/

/-- A spot at which a value has a part: an index of the parts in a row, or a key of a mapping. -/
inductive Spot
  | index (i : Nat)
  | key (k : Value)

namespace Store

/-- The parts that a value has in a row: the items of a list or a tuple, the declared fields of a record. -/
def parts? (s : Store) : Value → Option (List Value)
  | .tuple _ xs | .frozen _ xs => some xs
  | .ref l =>
    match s.get? l with
    | some (.list xs) | some (.record _ xs _) => some xs
    | _ => none
  | _ => none

/-- The entries of a mapping. -/
def entries? (s : Store) : Value → Option (List (Value × Value))
  | .ref l =>
    match s.get? l with
    | some (.mapping es) => some es
    | _ => none
  | _ => none

/-- The part at a spot. -/
def readAt? (s : Store) (p : Value) : Spot → Option Value
  | .index i => (s.parts? p).bind (·[i]?)
  | .key k => (s.entries? p).bind (s.lookup · (s.view k))

/-- The value with other parts in a row. An object keeps its place. -/
def withParts (s : Store) (p : Value) (xs : List Value) : Value × Store :=
  match p with
  | .tuple cls _ => (.tuple cls xs, s)
  | .frozen cls _ => (.frozen cls xs, s)
  | .ref l =>
    match s.get? l with
    | some (.list _) => (p, s.put l (.list xs))
    | some (.record cls _ extras) => (p, s.put l (.record cls xs extras))
    | _ => (p, s)
  | _ => (p, s)

/-- The mapping with other entries. -/
def withEntries (s : Store) (p : Value) (es : List (Value × Value)) : Value × Store :=
  match p with
  | .ref l => (p, s.put l (.mapping es))
  | _ => (p, s)

/-- The value with another part at a spot, and the store after that. -/
def writeAt (s : Store) (p x : Value) : Spot → Value × Store
  | .index i => s.withParts p (((s.parts? p).getD []).set i x)
  | .key k => s.withEntries p (s.insertEntry k x ((s.entries? p).getD []))

/-- What a value keeps when its parts change: its class, how many parts it has, and the keys of a mapping. -/
inductive Shape
  | list (size : Nat)
  | tuple (cls : Option TupleClass) (size : Nat)
  | frozen (cls : RecordClass) (size : Nat)
  | record (cls : RecordClass) (size : Nat) (extras : List (String × Value))
  | mapping (keys : List Value)
  | other

/-- The shape of a value. -/
def shape (s : Store) : Value → Shape
  | .tuple cls xs => .tuple cls xs.length
  | .frozen cls xs => .frozen cls xs.length
  | .ref l =>
    match s.get? l with
    | some (.list xs) => .list xs.length
    | some (.record cls xs extras) => .record cls xs.length extras
    | some (.mapping es) => .mapping (es.map (·.1))
    | _ => .other
  | _ => .other

end Store

/-- Whether two spots are different ones. Keys are if they are not alike. -/
def Spot.Apart (s : Store) : Spot → Spot → Prop
  | .index i, .index j => i ≠ j
  | .key k, .key m => ¬ (s.view k).alike (s.view m) = true
  | _, _ => True

/-- Whether a spot can be looked up. -/
def Spot.Findable (s : Store) : Spot → Prop
  | .index _ => True
  | .key k => (s.view k).unhashable? = none

namespace Store

variable {s t : Store} {l : Loc} {es fs : List (Value × Value)} {xs ys : List Value} {k p q g x y : Value}
  {σ τ : Spot}

/-! ### Parts in a row -/

/-- The values that have parts in a row. -/
inductive Row (s : Store) : Value → List Value → Prop
  | tuple {cls : Option TupleClass} {xs : List Value} : Row s (.tuple cls xs) xs
  | frozen {cls : RecordClass} {xs : List Value} : Row s (.frozen cls xs) xs
  | list {l : Loc} {xs : List Value} (h : s.get? l = some (.list xs)) : Row s (.ref l) xs
  | record {l : Loc} {cls : RecordClass} {xs : List Value} {extras : List (String × Value)}
    (h : s.get? l = some (.record cls xs extras)) : Row s (.ref l) xs

theorem row_of_parts? (h : s.parts? p = some xs) : s.Row p xs := by
  cases p with
  | tuple cls zs =>
    cases h
    exact .tuple
  | frozen cls zs =>
    cases h
    exact .frozen
  | ref l =>
    rw [parts?] at h
    split at h
    · next hl =>
      cases h
      exact .list hl
    · next hl =>
      cases h
      exact .record hl
    · cases h
  | atom a => cases h
  | set zs => cases h

theorem Row.parts? (h : s.Row p xs) : s.parts? p = some xs := by
  cases h with
  | tuple => rfl
  | frozen => rfl
  | list h => simp only [Store.parts?, h]
  | record h => simp only [Store.parts?, h]

/-- Other parts in a row are the parts then, and the parts before can be put back and replaced as if they had never
gone. -/
theorem Row.withParts (h : s.Row p xs) (ys : List Value) (hp : s.withParts p ys = (q, t)) :
    t.Row q ys ∧ (∀ zs, t.withParts q zs = s.withParts p zs) ∧ s.withParts p xs = (p, s) ∧
      (ys.length = xs.length → t.shape q = s.shape p) := by
  cases h with
  | tuple =>
    cases hp
    exact ⟨.tuple, fun _ => rfl, rfl, fun hlength => by rw [shape, shape, hlength]⟩
  | frozen =>
    cases hp
    exact ⟨.frozen, fun _ => rfl, rfl, fun hlength => by rw [shape, shape, hlength]⟩
  | list h =>
    simp only [Store.withParts, h] at hp
    cases hp
    have hafter := get?_put_same (o := .list ys) (lt_size_of_get? h)
    refine ⟨.list hafter, fun zs => ?_, ?_, fun hlength => ?_⟩
    · simp only [Store.withParts, h, hafter, put_put]
    · simp only [Store.withParts, h, put_get? h]
    · simp only [shape, h, hafter, hlength]
  | @record l cls _ extras h =>
    simp only [Store.withParts, h] at hp
    cases hp
    have hafter := get?_put_same (o := .record cls ys extras) (lt_size_of_get? h)
    refine ⟨.record hafter, fun zs => ?_, ?_, fun hlength => ?_⟩
    · simp only [Store.withParts, h, hafter, put_put]
    · simp only [Store.withParts, h, put_get? h]
    · simp only [shape, h, hafter, hlength]

/-! ### Entries -/

theorem eq_ref_of_entries? (h : s.entries? p = some es) : ∃ l, p = .ref l ∧ s.get? l = some (.mapping es) := by
  cases p with
  | ref l =>
    rw [entries?] at h
    split at h
    · next hl =>
      cases h
      exact ⟨l, rfl, hl⟩
    · cases h
  | _ => cases h

/-! ### Laws -/

/-- What a write leaves: the part is at the spot, a further write there makes as if it had been the first, the parts
at other spots are what they were, and so is the shape. -/
structure Written (s : Store) (p : Value) (σ : Spot) (x q : Value) (t : Store) : Prop where
  read : t.readAt? q σ = some x
  again : ∀ y, t.writeAt q y σ = s.writeAt p y σ
  other : ∀ τ : Spot, τ.Findable s → σ.Apart s τ → t.readAt? q τ = s.readAt? p τ
  shape : t.shape q = s.shape p

theorem Row.entries? (h : s.Row p xs) : s.entries? p = none := by
  cases h with
  | tuple => rfl
  | frozen => rfl
  | list h => simp only [Store.entries?, h]
  | record h => simp only [Store.entries?, h]

theorem written_index {i : Nat} (h : s.readAt? p (.index i) = some g) (hw : s.writeAt p x (.index i) = (q, t)) :
    Written s p (.index i) x q t := by
  obtain ⟨xs, hparts, hi⟩ := Option.bind_eq_some_iff.mp h
  have hrow := row_of_parts? hparts
  simp only [writeAt, hparts, Option.getD_some] at hw
  obtain ⟨hafter, hagain, -, hshape⟩ := hrow.withParts _ hw
  refine ⟨?_, fun y => ?_, fun τ _ hne => ?_, hshape List.length_set⟩
  · simp only [readAt?, hafter.parts?, Option.bind_some, List.getElem?_set_self (List.getElem?_eq_some_iff.mp hi).1]
  · simp only [writeAt, hafter.parts?, hparts, Option.getD_some, List.set_set, hagain]
  · cases τ with
    | index j => simp only [readAt?, hafter.parts?, hparts, Option.bind_some, List.getElem?_set_ne hne]
    | key k => simp only [readAt?, hafter.entries?, hrow.entries?, Option.bind_none]

theorem written_key (hk : (s.view k).unhashable? = none) (h : s.readAt? p (.key k) = some g)
    (hw : s.writeAt p x (.key k) = (q, t)) : Written s p (.key k) x q t := by
  obtain ⟨es, hentries, hlookup⟩ := Option.bind_eq_some_iff.mp h
  obtain ⟨l, rfl, hl⟩ := eq_ref_of_entries? hentries
  simp only [writeAt, hentries, Option.getD_some, withEntries] at hw
  cases hw
  have hafter : (s.put l (.mapping (s.insertEntry k x es))).get? l = some (.mapping (s.insertEntry k x es)) :=
    get?_put_mapping hl
  have hread : (s.put l (.mapping (s.insertEntry k x es))).entries? (.ref l) = some (s.insertEntry k x es) := by
    simp only [entries?, hafter]
  refine ⟨?_, fun y => ?_, fun τ hτ hne => ?_, ?_⟩
  · simp only [readAt?, hread, Option.bind_some]
    rw [lookup_put_mapping hl hk, lookup_insertEntry_self hlookup]
  · simp only [writeAt, hread, hentries, Option.getD_some, withEntries]
    rw [insertEntry_put_mapping hl hk, insertEntry_insertEntry, put_put]
  · cases τ with
    | index j =>
      simp only [readAt?, parts?, hafter, hl]
    | key m =>
      simp only [readAt?, hread, hentries, Option.bind_some]
      rw [lookup_put_mapping hl hτ, lookup_insertEntry_unlike hk hτ hne]
  · simp only [shape, hafter, hl, map_insertEntry hlookup]

/-- What is written where a part was found. -/
theorem written (hσ : σ.Findable s) (h : s.readAt? p σ = some g) (hw : s.writeAt p x σ = (q, t)) :
    Written s p σ x q t := by
  cases σ with
  | index i => exact written_index h hw
  | key k => exact written_key hσ h hw

/-- Writing the part that is there changes nothing. -/
theorem writeAt_readAt? (h : s.readAt? p σ = some g) : s.writeAt p g σ = (p, s) := by
  cases σ with
  | index i =>
    obtain ⟨xs, hparts, hi⟩ := Option.bind_eq_some_iff.mp h
    obtain ⟨hlt, rfl⟩ := List.getElem?_eq_some_iff.mp hi
    have hsame : xs.set i xs[i] = xs := List.set_getElem_self hlt
    simp only [writeAt, hparts, Option.getD_some, hsame]
    exact ((row_of_parts? hparts).withParts xs rfl).2.2.1
  | key k =>
    obtain ⟨es, hentries, hlookup⟩ := Option.bind_eq_some_iff.mp h
    obtain ⟨l, rfl, hl⟩ := eq_ref_of_entries? hentries
    simp only [writeAt, hentries, Option.getD_some, withEntries]
    rw [insertEntry_found hlookup, put_get? hl]

/-! ### What is written to -/

/-- Writing to an object replaces that object alone. -/
theorem writeAt_ref (h : s.readAt? (.ref l) σ = some g) : ∃ o, s.writeAt (.ref l) x σ = (.ref l, s.put l o) := by
  cases σ with
  | index i =>
    obtain ⟨xs, hparts, -⟩ := Option.bind_eq_some_iff.mp h
    simp only [writeAt, hparts, Option.getD_some]
    cases row_of_parts? hparts with
    | list h => exact ⟨_, by simp only [withParts, h]; rfl⟩
    | record h => exact ⟨_, by simp only [withParts, h]; rfl⟩
  | key k => exact ⟨_, rfl⟩

/-- Writing to any other value leaves all objects as they are. -/
theorem writeAt_value (hp : ∀ l, p ≠ .ref l) : (s.writeAt p x σ).2 = s := by
  cases p with
  | ref l => exact absurd rfl (hp l)
  | _ => cases σ <;> rfl

/-! ### Shapes -/

theorem shape_eq_mapping {ks : List Value} (h : s.shape p = .mapping ks) :
    ∃ l es, p = .ref l ∧ s.get? l = some (.mapping es) := by
  cases p with
  | ref l =>
    rw [shape] at h
    split at h
    · cases h
    · cases h
    · next es hl => exact ⟨l, es, rfl, hl⟩
    · cases h
  | _ => cases h

theorem shape_eq_list {n : Nat} (h : s.shape p = .list n) :
    ∃ l xs, p = .ref l ∧ s.get? l = some (.list xs) ∧ xs.length = n := by
  cases p with
  | ref l =>
    rw [shape] at h
    split at h
    · next xs hl =>
      cases h
      exact ⟨l, xs, rfl, hl, rfl⟩
    · cases h
    · cases h
    · cases h
  | _ => cases h

theorem shape_eq_record {cls : RecordClass} {n : Nat} {extras : List (String × Value)}
    (h : s.shape p = .record cls n extras) :
    ∃ l xs, p = .ref l ∧ s.get? l = some (.record cls xs extras) ∧ xs.length = n := by
  cases p with
  | ref l =>
    rw [shape] at h
    split at h
    · cases h
    · next hl =>
      cases h
      exact ⟨l, _, rfl, hl, rfl⟩
    · cases h
    · cases h
  | _ => cases h

theorem shape_eq_tuple {cls : Option TupleClass} {n : Nat} (h : s.shape p = .tuple cls n) :
    ∃ xs, p = .tuple cls xs ∧ xs.length = n := by
  cases p with
  | tuple cls xs =>
    cases h
    exact ⟨xs, rfl, rfl⟩
  | ref l =>
    rw [shape] at h
    split at h <;> cases h
  | _ => cases h

theorem shape_eq_frozen {cls : RecordClass} {n : Nat} (h : s.shape p = .frozen cls n) :
    ∃ xs, p = .frozen cls xs ∧ xs.length = n := by
  cases p with
  | frozen cls xs =>
    cases h
    exact ⟨xs, rfl, rfl⟩
  | ref l =>
    rw [shape] at h
    split at h <;> cases h
  | _ => cases h

/-- A key that could be looked up can still be when a part has been written somewhere in a mapping. -/
theorem hashable_writeAt {es : List (Value × Value)} (hes : s.get? l = some (.mapping es))
    (h : s.readAt? (.ref l) σ = some g) (hk : (s.view k).unhashable? = none) :
    ((s.writeAt (.ref l) x σ).2.view k).unhashable? = none := by
  cases σ with
  | index i =>
    simp only [readAt?, parts?, hes, Option.bind_none] at h
    cases h
  | key m =>
    rw [writeAt, withEntries, view_put_mapping hes hk]
    exact hk

end Store
end Conform
