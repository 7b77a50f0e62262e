import Conform.Proofs.Focus
import Conform.Proofs.Memory
import Conform.Proofs.Sameness

/-!
# Keys of mappings

A key is a tree that cannot change: an atom, or a tuple or a record made of keys. Among such trees, what equals one
and the same tree is equal (`Data.alike_euclid`), so keys that differ are found at different entries, and putting a
value under one of them does not change what is found under the others (`Store.lookup_insertEntry_unlike`).
-/

namespace Conform

/-! ## Equality of keys -/

theorem Exact.equal_euclid {a b c : Exact} (hb : a.equal b = true) (hc : a.equal c = true) : b.equal c = true := by
  cases a with
  | infinite p =>
    cases b with
    | finite n t => cases hb
    | infinite q =>
      cases c with
      | finite k r => cases hc
      | infinite r =>
        simp only [Exact.equal, beq_iff_eq] at hb hc ⊢
        rw [← hb, hc]
  | finite m s =>
    cases b with
    | infinite q => cases hb
    | finite n t =>
      cases c with
      | infinite r => cases hc
      | finite k r =>
        simp only [Exact.equal, beq_iff_eq] at hb hc ⊢
        have hpos : (twoTo s : Int) ≠ 0 := Int.natCast_ne_zero.mpr (Nat.pos_iff_ne_zero.mp (Nat.two_pow_pos s))
        -- both are the first number, so they agree once the exponents are brought to one
        refine Int.eq_of_mul_eq_mul_right hpos ?_
        calc n * twoTo r * twoTo s = n * twoTo s * twoTo r := Int.mul_right_comm ..
          _ = m * twoTo r * twoTo t := by rw [← hb, Int.mul_right_comm]
          _ = k * twoTo t * twoTo s := by rw [hc, Int.mul_right_comm]

theorem Numeral.equal_euclid {a b c : Numeral} (hb : a.equal b = true) (hc : a.equal c = true) :
    b.equal c = true := by
  unfold Numeral.equal at hb hc ⊢
  cases ha : a.rational? <;> cases hb' : b.rational? <;> cases hc' : c.rational? <;>
    simp only [ha, hb', hc', Bool.false_eq_true] at hb hc ⊢
  exact Exact.equal_euclid hb hc

theorem Atom.equal_euclid {a b c : Atom} (hb : a.equal b = true) (hc : a.equal c = true) : b.equal c = true := by
  unfold Atom.equal at hb hc ⊢
  cases ha : a.numeral? <;> cases hb' : b.numeral? <;> cases hc' : c.numeral? <;>
    simp only [ha, hb', hc', Bool.false_eq_true, beq_iff_eq] at hb hc ⊢
  · rw [← hb, hc]
  · exact Numeral.equal_euclid hb hc

namespace Data

section

variable {a : Atom} {b c d : Data} {ds cs bs : List Data}

theorem alike_nan {m : Nat} : (Data.atom (.nan m)).alike c = true ↔ c = .atom (.nan m) := by
  have hequal : (Data.atom (.nan m)).equal c = false := by
    cases c with
    | atom b =>
      rw [equal, Atom.equal, Atom.numeral?]
      cases b.numeral? <;> rfl
    | _ => simp [equal]
  rw [alike, hequal, Bool.or_false]
  constructor
  · intro h
    unfold sameNaN at h
    split at h
    · next heq =>
      cases heq
      rw [eq_of_beq h]
    · cases h
  · rintro rfl
    exact beq_self_eq_true m

theorem alike_of_ne_nan (h : ∀ m, a ≠ .nan m) : (Data.atom a).alike c = (Data.atom a).equal c := by
  have hnan : sameNaN (.atom a) c = false := by
    cases a with
    | nan m => exact absurd rfl (h m)
    | _ => rfl
  rw [alike, hnan, Bool.false_or]

theorem alike_atoms_euclid {b c : Atom} (hb : (Data.atom a).alike (.atom b) = true)
    (hc : (Data.atom a).alike (.atom c) = true) : (Data.atom b).alike (.atom c) = true := by
  by_cases hnan : ∃ m, a = .nan m
  · obtain ⟨m, rfl⟩ := hnan
    rw [alike_nan] at hb hc
    cases hb
    exact alike_nan.mpr hc
  · rw [not_exists] at hnan
    rw [alike_of_ne_nan hnan, equal] at hb hc
    rw [alike, equal, Atom.equal_euclid hb hc, Bool.or_true]

theorem equalAll_cons : equalAll (d :: ds) (c :: cs) = true ↔ d.alike c = true ∧ equalAll ds cs = true := by
  rw [equalAll, Bool.and_eq_true]
  rfl

theorem alike_tuple {cls cls' : Option TupleClass} :
    (Data.tuple cls ds).alike (.tuple cls' cs) = true ↔ equalAll ds cs = true := by
  simp [alike, sameNaN, equal]

theorem alike_record {cls cls' : RecordClass} :
    (Data.record cls ds).alike (.record cls' cs) = true ↔ cls = cls' ∧ equalAll ds cs = true := by
  simp [alike, sameNaN, equal]

theorem unhashableIn?_cons : unhashableIn? (d :: ds) = none ↔ d.unhashable? = none ∧ unhashableIn? ds = none := by
  rw [unhashableIn?]
  cases d.unhashable? <;> simp

theorem unhashableIn?_of_record {cls : RecordClass} (h : (Data.record cls ds).unhashable? = none) :
    unhashableIn? ds = none := by
  rw [unhashable?] at h
  split at h
  · cases h
  · exact h

-- by induction on the tree in the middle, which the other two have to be built like
mutual

/-- Keys that are like one and the same tree are alike. -/
theorem alike_euclid : ∀ {d c b : Data}, d.alike c = true → d.alike b = true → c.unhashable? = none →
    b.unhashable? = none → c.alike b = true
  | .atom a, c, b, hc, hb, _, _ => by
    cases c with
    | atom c =>
      cases b with
      | atom b => exact alike_atoms_euclid hc hb
      | _ => simp [alike, equal, sameNaN] at hb
    | _ => simp [alike, equal, sameNaN] at hc
  | .tuple cls ds, c, b, hc, hb, hhc, hhb => by
    cases c with
    | tuple cls' cs =>
      cases b with
      | tuple cls'' bs =>
        rw [alike_tuple] at hc hb ⊢
        exact equalAll_euclid hc hb hhc hhb
      | _ => simp [alike, equal, sameNaN] at hb
    | _ => simp [alike, equal, sameNaN] at hc
  | .record cls ds, c, b, hc, hb, hhc, hhb => by
    cases c with
    | record cls' cs =>
      cases b with
      | record cls'' bs =>
        rw [alike_record] at hc hb ⊢
        refine ⟨hc.1.symm.trans hb.1, equalAll_euclid hc.2 hb.2 (unhashableIn?_of_record hhc) ?_⟩
        exact unhashableIn?_of_record hhb
      | _ => simp [alike, equal, sameNaN] at hb
    | _ => simp [alike, equal, sameNaN] at hc
  | .set ds, c, b, hc, hb, hhc, hhb => by
    cases c with
    | set cs => cases hhc
    | _ => simp [alike, equal, sameNaN] at hc
  | .list ds, c, b, hc, hb, hhc, hhb => by
    cases c with
    | list cs => cases hhc
    | _ => simp [alike, equal, sameNaN] at hc
  | .mapping es, c, b, hc, hb, hhc, hhb => by
    cases c with
    | mapping cs => cases hhc
    | _ => simp [alike, equal, sameNaN] at hc
  | .elided n, c, b, hc, hb, hhc, hhb => by
    cases c with
    | elided n => cases hhc
    | _ => simp [alike, equal, sameNaN] at hc

theorem equalAll_euclid : ∀ {ds cs bs : List Data}, equalAll ds cs = true → equalAll ds bs = true →
    unhashableIn? cs = none → unhashableIn? bs = none → equalAll cs bs = true
  | [], cs, bs, hc, hb, _, _ => by
    cases cs with
    | nil => exact hb
    | cons c cs => simp [equalAll] at hc
  | d :: ds, cs, bs, hc, hb, hhc, hhb => by
    cases cs with
    | nil => simp [equalAll] at hc
    | cons c cs =>
      cases bs with
      | nil => simp [equalAll] at hb
      | cons b bs =>
        rw [equalAll_cons] at hc hb ⊢
        obtain ⟨hc', hcs⟩ := unhashableIn?_cons.mp hhc
        obtain ⟨hb', hbs⟩ := unhashableIn?_cons.mp hhb
        exact ⟨alike_euclid hc.1 hb.1 hc' hb', equalAll_euclid hc.2 hb.2 hcs hbs⟩

end

end

end Data

namespace Store

variable {s t : Store} {es : List (Value × Value)} {k key x y : Value} {shown : String} {l : Loc} {i : Nat}

/-! ## Reading keys -/

/-- A tree is the same while the objects that it is read from are. -/
theorem view_of_same (hs : s.Whole) (hk : k.bound ≤ s.size)
    (h : ∀ m ∈ s.reachable k.refs, t.get? m = s.get? m) : t.view k = s.view k := by
  have himage : Image ⟨id, id⟩ {p | ∀ m, p = .object m → m ∈ s.reachable k.refs} False s.ungiven t.ungiven := by
    refine image_of_refs (fun _ => rfl) (fun m o hm ho r hr => ?_) (fun m hm => ?_) fun _ _ _ _ heq => heq
    · exact reachable_closed hm ho hr (hs.ref_lt ho hr)
    · obtain ⟨o, ho⟩ := exists_get? (lt_of_mem_reachable hm)
      refine ⟨o, ho, ?_⟩
      rw [Object.move_id]
      exact (h m hm).trans ho
  have hview := himage.view_eq (v := k) fun m hm m' heq => by
    cases heq
    exact mem_reachable_root hm (Value.bound_le.mp hk m hm)
  rwa [Value.move_id, view_ungiven, view_ungiven] at hview

/-! ## Entries -/

theorem map_insertEntry (h : s.lookup es (s.view key) = some x) :
    (s.insertEntry key y es).map (·.1) = es.map (·.1) := by
  induction es with
  | nil => cases h
  | cons e es ih =>
    obtain ⟨k, v⟩ := e
    rw [lookup_cons] at h
    rw [insertEntry]
    split
    · rfl
    · next hk =>
      rw [if_neg hk] at h
      rw [List.map_cons, List.map_cons, ih h]

/-- An entry under another key stays in its place. -/
theorem getElem?_insertEntry {e : Value × Value} (h : es[i]? = some e)
    (he : ¬ (s.view e.1).alike (s.view key) = true) : (s.insertEntry key y es)[i]? = some e := by
  induction es generalizing i with
  | nil => cases h
  | cons e' es ih =>
    obtain ⟨k, v⟩ := e'
    rw [insertEntry]
    cases i with
    | zero =>
      cases h
      rw [if_neg he]
      rfl
    | succ i =>
      split
      · exact h
      · exact ih h

/-- What is found under a key is what the entry of a key like it holds. -/
theorem lookup_congr (hview : ∀ e ∈ es, t.view e.1 = s.view e.1) (d : Data) : t.lookup es d = s.lookup es d := by
  induction es with
  | nil => rfl
  | cons e es ih =>
    obtain ⟨k, v⟩ := e
    rw [lookup_cons, lookup_cons, hview _ List.mem_cons_self, ih fun e he => hview e (List.mem_cons_of_mem _ he)]

theorem insertEntry_congr (hkey : t.view key = s.view key) (hview : ∀ e ∈ es, t.view e.1 = s.view e.1) :
    t.insertEntry key y es = s.insertEntry key y es := by
  induction es with
  | nil => rfl
  | cons e es ih =>
    obtain ⟨k, v⟩ := e
    rw [insertEntry, insertEntry, hkey, hview _ List.mem_cons_self, ih fun e he => hview e (List.mem_cons_of_mem _ he)]

/-- What is under another key that can be looked up is not touched by storing under one. -/
theorem lookup_insertEntry_unlike {d : Data} (hkey : (s.view key).unhashable? = none) (hd : d.unhashable? = none)
    (hne : ¬ (s.view key).alike d = true) : s.lookup (s.insertEntry key y es) d = s.lookup es d :=
  lookup_insertEntry_other hne fun _ _ hk hk' => hne (Data.alike_euclid hk hk' hkey hd)

/-! ## Items of a mapping -/

theorem get_item_iff (hes : s.get? l = some (.mapping es)) : (Accessor.item shown key).get s (.ref l) = .ok x ↔
    (s.view key).unhashable? = none ∧ s.lookup es (s.view key) = some x := by
  simp only [Accessor.get, Accessor.getItem, hes, Accessor.foundUnder]
  cases hkey : (s.view key).unhashable? with
  | some name => simp
  | none =>
    simp only [Option.isSome_none, Bool.false_eq_true, if_false, true_and]
    cases s.lookup es (s.view key) <;> simp

theorem set_item (hes : s.get? l = some (.mapping es)) (hkey : (s.view key).unhashable? = none) :
    (Accessor.item shown key).set s (.ref l) y =
      .ok (.ref l, s.put l (.mapping (s.insertEntry key y es))) := by
  simp only [Accessor.set, Accessor.setItem, hes, hkey, Option.isSome_none, Bool.false_eq_true, if_false,
    Accessor.setEntry]

end Store

end Conform
