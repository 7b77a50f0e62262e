import Conform.Proofs.Keys

/-!
# Rebuilding sequences

`Store.rebuild` puts new items into a value of the class of a sequence. `Value.Admits` tells which items a sequence
can hold: a list and a tuple without names hold any, a tuple with named places as many as there are names, a text
single characters, a byte string integers from 0 to 255. `Store.Rebuilt` is what comes of it. The main results are
that items are put in just if they are admitted (`Store.rebuild_of_admits`, `Store.rebuild_of_not_admits`), and that
what comes of it is of the same class and has elements that equal the items (`Store.Rebuilt.elements`).
-/

namespace Conform

/-! ## Equality of a tree with itself -/

theorem Exact.equal_self (a : Exact) : a.equal a = true := by
  cases a <;> exact beq_self_eq_true _

theorem Numeral.equal_self {n : Numeral} (h : n ≠ .nan) : n.equal n = true := by
  cases n with
  | nan => exact absurd rfl h
  | int k => exact Exact.equal_self (.ofInt k)
  | float x => exact Exact.equal_self x.exact

/-- Only a NaN is the number that is none. -/
theorem Atom.numeral?_ne_nan {a : Atom} (h : ∀ m, a ≠ .nan m) : a.numeral? ≠ some .nan := by
  cases a with
  | nan m => exact absurd rfl (h m)
  | float x => simp [numeral?]
  | _ => simp [numeral?, Option.map_eq_some_iff]

theorem Atom.equal_self {a : Atom} (h : ∀ m, a ≠ .nan m) : a.equal a = true := by
  unfold Atom.equal
  cases ha : a.numeral? with
  | none => exact beq_self_eq_true a
  | some n => exact Numeral.equal_self fun hn => numeral?_ne_nan h (hn ▸ ha)

namespace Data

mutual

/-- Every tree is like itself: a NaN by its identity, all else by contents. -/
theorem alike_self : ∀ d : Data, d.alike d = true
  | .atom a => by
    by_cases h : ∃ m, a = .nan m
    · obtain ⟨m, rfl⟩ := h
      exact alike_nan.mpr rfl
    · rw [not_exists] at h
      rw [alike_of_ne_nan h, equal, Atom.equal_self h]
  | .tuple cls ds => alike_tuple.mpr (equalAll_self ds)
  | .set ds => by
    have hwithin : ∀ xs ⊆ ds, allWithin xs ds = true := by
      intro xs
      induction xs with
      | nil => simp [allWithin]
      | cons x xs ih =>
        intro hsub
        obtain ⟨hx, hxs⟩ := List.cons_subset.mp hsub
        rw [allWithin, ih hxs, Bool.and_true, List.any_eq_true]
        exact ⟨x, hx, alike_mem ds x hx⟩
    simp [alike, equal, hwithin ds (List.Subset.refl _)]
  | .list ds => by simp [alike, equal, equalAll_self ds]
  | .mapping es => by
    have hwithin : entriesWithin es es = true := entriesWithin_iff.mpr fun e he =>
      ⟨e, he, alike_entries es e he⟩
    simp [alike, equal, hwithin]
  | .record cls ds => alike_record.mpr ⟨rfl, equalAll_self ds⟩
  | .elided name => by simp [alike, equal]

theorem equalAll_self : ∀ ds : List Data, equalAll ds ds = true
  | [] => by simp [equalAll]
  | d :: ds => equalAll_cons.mpr ⟨alike_self d, equalAll_self ds⟩

theorem alike_mem : ∀ (ds : List Data), ∀ d ∈ ds, d.alike d = true
  | [], d, h => absurd h List.not_mem_nil
  | c :: cs, d, h => by
    rcases List.mem_cons.mp h with heq | hmem
    · rw [heq]
      exact alike_self c
    · exact alike_mem cs d hmem

theorem alike_entries : ∀ (es : List (Data × Data)), ∀ e ∈ es, e.1.alike e.1 = true ∧ e.2.alike e.2 = true
  | [], e, h => absurd h List.not_mem_nil
  | (k, c) :: es, e, h => by
    rcases List.mem_cons.mp h with heq | hmem
    · rw [heq]
      exact ⟨alike_self k, alike_self c⟩
    · exact alike_entries es e hmem

end

end Data

/-! ## Sequences and what they can hold -/

/-- Whether a value is an integer that a byte string holds as the given byte. -/
def Value.IsByte (x : Value) (b : UInt8) : Prop := ∃ a, x = .atom a ∧ a.integer? = some b.toNat

/-- Whether a value is a text of one character. -/
def Value.IsCharacter (x : Value) (c : Char) : Prop := x = .text (String.ofList [c])

/-- Whether a sequence of the class of a value can hold some items. A list and a tuple without names hold any items, a
tuple with named places as many as there are names, a text single characters, and a byte string integers from 0 to
255, truth values and members of integral enumerations among them. -/
def Value.Admits (v : Value) (items : List Value) : Prop :=
  match v with
  | .tuple (some cls) _ => items.length = cls.fields.length
  | .atom (.text _) => ∀ x ∈ items, ∃ c, x.IsCharacter c
  | .atom (.bytes _) => ∀ x ∈ items, ∃ b, x.IsByte b
  | _ => True

namespace Store

/-- Whether a value is a sequence with the given elements: a list, a tuple, a text or a byte string. -/
inductive Sequence (s : Store) : Value → List Value → Prop
  | list {l : Loc} {xs : List Value} (h : s.get? l = some (.list xs)) : Sequence s (.ref l) xs
  | tuple {cls : Option TupleClass} {xs : List Value} : Sequence s (.tuple cls xs) xs
  | text {t : String} : Sequence s (.text t) (characters t)
  | bytes {bs : List UInt8} : Sequence s (.atom (.bytes bs)) (byteValues bs)

/-- What becomes of a sequence that items are put into, and of the store: a list is the same one and holds the items,
and any other sequence gives a new one of its class, made of the items, in the same store. -/
inductive Rebuilt (s : Store) : Value → List Value → Value → Store → Prop
  | list {l : Loc} {xs items : List Value} (h : s.get? l = some (.list xs)) :
    Rebuilt s (.ref l) items (.ref l) (s.put l (.list items))
  | tuple {xs items : List Value} : Rebuilt s (.tuple none xs) items (.tuple none items) s
  | named {cls : TupleClass} {xs items : List Value} (h : items.length = cls.fields.length) :
    Rebuilt s (.tuple (some cls) xs) items (.tuple (some cls) items) s
  | text {t : String} {items : List Value} {cs : List Char} (h : List.Forall₂ Value.IsCharacter items cs) :
    Rebuilt s (.text t) items (.text (String.ofList cs)) s
  | bytes {old new : List UInt8} {items : List Value} (h : List.Forall₂ Value.IsByte items new) :
    Rebuilt s (.atom (.bytes old)) items (.atom (.bytes new)) s

variable {s t : Store} {v w x : Value} {xs items : List Value} {a : Atom} {n : Nat}

theorem Sequence.elements? (h : s.Sequence v xs) : s.elements? v = some xs := by
  cases h with
  | list h => simp [Store.elements?, h]
  | _ => rfl

theorem Sequence.firstElements? (h : s.Sequence v xs) : s.firstElements? v n = some (xs.take n) := by
  cases h with
  | list h => simp [Store.firstElements?, h]
  | _ => rfl

/-! ## Items as trees -/

theorem view_eq_atom : s.view x = .atom a ↔ x = .atom a := by
  constructor
  · intro h
    by_cases hatom : ∃ c, x = .atom c
    · obtain ⟨c, rfl⟩ := hatom
      cases h
      rfl
    · have hother := alike_other (b := a) hatom s
      rw [h, Data.alike_self] at hother
      cases hother
  · rintro rfl
    rfl

theorem integer?_view {k : Int} : (s.view x).integer? = some k ↔ ∃ a, x = .atom a ∧ a.integer? = some k := by
  constructor
  · intro h
    cases hx : s.view x with
    | atom a =>
      rw [hx] at h
      exact ⟨a, view_eq_atom.mp hx, h⟩
    | _ =>
      rw [hx] at h
      cases h
  · rintro ⟨a, rfl, ha⟩
    exact ha

/-- The byte that an integer from 0 to 255 is. -/
theorem ofNat_eq_iff {b : UInt8} {k : Int} (h : 0 ≤ k ∧ k < 256) : UInt8.ofNat k.toNat = b ↔ k = b.toNat := by
  rw [← UInt8.toNat_inj, UInt8.toNat_ofNat', Nat.mod_eq_of_lt (by omega)]
  omega

/-- Bytes are made of items that are bytes, and of no others. -/
theorem packItems_iff {bs : List UInt8} :
    packItems (s.viewAll items) = .ok bs ↔ List.Forall₂ Value.IsByte items bs := by
  induction items generalizing bs with
  | nil => cases bs <;> simp [viewAll, packItems]
  | cons x xs ih =>
    have hhead : ∀ b : UInt8, x.IsByte b ↔ (s.view x).integer? = some (b.toNat : Int) := fun b => integer?_view.symm
    have hcons : s.viewAll (x :: xs) = s.view x :: s.viewAll xs := rfl
    rw [hcons, packItems, List.forall₂_cons_left_iff]
    simp only [hhead, ← ih]
    cases hx : (s.view x).integer? with
    | none => simp
    | some k =>
      dsimp only
      split
      · next hk =>
        cases hrest : packItems (s.viewAll xs) with
        | error e => simp [Except.map]
        | ok rest =>
          simp only [Except.map, Except.ok.injEq, Option.some.injEq]
          constructor
          · rintro rfl
            exact ⟨_, rest, (ofNat_eq_iff hk).mp rfl, rfl, rfl⟩
          · rintro ⟨b, bs', hb, rfl, rfl⟩
            rw [(ofNat_eq_iff hk).mpr hb]
      · next hk =>
        simp only [Option.some.injEq, reduceCtorEq, false_iff, not_exists, not_and]
        rintro b bs' rfl
        exact absurd ⟨by omega, by have := b.toNat_lt; omega⟩ hk

/-- Texts one after the other. -/
def joined (ts : List String) : String := ts.foldr (· ++ ·) ""

theorem joinItems_go_iff {ds : List Data} {i : Nat} {r : String} : joinItems.go i ds = .ok r ↔
    ∃ ts : List String, ds = ts.map (fun t => .atom (.text t)) ∧ r = joined ts := by
  induction ds generalizing i r with
  | nil =>
    rw [joinItems.go, Except.ok.injEq]
    constructor
    · rintro rfl
      exact ⟨[], rfl, rfl⟩
    · rintro ⟨ts, hts, rfl⟩
      rw [List.map_eq_nil_iff.mp hts.symm]
      rfl
  | cons d ds ih =>
    -- an item that is no text ends the joining where it stands
    by_cases htext : ∃ t, d = .atom (.text t)
    · obtain ⟨t, rfl⟩ := htext
      rw [joinItems.go]
      constructor
      · intro h
        cases hrest : joinItems.go (i + 1) ds with
        | error e => simp [hrest, Except.map] at h
        | ok rest =>
          simp only [hrest, Except.map, Except.ok.injEq] at h
          obtain ⟨ts, rfl, rfl⟩ := ih.mp hrest
          exact ⟨t :: ts, rfl, h.symm⟩
      · rintro ⟨ts, hts, rfl⟩
        cases ts with
        | nil => cases hts
        | cons t' ts =>
          obtain ⟨hd, hds⟩ := List.cons.inj hts
          cases hd
          rw [ih.mpr ⟨ts, hds, rfl⟩]
          rfl
    · have hgo : ∃ e, joinItems.go i (d :: ds) = .error e := by
        unfold joinItems.go
        split
        · next heq => cases heq
        · next t rest heq =>
          cases heq
          exact absurd ⟨t, rfl⟩ htext
        · next d' rest hd heq =>
          cases heq
          exact ⟨_, rfl⟩
      obtain ⟨e, he⟩ := hgo
      rw [he]
      constructor
      · intro h
        cases h
      · rintro ⟨ts, hts, -⟩
        cases ts with
        | nil => cases hts
        | cons t ts => exact absurd ⟨t, (List.cons.inj hts).1⟩ htext

theorem viewAll_texts {ts : List String} :
    s.viewAll items = ts.map (fun t => .atom (.text t)) ↔ items = ts.map Value.text := by
  induction items generalizing ts with
  | nil => cases ts <;> simp [viewAll]
  | cons x xs ih =>
    cases ts with
    | nil => simp [viewAll]
    | cons t ts =>
      show s.view x :: s.viewAll xs = _ :: _ ↔ _
      rw [List.cons.injEq, List.map_cons, List.cons.injEq, view_eq_atom, ih]
      rfl

/-- A text is made of items that are texts, and of no others. -/
theorem joinItems_iff {r : String} : joinItems (s.viewAll items) = .ok r ↔
    ∃ ts : List String, items = ts.map Value.text ∧ r = joined ts := by
  simp only [joinItems, joinItems_go_iff, viewAll_texts]

theorem joined_characters {cs : List Char} : joined (cs.map fun c => String.ofList [c]) = String.ofList cs := by
  induction cs with
  | nil => rfl
  | cons c cs ih =>
    rw [List.map_cons, joined, List.foldr_cons, ← joined, ih, ← String.ofList_append]
    rfl

theorem forall₂_isCharacter {cs : List Char} :
    List.Forall₂ Value.IsCharacter items cs ↔ items = cs.map fun c => .text (String.ofList [c]) := by
  induction items generalizing cs with
  | nil => cases cs <;> simp
  | cons x xs ih =>
    cases cs with
    | nil => simp
    | cons c cs =>
      rw [List.forall₂_cons, ih, List.map_cons, List.cons.injEq]
      rfl

/-- If the items are the characters of the text that they make up, each is one character. -/
theorem isCharacter_of_equalAll {ts : List String} {cs : List Char}
    (h : Data.equalAll (s.viewAll (cs.map fun c => .text (String.ofList [c]))) (s.viewAll (ts.map Value.text)) = true) :
    ∀ x ∈ ts.map Value.text, ∃ c, x.IsCharacter c := by
  rw [Data.equalAll_iff, viewAll, viewAll, List.map_map, List.map_map, List.forall₂_map_left_iff,
    List.forall₂_map_right_iff] at h
  induction h with
  | nil => exact List.forall_mem_nil _
  | @cons c t cs ts hct _ ih =>
    refine List.forall_mem_cons.mpr ⟨⟨c, ?_⟩, ih⟩
    exact view_eq_atom.mp (Data.alike_text_iff.mp hct)

/-- An integer is like every value that counts as it. -/
theorem alike_integer {b : UInt8} (h : x.IsByte b) : (s.view (.int b.toNat)).alike (s.view x) = true := by
  obtain ⟨a, rfl, ha⟩ := h
  have hnumeral : a.numeral? = some (.int b.toNat) := by
    cases a with
    | float x => cases ha
    | nan m => cases ha
    | _ => exact congrArg (Option.map Numeral.int) ha
  have hequal : (Atom.int b.toNat).equal a = true := by
    show Atom.equal _ _ = true
    unfold Atom.equal
    rw [hnumeral]
    exact Numeral.equal_self (n := .int b.toNat) (by simp)
  have hview : s.view (.int b.toNat) = .atom (.int b.toNat) := rfl
  rw [hview, view_eq_atom.mpr rfl, Data.alike_of_ne_nan (by simp), Data.equal, hequal]

theorem equalAll_bytes {bs : List UInt8} (h : List.Forall₂ Value.IsByte items bs) :
    Data.equalAll (s.viewAll (byteValues bs)) (s.viewAll items) = true := by
  rw [Data.equalAll_iff, byteValues, viewAll, viewAll, List.map_map, List.forall₂_map_left_iff,
    List.forall₂_map_right_iff]
  exact .flip (h.imp fun _ _ hb => alike_integer hb)

theorem equalAll_characters {cs : List Char} (h : List.Forall₂ Value.IsCharacter items cs) :
    Data.equalAll (s.viewAll (characters (String.ofList cs))) (s.viewAll items) = true := by
  rw [forall₂_isCharacter.mp h, characters, String.toList_ofList]
  exact Data.equalAll_self _

/-- Items stand to some list if each of them stands to something. -/
theorem exists_forall₂_iff {α β : Type} {R : α → β → Prop} {xs : List α} :
    (∃ ys, List.Forall₂ R xs ys) ↔ ∀ x ∈ xs, ∃ y, R x y := by
  induction xs with
  | nil => exact iff_of_true ⟨[], .nil⟩ (List.forall_mem_nil _)
  | cons x xs ih =>
    rw [List.forall_mem_cons, ← ih]
    constructor
    · rintro ⟨ys, hys⟩
      obtain ⟨y, zs, hy, hzs, -⟩ := List.forall₂_cons_left_iff.mp hys
      exact ⟨⟨y, hy⟩, zs, hzs⟩
    · rintro ⟨⟨y, hy⟩, ys, hys⟩
      exact ⟨y :: ys, .cons hy hys⟩

theorem isWritable_texts {ts : List String} : (Data.list (s.viewAll (ts.map Value.text))).isWritable = true := by
  rw [Data.isWritable]
  induction ts with
  | nil => rw [viewAll, List.map_nil, List.map_nil, Data.isWritableAll]
  | cons t ts ih =>
    rw [viewAll, List.map_cons, List.map_cons, Data.isWritableAll, ← viewAll, ih, Bool.and_true]
    simp [view, Value.text, Value.view, Data.isWritable]

/-! ## Putting items in -/

/-- What is made anew of items that are admitted has them for elements. -/
theorem remake_of_admits (hv : s.Sequence v xs) (hlist : ∀ l, v ≠ .ref l) (h : v.Admits items) :
    ∃ w, s.remake v items = .ok (w, s) ∧ s.Rebuilt v items w s ∧
      Data.equalAll (s.viewAll ((s.elements? w).getD [])) (s.viewAll items) = true := by
  cases hv with
  | list h => exact absurd rfl (hlist _)
  | @tuple cls xs =>
    cases cls with
    | none => exact ⟨_, rfl, .tuple, Data.equalAll_self _⟩
    | some cls => exact ⟨_, if_pos h, .named h, Data.equalAll_self _⟩
  | text =>
    obtain ⟨cs, hcs⟩ := exists_forall₂_iff.mpr h
    refine ⟨.text (String.ofList cs), ?_, .text hcs, equalAll_characters hcs⟩
    have hjoin : joinItems (s.viewAll items) = .ok (String.ofList cs) := by
      refine joinItems_iff.mpr ⟨cs.map fun c => String.ofList [c], ?_, joined_characters.symm⟩
      rw [forall₂_isCharacter.mp hcs, List.map_map]
      rfl
    show (joinItems (s.viewAll items)).map _ = _
    rw [hjoin]
    rfl
  | bytes =>
    obtain ⟨bs, hbs⟩ := exists_forall₂_iff.mpr h
    refine ⟨.atom (.bytes bs), ?_, .bytes hbs, equalAll_bytes hbs⟩
    show (packItems (s.viewAll items)).map _ = _
    rw [packItems_iff.mpr hbs]
    rfl

/-- Of items that are not admitted nothing is made, or something that has not got them for elements. Texts of several
characters, or of none, are told that way, and they can be written. -/
theorem remake_of_not_admits (hv : s.Sequence v xs) (h : ¬ v.Admits items) :
    (∃ reason, s.remake v items = .error reason) ∨
    ∃ w, s.remake v items = .ok (w, s) ∧
      Data.equalAll (s.viewAll ((s.elements? w).getD [])) (s.viewAll items) = false ∧
      (Data.list (s.viewAll items)).isWritable = true := by
  cases hv with
  | list _ => exact absurd trivial h
  | @tuple cls xs =>
    cases cls with
    | none => exact absurd trivial h
    | some cls => exact .inl ⟨_, if_neg h⟩
  | @text t =>
    cases hjoin : joinItems (s.viewAll items) with
    | error e =>
      refine .inl ⟨e, ?_⟩
      show (joinItems (s.viewAll items)).map _ = _
      rw [hjoin]
      rfl
    | ok r =>
      refine .inr ⟨.text r, ?_, ?_, ?_⟩
      · show (joinItems (s.viewAll items)).map _ = _
        rw [hjoin]
        rfl
      · obtain ⟨ts, rfl, rfl⟩ := joinItems_iff.mp hjoin
        rw [Bool.eq_false_iff]
        exact fun hequal => h (isCharacter_of_equalAll hequal)
      · obtain ⟨ts, rfl, rfl⟩ := joinItems_iff.mp hjoin
        exact isWritable_texts
  | bytes =>
    refine .inl ?_
    cases hpack : packItems (s.viewAll items) with
    | error e =>
      refine ⟨e, ?_⟩
      show (packItems (s.viewAll items)).map _ = _
      rw [hpack]
      rfl
    | ok bs => exact absurd (exists_forall₂_iff.mp ⟨bs, packItems_iff.mp hpack⟩) h

section

variable (hlist : ∀ l, v ≠ .ref l)

include hlist

theorem rebuild_of_remake (h : s.remake v items = .ok (w, t))
    (hequal : Data.equalAll (t.viewAll ((t.elements? w).getD [])) (s.viewAll items) = true) :
    s.rebuild v items = .ok (w, t) := by
  cases v with
  | ref l => exact absurd rfl (hlist l)
  | _ => simp [rebuild, h, hequal]

theorem rebuild_of_refused {reason : String} (h : s.remake v items = .error reason) :
    ∃ r, s.rebuild v items = .error (some r) := by
  cases v with
  | ref l => exact absurd rfl (hlist l)
  | _ => simp [rebuild, h]

theorem rebuild_of_unequal (h : s.remake v items = .ok (w, t))
    (hequal : Data.equalAll (t.viewAll ((t.elements? w).getD [])) (s.viewAll items) = false)
    (hwritable : (Data.list (s.viewAll items)).isWritable = true) : ∃ r, s.rebuild v items = .error (some r) := by
  cases v with
  | ref l => exact absurd rfl (hlist l)
  | _ => simp [rebuild, h, hequal, Data.text?, hwritable]

end

/-- Items that are admitted are put in. -/
theorem rebuild_of_admits (hv : s.Sequence v xs) (h : v.Admits items) :
    ∃ w t, s.rebuild v items = .ok (w, t) ∧ s.Rebuilt v items w t := by
  by_cases hlist : ∃ l, v = .ref l
  · obtain ⟨l, rfl⟩ := hlist
    cases hv with
    | list hget => exact ⟨.ref l, _, by simp [rebuild, hget], .list hget⟩
  · rw [not_exists] at hlist
    -- the new value is compared with the items once more, and equals them
    obtain ⟨w, hw, hrebuilt, hequal⟩ := remake_of_admits hv hlist h
    exact ⟨w, s, rebuild_of_remake hlist hw hequal, hrebuilt⟩

/-- Items that are not admitted are refused, with a reason that can be written. -/
theorem rebuild_of_not_admits (hv : s.Sequence v xs) (h : ¬ v.Admits items) :
    ∃ reason, s.rebuild v items = .error (some reason) := by
  have hlist : ∀ l, v ≠ .ref l := by
    rintro l rfl
    exact h trivial
  rcases remake_of_not_admits hv h with ⟨reason, hw⟩ | ⟨w, hw, hequal, hwritable⟩
  · exact rebuild_of_refused hlist hw
  · exact rebuild_of_unequal hlist hw hequal hwritable

/-- What items have been put into is of the class of the sequence, and its elements equal the items. -/
theorem Rebuilt.elements (h : s.Rebuilt v items w t) : (t.view w).className = (s.view v).className ∧
    ∃ ys, t.Sequence w ys ∧ Data.equalAll (t.viewAll ys) (t.viewAll items) = true := by
  cases h with
  | list h =>
    have hget := get?_put_same (o := .list items) (lt_size_of_get? h)
    refine ⟨?_, items, .list hget, Data.equalAll_self _⟩
    simp [view, Value.view, viewAt, h, hget, Object.view, Data.className]
  | tuple => exact ⟨rfl, items, .tuple, Data.equalAll_self _⟩
  | named => exact ⟨rfl, items, .tuple, Data.equalAll_self _⟩
  | text h => exact ⟨rfl, _, .text, equalAll_characters h⟩
  | bytes h => exact ⟨rfl, _, .bytes, equalAll_bytes h⟩

end Store

end Conform
