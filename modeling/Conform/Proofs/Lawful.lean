import Conform.Proofs.AccessorSpots

/-!
# Accessors are lawful

An attribute of a mapping, of a record or of a tuple with named places, and an item of a mapping, a list or a tuple are
all spots of the value that is focused on (`Accessor.At`). The class of the value decides by which of six ways an
accessor stores, and each of them writes at the spot (`Accessor.set_eq`). So the laws of spots are the laws of
accessors (`Accessor.lawful`): what is stored is read, storing what is there changes nothing, of two parts stored the
second counts, and all else in the value stays. An object is changed in place; of other values a new one is made.

A frozen record is made anew by the constructor of its class. A field that the constructor does not take cannot be
stored, and goes back to its default as soon as another field is. So of frozen records the laws are stated for those
that the constructor has made, in which such fields are at their defaults (`RecordClass.Keeps`), and
`lawful_frozen_only_kept` has the records and the attributes for which they fail.
-/

namespace Conform

namespace RecordClass

/-- The names of the fields in order. -/
def names (cls : RecordClass) : List String := cls.fields.map (·.name)

/-- What the values of the fields of a frozen record are: one for each field, and where the constructor takes none,
the default. No two fields have one name. -/
structure Keeps (cls : RecordClass) (xs : List Value) : Prop where
  names : cls.names.Nodup
  size : xs.length = cls.fields.length
  defaults : ∀ (i : Nat) (f : Field), cls.fields[i]? = some f → f.settable = false → xs[i]? = some (.atom f.initial)

end RecordClass

namespace Accessor

open Store

variable {a b : Accessor} {s t : Store} {p q g h x y : Value} {σ τ : Spot}

/-! ## Where an accessor focuses -/

/-- The accessors that focus on a part that a value has as one of its own: an entry of a mapping, a declared field of a
record, a named place of a tuple, an item of a mapping, a list or a tuple. -/
inductive Focuses (s : Store) : Accessor → Value → Prop
  | entry {n : String} {l : Loc} {es : List (Value × Value)} (hl : s.get? l = some (.mapping es)) :
    Focuses s (.attr n) (.ref l)
  | field {n : String} {l : Loc} {cls : RecordClass} {xs : List Value} {extras : List (String × Value)}
    (hl : s.get? l = some (.record cls xs extras)) (hsize : xs.length = cls.fields.length) (hn : n ∈ cls.names) :
    Focuses s (.attr n) (.ref l)
  | frozen {n : String} {cls : RecordClass} {xs : List Value} (hxs : cls.Keeps xs) (hn : n ∈ cls.names) :
    Focuses s (.attr n) (.frozen cls xs)
  | named {n : String} {cls : TupleClass} {xs : List Value} (hn : n ∈ cls.fields) :
    Focuses s (.attr n) (.tuple (some cls) xs)
  | key {shown : String} {key : Value} {l : Loc} {es : List (Value × Value)} (hl : s.get? l = some (.mapping es)) :
    Focuses s (.item shown key) (.ref l)
  | listItem {shown : String} {key : Value} {l : Loc} {xs : List Value} (hl : s.get? l = some (.list xs)) :
    Focuses s (.item shown key) (.ref l)
  | tupleItem {shown : String} {key : Value} {cls : Option TupleClass} {xs : List Value} :
    Focuses s (.item shown key) (.tuple cls xs)

/-- Whether an accessor focuses on the part of a value at a spot. A name means the index of the field or the place that
has it, and an integer the index that it is from the front or, if it is negative, from the end. -/
inductive At (s : Store) : Accessor → Value → Spot → Prop
  | entry {n : String} {l : Loc} {es : List (Value × Value)} (hl : s.get? l = some (.mapping es)) :
    At s (.attr n) (.ref l) (.key (.text n))
  | field {n : String} {l : Loc} {cls : RecordClass} {xs : List Value} {extras : List (String × Value)} {i : Nat}
    (hl : s.get? l = some (.record cls xs extras)) (hi : cls.names.idxOf? n = some i) (hlt : i < xs.length) :
    At s (.attr n) (.ref l) (.index i)
  | frozen {n : String} {cls : RecordClass} {xs : List Value} {i : Nat} (hi : cls.names.idxOf? n = some i) :
    At s (.attr n) (.frozen cls xs) (.index i)
  | named {n : String} {cls : TupleClass} {xs : List Value} {i : Nat} (hi : cls.fields.idxOf? n = some i) :
    At s (.attr n) (.tuple (some cls) xs) (.index i)
  | key {shown : String} {key : Value} {l : Loc} {es : List (Value × Value)} (hl : s.get? l = some (.mapping es))
    (hkey : (s.view key).unhashable? = none) : At s (.item shown key) (.ref l) (.key key)
  | listItem {shown : String} {key : Value} {l : Loc} {xs : List Value} {k : Int} {i : Nat}
    (hl : s.get? l = some (.list xs)) (hk : index? key = some k) (hi : place? xs.length k = some i) :
    At s (.item shown key) (.ref l) (.index i)
  | tupleItem {shown : String} {key : Value} {cls : Option TupleClass} {xs : List Value} {k : Int} {i : Nat}
    (hk : index? key = some k) (hi : place? xs.length k = some i) : At s (.item shown key) (.tuple cls xs) (.index i)

theorem At.findable (hat : a.At s p σ) : σ.Findable s := by
  cases hat with
  | entry => exact (rfl : (Data.atom _).unhashable? = none)
  | key _ hkey => exact hkey
  | _ => trivial

theorem exists_index_of_pick {xs : List Value} {key : Value} (h : pick xs key = .ok g) :
    ∃ k i, index? key = some k ∧ place? xs.length k = some i := by
  unfold pick at h
  split at h
  · cases h
  · next k hk =>
    split at h
    · next i hi => exact ⟨k, i, hk, hi⟩
    · cases h

theorem exists_idxOf? {names : List String} {n : String} (hn : n ∈ names) : ∃ i, names.idxOf? n = some i :=
  Option.isSome_iff_exists.mp (List.isSome_idxOf?.mpr hn)

/-- An accessor that reads a part reads it at some spot. -/
theorem Focuses.exists_at (hfocus : a.Focuses s p) (hget : a.get s p = .ok g) : ∃ σ, a.At s p σ := by
  cases hfocus with
  | entry hl => exact ⟨_, .entry hl⟩
  | @field n l cls xs extras hl hsize hn =>
    obtain ⟨i, hi⟩ := exists_idxOf? hn
    refine ⟨_, .field hl hi ?_⟩
    obtain ⟨hlt, -⟩ := List.idxOf?_eq_some_iff.mp hi
    rw [RecordClass.names, List.length_map] at hlt
    omega
  | frozen _ hn =>
    obtain ⟨i, hi⟩ := exists_idxOf? hn
    exact ⟨_, .frozen hi⟩
  | named hn =>
    obtain ⟨i, hi⟩ := exists_idxOf? hn
    exact ⟨_, .named hi⟩
  | key hl => exact ⟨_, .key hl (get_item_iff hl |>.mp hget).1⟩
  | listItem hl =>
    simp only [get, getItem, hl] at hget
    obtain ⟨k, i, hk, hi⟩ := exists_index_of_pick hget
    exact ⟨_, .listItem hl hk hi⟩
  | tupleItem =>
    obtain ⟨k, i, hk, hi⟩ := exists_index_of_pick hget
    exact ⟨_, .tupleItem hk hi⟩

/-! ## Reading at the spot -/

theorem pick_iff {xs : List Value} {key : Value} {k : Int} {i : Nat} (hk : index? key = some k)
    (hi : place? xs.length k = some i) : pick xs key = .ok g ↔ xs[i]? = some g := by
  have hlt := place?_lt hi
  simp [pick, hk, hi, hlt]

/-- An accessor reads what is at its spot. -/
theorem At.get_iff (hat : a.At s p σ) : a.get s p = .ok g ↔ s.readAt? p σ = some g := by
  cases hat with
  | @entry n l es hl =>
    simp only [get, getAttribute, hl, readAt?, entries?, Option.bind_some]
    exact found_eq_ok
  | field hl hi hlt =>
    rw [RecordClass.names] at hi
    simp [get, getAttribute, found_eq_ok, hl, readAt?, parts?, objectAttribute?, attribute?, field?, hi, hlt]
  | frozen hi =>
    rw [RecordClass.names] at hi
    simp only [get, getAttribute, found_eq_ok, fieldOrInherited?, readAt?, parts?, Option.bind_some, hi]
  | named hi =>
    simp only [get, getAttribute, found_eq_ok, fieldOrInherited?, readAt?, parts?, Option.bind_some, hi]
  | key hl hkey =>
    simp only [get_item_iff hl, hkey, true_and, readAt?, entries?, hl, Option.bind_some]
  | listItem hl hk hi =>
    simp only [get, getItem, hl, readAt?, parts?, Option.bind_some, pick_iff hk hi]
  | tupleItem hk hi =>
    simp only [get, getItem, readAt?, parts?, Option.bind_some, pick_iff hk hi]

/-! ## Storing at the spot -/

theorem replace_eq {xs : List Value} {key : Value} {k : Int} {i : Nat} (hk : index? key = some k)
    (hi : place? xs.length k = some i) : replace xs key x = .ok (xs.set i x) := by
  simp only [replace, hk, hi]

/-- A record in which no field has the name is made anew as it was. -/
theorem replaceField_absent {n : String} : ∀ {fs : List Field} {xs : List Value}, n ∉ fs.map (·.name) →
    xs.length = fs.length →
    (∀ (i : Nat) (f : Field), fs[i]? = some f → f.settable = false → xs[i]? = some (.atom f.initial)) →
    replaceField n x fs xs = xs
  | [], [], _, _, _ => rfl
  | f :: fs, v :: xs, hn, hsize, hdefaults => by
    rw [List.map_cons, List.mem_cons, not_or] at hn
    have hname : ¬ (f.name == n) = true := fun h => hn.1 (eq_of_beq h).symm
    have hv : (if f.settable then v else .atom f.initial) = v := by
      split
      · rfl
      · next h => exact (Option.some.inj (hdefaults 0 f rfl (Bool.eq_false_iff.mpr h))).symm
    rw [replaceField, if_neg hname, hv, replaceField_absent hn.2 (Nat.succ.inj hsize)
      fun i f hf => hdefaults (i + 1) f hf]

theorem replaceField_eq {n : String} : ∀ {fs : List Field} {xs : List Value} {i : Nat},
    (fs.map (·.name)).Nodup → xs.length = fs.length →
    (∀ (i : Nat) (f : Field), fs[i]? = some f → f.settable = false → xs[i]? = some (.atom f.initial)) →
    (fs.map (·.name)).idxOf? n = some i → replaceField n x fs xs = xs.set i x
  | [], _, _, _, _, _, hi => by cases hi
  | f :: fs, v :: xs, i, hnodup, hsize, hdefaults, hi => by
    rw [List.map_cons, List.nodup_cons] at hnodup
    rw [List.map_cons, List.idxOf?_cons] at hi
    split at hi
    · next hname =>
      cases hi
      have hname := eq_of_beq hname
      rw [replaceField, if_pos (beq_iff_eq.mpr hname), List.set_cons_zero,
        replaceField_absent (hname ▸ hnodup.1) (Nat.succ.inj hsize) fun i f hf => hdefaults (i + 1) f hf]
    · next hname =>
      obtain ⟨j, hj, rfl⟩ := Option.map_eq_some_iff.mp hi
      have hv : (if f.settable then v else .atom f.initial) = v := by
        split
        · rfl
        · next h => exact (Option.some.inj (hdefaults 0 f rfl (Bool.eq_false_iff.mpr h))).symm
      rw [replaceField, if_neg hname, hv, List.set_cons_succ,
        replaceField_eq hnodup.2 (Nat.succ.inj hsize) (fun i f hf => hdefaults (i + 1) f hf) hj]

theorem find?_name {n : String} : ∀ {fs : List Field} {i : Nat}, (fs.map (·.name)).idxOf? n = some i →
    fs.find? (fun f => f.name == n) = fs[i]?
  | [], _, hi => by cases hi
  | f :: fs, i, hi => by
    rw [List.map_cons, List.idxOf?_cons] at hi
    split at hi
    · next hname =>
      cases hi
      simp [hname]
    · next hname =>
      obtain ⟨j, hj, rfl⟩ := Option.map_eq_some_iff.mp hi
      rw [List.find?_cons, Bool.eq_false_iff.mpr hname, List.getElem?_cons_succ]
      exact find?_name hj

/-- Whether the constructor of the class of a frozen record takes the part at an index. Other values have none that
would have to take it. -/
def Takes : Value → Spot → Prop
  | .frozen cls _, .index i => ∃ f, cls.fields[i]? = some f ∧ f.settable = true
  | _, _ => True

/-- Whether a value, if it is a frozen record, is what its class makes. -/
def Kept : Value → Prop
  | .frozen cls xs => cls.Keeps xs
  | _ => True

/-- An accessor stores at its spot. -/
theorem At.set_eq (hat : a.At s p σ) (hkept : Kept p) (htakes : Takes p σ) : a.set s p x = .ok (s.writeAt p x σ) := by
  cases hat with
  | entry hl => simp only [set, setAttribute, hl, setEntry, writeAt, entries?, Option.getD_some, withEntries]
  | field hl hi _ =>
    rw [RecordClass.names] at hi
    simp only [set, setAttribute, hl, hi, writeAt, parts?, Option.getD_some, withParts]
  | @frozen n cls xs i hi =>
    obtain ⟨f, hf, hsettable⟩ := htakes
    simp only [set, setAttribute, find?_name hi, hf, hsettable, if_true, writeAt, parts?, Option.getD_some, withParts,
      replaceField_eq hkept.names hkept.size hkept.defaults hi]
  | named hi => simp only [set, setAttribute, hi, writeAt, parts?, Option.getD_some, withParts]
  | key hl hkey => rw [set_item hl hkey, writeAt, entries?]; simp only [hl, Option.getD_some, withEntries]
  | listItem hl hk hi =>
    simp only [set, setItem, hl, replace_eq hk hi, Except.map, writeAt, parts?, Option.getD_some, withParts]
  | tupleItem hk hi =>
    simp only [set, setItem, replace_eq hk hi, Except.map, writeAt, parts?, Option.getD_some, withParts]

/-- What the constructor does not take is refused. -/
theorem At.set_refused (hat : a.At s p σ) (hkept : Kept p) (htakes : ¬ Takes p σ) :
    a.set s p x = .error (.misuse .invalid) := by
  cases hat with
  | @frozen n cls xs i hi =>
    obtain ⟨hlt, -⟩ := List.idxOf?_eq_some_iff.mp hi
    rw [RecordClass.names, List.length_map] at hlt
    have hf := List.getElem?_eq_getElem hlt
    have hsettable : cls.fields[i].settable = false := Bool.eq_false_iff.mpr fun h => htakes ⟨_, hf, h⟩
    simp only [set, setAttribute, find?_name hi, hf, hsettable, Bool.false_eq_true, if_false]
  | _ => exact absurd trivial htakes

/-! ## The spot after storing -/

/-- An accessor focuses on the same spot of every value of the same shape. -/
theorem At.of_shape (hat : b.At s p τ) (hshape : t.shape q = s.shape p)
    (hkey : ∀ k l, τ = .key k → p = .ref l → (t.view k).unhashable? = none) : b.At t q τ := by
  cases hat with
  | entry hl =>
    simp only [shape, hl] at hshape
    obtain ⟨m, fs, rfl, hm⟩ := shape_eq_mapping hshape
    exact .entry hm
  | field hl hi hlt =>
    simp only [shape, hl] at hshape
    obtain ⟨m, ys, rfl, hm, hsize⟩ := shape_eq_record hshape
    exact .field hm hi (hsize ▸ hlt)
  | frozen hi =>
    obtain ⟨ys, rfl, -⟩ := shape_eq_frozen hshape
    exact .frozen hi
  | named hi =>
    obtain ⟨ys, rfl, -⟩ := shape_eq_tuple hshape
    exact .named hi
  | key hl _ =>
    simp only [shape, hl] at hshape
    obtain ⟨m, fs, rfl, hm⟩ := shape_eq_mapping hshape
    exact .key hm (hkey _ _ rfl rfl)
  | listItem hl hk hi =>
    simp only [shape, hl] at hshape
    obtain ⟨m, ys, rfl, hm, hsize⟩ := shape_eq_list hshape
    exact .listItem hm hk (hsize ▸ hi)
  | tupleItem hk hi =>
    obtain ⟨ys, rfl, hsize⟩ := shape_eq_tuple hshape
    exact .tupleItem hk (hsize ▸ hi)

theorem At.eq_mapping {k : Value} {l : Loc} (hat : b.At s (.ref l) (.key k)) : ∃ es, s.get? l = some (.mapping es) := by
  cases hat with
  | entry hl => exact ⟨_, hl⟩
  | key hl _ => exact ⟨_, hl⟩

theorem At.written (hat : b.At s p τ) (h : s.readAt? p σ = some g) (hσ : σ.Findable s) (hw : s.writeAt p x σ = (q, t)) :
    b.At t q τ := by
  refine hat.of_shape (Store.written hσ h hw).shape fun k l hτ hp => ?_
  subst hτ hp
  obtain ⟨es, hes⟩ := hat.eq_mapping
  have hkept := hashable_writeAt (x := x) hes h hat.findable
  rw [hw] at hkept
  exact hkept

theorem Kept.writeAt (hkept : Kept p) (htakes : Takes p σ) (h : s.readAt? p σ = some g)
    (hw : s.writeAt p x σ = (q, t)) : Kept q ∧ Takes q σ := by
  cases p with
  | frozen cls xs =>
    cases σ with
    | index i =>
      cases hw
      obtain ⟨f, hf, hsettable⟩ := htakes
      refine ⟨⟨hkept.names, ?_, fun j g hg hfixed => ?_⟩, f, hf, hsettable⟩
      · rw [parts?, Option.getD_some, List.length_set]
        exact hkept.size
      · have hne : i ≠ j := by
          rintro rfl
          rw [hf] at hg
          cases hg
          rw [hsettable] at hfixed
          cases hfixed
        rw [parts?, Option.getD_some, List.getElem?_set_ne hne]
        exact hkept.defaults j g hg hfixed
    | key k =>
      cases hw
      exact ⟨hkept, trivial⟩
  | ref l =>
    obtain ⟨o, ho⟩ := writeAt_ref (x := x) h
    rw [ho] at hw
    cases hw
    exact ⟨trivial, trivial⟩
  | _ =>
    cases σ <;> cases hw <;> exact ⟨trivial, trivial⟩

theorem At.ne_atom (hat : a.At s p σ) : ¬ ∃ c, p = .atom c := by
  rintro ⟨c, rfl⟩
  cases hat

/-- The tree of a value that is no atom equals itself. -/
theorem equal_self_view (h : ¬ ∃ c, p = .atom c) : (s.view p).equal (s.view p) = true := by
  have hne := view_ne_atom h s
  have hnan : (s.view p).sameNaN (s.view p) = false := by
    cases hview : s.view p with
    | atom c => exact absurd hview (hne c)
    | _ => rfl
  have halike := Data.alike_self (s.view p)
  rw [Data.alike, hnan, Bool.false_or] at halike
  exact halike

/-! ## The laws -/

/-- The laws of the part `g` that an accessor reads from a value `p`, where `put x` is the value with `x` stored in the
place of the part and the store after that. -/
structure Lens (a : Accessor) (s : Store) (p g : Value) (put : Value → Value × Store) : Prop where
  set_eq : ∀ x, a.set s p x = .ok (put x)
  get_put : ∀ x, a.get (put x).2 (put x).1 = .ok x
  put_get : put g = (p, s)
  put_put : ∀ x y, a.set (put x).2 (put x).1 y = .ok (put y)
  /-- The parts at other spots stay, whatever accessor reads them. -/
  other : ∀ (x : Value) (b : Accessor) (σ τ : Spot), a.At s p σ → b.At s p τ → σ.Apart s τ →
    ∀ h, b.get (put x).2 (put x).1 = .ok h ↔ b.get s p = .ok h
  /-- So do the class, the number of parts, and the keys in their order. -/
  shape : ∀ x, (put x).2.shape (put x).1 = s.shape p
  /-- The value equals itself, and so equals every value that the laws say to be the same. -/
  equal : ∀ x, ((put x).2.view (put x).1).equal ((put x).2.view (put x).1) = true
  /-- An object stays where it is, and no other is changed. -/
  inPlace : ∀ x l, p = .ref l → (put x).1 = p ∧ ∃ o, (put x).2 = s.put l o
  /-- A value that is no object is not changed, and neither is any object. -/
  anew : ∀ x, (∀ l, p ≠ .ref l) → (put x).2 = s

/-- The spot of an accessor in a value is one spot. -/
theorem At.unique (hσ : a.At s p σ) (hτ : a.At s p τ) : σ = τ := by
  cases hσ with
  | entry hl =>
    cases hτ with
    | entry => rfl
    | field hl' => cases hl.symm.trans hl'
  | field hl hi =>
    cases hτ with
    | entry hl' => cases hl.symm.trans hl'
    | field hl' hi' =>
      cases hl.symm.trans hl'
      cases hi.symm.trans hi'
      rfl
  | frozen hi =>
    cases hτ with
    | frozen hi' =>
      cases hi.symm.trans hi'
      rfl
  | named hi =>
    cases hτ with
    | named hi' =>
      cases hi.symm.trans hi'
      rfl
  | key hl =>
    cases hτ with
    | key => rfl
    | listItem hl' => cases hl.symm.trans hl'
  | listItem hl hk hi =>
    cases hτ with
    | key hl' => cases hl.symm.trans hl'
    | listItem hl' hk' hi' =>
      cases hl.symm.trans hl'
      cases hk.symm.trans hk'
      cases hi.symm.trans hi'
      rfl
  | tupleItem hk hi =>
    cases hτ with
    | tupleItem hk' hi' =>
      cases hk.symm.trans hk'
      cases hi.symm.trans hi'
      rfl

theorem At.lens (hat : a.At s p σ) (hget : a.get s p = .ok g) (hkept : Kept p) (htakes : Takes p σ) :
    a.Lens s p g (s.writeAt p · σ) := by
  have hread := hat.get_iff.mp hget
  have hσ := hat.findable
  have hwritten (x : Value) : s.Written p σ x (s.writeAt p x σ).1 (s.writeAt p x σ).2 := Store.written hσ hread rfl
  have hafter {b : Accessor} {τ : Spot} (hτ : b.At s p τ) (x : Value) :
      b.At (s.writeAt p x σ).2 (s.writeAt p x σ).1 τ := hτ.written hread hσ rfl
  refine ⟨fun x => hat.set_eq hkept htakes, fun x => ?_, ?_, fun x y => ?_, ?_, ?_, ?_, ?_, ?_⟩
  · exact (hafter hat x).get_iff.mpr (hwritten x).read
  · exact writeAt_readAt? hread
  · obtain ⟨hkept', htakes'⟩ : Kept (s.writeAt p x σ).1 ∧ Takes (s.writeAt p x σ).1 σ :=
      hkept.writeAt htakes hread rfl
    rw [(hafter hat x).set_eq hkept' htakes', (hwritten x).again]
  · intro x b ρ τ hρ hτ hne h
    cases hat.unique hρ
    rw [(hafter hτ x).get_iff, hτ.get_iff, (hwritten x).other τ hτ.findable hne]
  · exact fun x => (hwritten x).shape
  · exact fun x => equal_self_view (hafter hat x).ne_atom
  · rintro x l rfl
    obtain ⟨o, ho⟩ := writeAt_ref (x := x) hread
    rw [ho]
    exact ⟨rfl, o, rfl⟩
  · exact fun x hp => writeAt_value hp

/-- Every accessor that focuses on an entry of a mapping, a declared field of a record, a named place of a tuple or an
item of a mapping, a list or a tuple obeys the laws, for every value from which it reads a part. The one exception are
fields of a frozen record that the constructor of its class does not take: these cannot be stored at all. -/
theorem lawful (hfocus : a.Focuses s p) (hget : a.get s p = .ok g) :
    (∃ put, a.Lens s p g put) ∨
      ∃ cls xs n f, p = .frozen cls xs ∧ a = .attr n ∧ cls.fields.find? (fun f => f.name == n) = some f ∧
        f.settable = false ∧ ∀ x, a.set s p x = .error (.misuse .invalid) := by
  obtain ⟨σ, hat⟩ := hfocus.exists_at hget
  have hkept : Kept p := by
    cases hfocus with
    | frozen hxs _ => exact hxs
    | _ => exact trivial
  by_cases htakes : Takes p σ
  · exact .inl ⟨_, hat.lens hget hkept htakes⟩
  · refine .inr ?_
    have hrefused (x : Value) := hat.set_refused (x := x) hkept htakes
    cases hat with
    | @frozen n cls xs i hi =>
      obtain ⟨hlt, -⟩ := List.idxOf?_eq_some_iff.mp hi
      rw [RecordClass.names, List.length_map] at hlt
      have hf := List.getElem?_eq_getElem hlt
      refine ⟨cls, xs, n, cls.fields[i], rfl, rfl, (find?_name hi).trans hf, ?_, hrefused⟩
      exact Bool.eq_false_iff.mpr fun h => htakes ⟨_, hf, h⟩
    | _ => exact absurd trivial htakes

/-- A mapping whose key `1` is found as `True`, and a record with one field that its constructor takes and one that
it does not. -/
theorem lawful_samples :
    let s : Store := ⟨#[.mapping [(.text "b", .int 2), (.int 1, .text "a")]], spelledMarks, []⟩
    let cls : RecordClass := ⟨"Ticket", .frozen, [⟨"id", .int 0, true⟩, ⟨"tag", .text "t", false⟩]⟩
    let p : Value := .frozen cls [.int 7, .text "t"]
    (∃ put, Lens (.item "True" (.bool true)) s (.ref 0) (.text "a") put) ∧ (∃ put, Lens (.attr "id") s p (.int 7) put) ∧
      ∀ x, (Accessor.attr "tag").set s p x = .error (.misuse .invalid) := by
  intro s cls p
  have hkeeps : cls.Keeps [.int 7, .text "t"] := by
    refine ⟨by decide, rfl, fun i f hf hfixed => ?_⟩
    rcases i with _ | _ | i
    · cases hf
      cases hfixed
    · cases hf
      rfl
    · cases hf
  refine ⟨?_, ?_, ?_⟩
  · have hother : ¬ (s.view (.text "b")).alike (s.view (.bool true)) = true := by decide +kernel
    have hkey : (s.view (.int 1)).alike (s.view (.bool true)) = true := by decide +kernel
    have hlookup : s.lookup [(.text "b", .int 2), (.int 1, .text "a")] (s.view (.bool true)) = some (.text "a") := by
      rw [lookup_cons, if_neg hother, lookup_cons, if_pos hkey]
    have hget : (Accessor.item "True" (.bool true)).get s (.ref 0) = .ok (.text "a") :=
      (get_item_iff rfl).mpr ⟨rfl, hlookup⟩
    rcases lawful (.key rfl) hget with h | ⟨_, _, _, _, hp, -⟩
    · exact h
    · cases hp
  · rcases lawful (.frozen hkeeps (by decide)) (show (Accessor.attr "id").get s p = .ok (.int 7) from rfl) with
      h | ⟨_, _, _, _, hp, ha, hf, hfixed, -⟩
    · exact h
    · cases hp
      cases ha
      cases hf
      cases hfixed
  · rcases lawful (.frozen hkeeps (by decide)) (show (Accessor.attr "tag").get s p = .ok (.text "t") from rfl) with
      ⟨put, h⟩ | ⟨_, _, _, _, hp, ha, hf, hfixed, hrefused⟩
    · cases h.set_eq .null
    · exact hrefused

/-- Frozen records have attributes that can be read and not set: a field that the constructor does not take, and of
the class itself the default of a field, since only instances are made anew. And a frozen record that has something
else than the default in such a field loses it as soon as another field is set. -/
theorem lawful_frozen_only_kept :
    let s : Store := .empty
    let cls : RecordClass := ⟨"Ticket", .frozen, [⟨"id", .int 0, true⟩, ⟨"tag", .text "t", false⟩]⟩
    let self : Value :=
      .atom (.sealed ⟨"type", "Ticket", "<class 'Ticket'>", [("id", .int 0), ("tag", .text "t")], false⟩)
    ((attr "tag").get s (.frozen cls [.int 7, .text "t"]) = .ok (.text "t") ∧
        (attr "tag").set s (.frozen cls [.int 7, .text "t"]) (.text "t") = .error (.misuse .invalid)) ∧
      ((attr "id").get s self = .ok (.int 0) ∧ (attr "id").set s self (.int 0) = .error (.misuse .unsupported)) ∧
      (attr "id").get s (.frozen cls [.int 7, .text "u"]) = .ok (.int 7) ∧
        (attr "id").set s (.frozen cls [.int 7, .text "u"]) (.int 7) = .ok (.frozen cls [.int 7, .text "t"], s) :=
  ⟨⟨rfl, rfl⟩, ⟨rfl, rfl⟩, rfl, rfl⟩

end Accessor
end Conform
