import Mathlib.Data.Set.Basic
import Conform.Value.Store

/-!
# Places

A *place* is what has an identity and can be changed: an object of the store, or the attributes that a
class or an enumeration takes. `Value.places` lists the places that a value names, `Store.Keeps` tells
what is kept at a place, and `Store.Reaches` follows both. The values within a set of places that is
`Store.Closed` cannot lead out of it.
-/

namespace Conform

/-- What attributes can be given to: a class that takes new ones, or an enumeration with its members. -/
inductive Owner
  | sealed (o : SealedObject)
  | enumeration (cls : EnumClass)
deriving DecidableEq

/-- What takes the attributes that an atom is given. -/
def Atom.owner? : Atom → Option Owner
  | .sealed o => if o.isOpen then some (.sealed o) else none
  | .enumeration cls => some (.enumeration cls)
  | .member cls _ => some (.enumeration cls)
  | _ => none

/-- What has an identity and can be changed. -/
inductive Place
  | object (l : Loc)
  | attributes (o : Owner)
deriving DecidableEq

/-- The place that an atom names. -/
def Atom.places (a : Atom) : List Place := a.owner?.toList.map .attributes

/-- The places that the defaults of a class of records name. -/
def RecordClass.places (cls : RecordClass) : List Place := cls.fields.flatMap (·.initial.places)

namespace Value

mutual

/-- The places that a value names. -/
def places : Value → List Place
  | .atom a => a.places
  | .tuple _ xs => placesAll xs
  | .set xs => placesAll xs
  | .frozen cls xs => cls.places ++ placesAll xs
  | .ref l => [.object l]

/-- The places that several values name. -/
def placesAll : List Value → List Place
  | [] => []
  | x :: xs => places x ++ placesAll xs

end

/-- Whether all places that a value names are among the given ones. -/
def Within (R : Set Place) (v : Value) : Prop := ∀ p ∈ v.places, p ∈ R

theorem mem_placesAll {p : Place} {xs : List Value} :
    p ∈ placesAll xs ↔ ∃ x ∈ xs, p ∈ x.places := by
  induction xs with
  | nil => simp [placesAll]
  | cons x xs ih => simp [placesAll, ih]

variable {R S : Set Place} {v : Value} {xs : List Value} {l : Loc}

theorem Within.mono (h : R ⊆ S) (hv : v.Within R) : v.Within S := fun p hp => h (hv p hp)

@[simp] theorem within_ref : (Value.ref l).Within R ↔ Place.object l ∈ R := by
  simp [Within, places]

@[simp] theorem within_tuple {cls : Option TupleClass} :
    (Value.tuple cls xs).Within R ↔ ∀ x ∈ xs, x.Within R := by
  simp only [Within, places, mem_placesAll]
  exact ⟨fun h x hx p hp => h p ⟨x, hx, hp⟩, fun h p ⟨x, hx, hp⟩ => h x hx p hp⟩

@[simp] theorem within_set : (Value.set xs).Within R ↔ ∀ x ∈ xs, x.Within R := by
  simp only [Within, places, mem_placesAll]
  exact ⟨fun h x hx p hp => h p ⟨x, hx, hp⟩, fun h p ⟨x, hx, hp⟩ => h x hx p hp⟩

@[simp] theorem within_frozen {cls : RecordClass} :
    (Value.frozen cls xs).Within R ↔ (∀ p ∈ cls.places, p ∈ R) ∧ ∀ x ∈ xs, x.Within R := by
  simp only [Within, places, List.mem_append, mem_placesAll]
  constructor
  · intro h
    exact ⟨fun p hp => h p (.inl hp), fun x hx p hp => h p (.inr ⟨x, hx, hp⟩)⟩
  · rintro ⟨hcls, hxs⟩ p (hp | ⟨x, hx, hp⟩)
    · exact hcls p hp
    · exact hxs x hx p hp

theorem within_atom {a : Atom} :
    (Value.atom a).Within R ↔ ∀ o, a.owner? = some o → Place.attributes o ∈ R := by
  simp [Within, places, Atom.places]

/-- The default of a field names places of its class only. -/
theorem within_initial {cls : RecordClass} {f : Field} (h : ∀ p ∈ cls.places, p ∈ R)
    (hf : f ∈ cls.fields) : (Value.atom f.initial).Within R :=
  fun p hp => h p (List.mem_flatMap.mpr ⟨f, hf, hp⟩)

/-- An atom that takes no attributes names no place. -/
theorem within_plain {a : Atom} (h : a.owner? = none) : (Value.atom a).Within R := by
  simp [within_atom, h]

theorem within_member {cls : EnumClass} {i : Nat} :
    (Value.atom (.member cls i)).Within R ↔ Place.attributes (.enumeration cls) ∈ R := by
  simp [within_atom, Atom.owner?]

@[simp] theorem within_int {n : Int} : (Value.int n).Within R := within_plain rfl
@[simp] theorem within_text {t : String} : (Value.text t).Within R := within_plain rfl
@[simp] theorem within_bool {b : Bool} : (Value.bool b).Within R := within_plain rfl
@[simp] theorem within_null : Value.null.Within R := within_plain rfl
@[simp] theorem within_absent : Value.absent.Within R := within_plain rfl
@[simp] theorem within_float {x : Binary64} : (Value.atom (.float x)).Within R := within_plain rfl
@[simp] theorem within_nan {m : Nat} : (Value.atom (.nan m)).Within R := within_plain rfl
@[simp] theorem within_bytes {bs : List UInt8} : (Value.atom (.bytes bs)).Within R := within_plain rfl

@[simp] theorem within_univ : v.Within Set.univ := fun _ _ => trivial

theorem within_getD {i : Nat} (h : ∀ x ∈ xs, x.Within R) : ((xs[i]?).getD .null).Within R := by
  cases hx : xs[i]? with
  | none => simp
  | some x => exact h x (List.mem_of_getElem? hx)

theorem mem_refsAll {l : Loc} {xs : List Value} : l ∈ refsAll xs ↔ ∃ x ∈ xs, l ∈ x.refs := by
  induction xs with
  | nil => simp [refsAll]
  | cons x xs ih => simp [refsAll, ih]

mutual

theorem object_mem_places {l : Loc} : ∀ v : Value, Place.object l ∈ v.places ↔ l ∈ v.refs
  | .atom a => by simp [places, refs, Atom.places]
  | .tuple cls xs => by simpa [places, refs] using object_mem_placesAll xs
  | .set xs => by simpa [places, refs] using object_mem_placesAll xs
  | .frozen cls xs => by
    have hcls : Place.object l ∉ cls.places := by simp [RecordClass.places, Atom.places]
    simpa [places, refs, hcls] using object_mem_placesAll xs
  | .ref m => by simp [places, refs]

theorem object_mem_placesAll {l : Loc} :
    ∀ xs : List Value, Place.object l ∈ placesAll xs ↔ l ∈ refsAll xs
  | [] => by simp [placesAll, refsAll]
  | x :: xs => by simp [placesAll, refsAll, object_mem_places x, object_mem_placesAll xs]

end

/-- Whether all objects that a value refers to are among the given places. -/
def Refers (R : Set Place) (v : Value) : Prop := ∀ l ∈ v.refs, Place.object l ∈ R

theorem Within.refers (h : v.Within R) : v.Refers R := fun _ hl => h _ ((object_mem_places v).mpr hl)

theorem refers_of_refs (h : v.refs = []) : v.Refers R := by simp [Refers, h]

@[simp] theorem refers_ref : (Value.ref l).Refers R ↔ Place.object l ∈ R := by simp [Refers, refs]

theorem refers_all : (∀ l ∈ refsAll xs, Place.object l ∈ R) ↔ ∀ x ∈ xs, x.Refers R := by
  simp only [Refers, mem_refsAll]
  exact ⟨fun h x hx l hl => h l ⟨x, hx, hl⟩, fun h l ⟨x, hx, hl⟩ => h x hx l hl⟩

@[simp] theorem refers_tuple {cls : Option TupleClass} :
    (Value.tuple cls xs).Refers R ↔ ∀ x ∈ xs, x.Refers R := refers_all

@[simp] theorem refers_set : (Value.set xs).Refers R ↔ ∀ x ∈ xs, x.Refers R := refers_all

@[simp] theorem refers_frozen {cls : RecordClass} :
    (Value.frozen cls xs).Refers R ↔ ∀ x ∈ xs, x.Refers R := refers_all

end Value

/-- The places that an object names. -/
def Object.places (o : Object) : List Place :=
  Value.placesAll o.values ++
    match o with
    | .record cls _ _ => cls.places
    | _ => []

/-- Whether all places that an object names are among the given ones. -/
def Object.Within (R : Set Place) (o : Object) : Prop := ∀ p ∈ o.places, p ∈ R

namespace Object

variable {R S : Set Place} {o : Object}

theorem Within.mono (h : R ⊆ S) (ho : o.Within R) : o.Within S := fun p hp => h (ho p hp)

theorem Within.value (h : o.Within R) {v : Value} (hv : v ∈ o.values) : v.Within R :=
  fun p hp => h p (List.mem_append_left _ (Value.mem_placesAll.mpr ⟨v, hv, hp⟩))

@[simp] theorem within_list {xs : List Value} :
    (Object.list xs).Within R ↔ ∀ x ∈ xs, x.Within R := by
  simp only [Within, places, List.append_nil]
  show (Value.tuple none xs).Within R ↔ _
  exact Value.within_tuple

@[simp] theorem within_slots {xs : List Value} :
    (Object.slots xs).Within R ↔ ∀ x ∈ xs, x.Within R := by
  simp only [Within, places, List.append_nil]
  show (Value.tuple none xs).Within R ↔ _
  exact Value.within_tuple

@[simp] theorem within_mapping {es : List (Value × Value)} :
    (Object.mapping es).Within R ↔ ∀ e ∈ es, e.1.Within R ∧ e.2.Within R := by
  have h : (Object.mapping es).Within R ↔
      ∀ x ∈ (Object.mapping es).values, x.Within R := by
    simp only [Within, places, List.append_nil]
    show (Value.tuple none (Object.mapping es).values).Within R ↔ _
    exact Value.within_tuple
  rw [h]
  simp only [values, List.mem_flatMap, List.mem_cons, List.not_mem_nil, or_false]
  constructor
  · intro hx e he
    exact ⟨hx e.1 ⟨e, he, .inl rfl⟩, hx e.2 ⟨e, he, .inr rfl⟩⟩
  · rintro hx x ⟨e, he, rfl | rfl⟩
    · exact (hx e he).1
    · exact (hx e he).2

@[simp] theorem within_record {cls : RecordClass} {xs : List Value} {extras : List (String × Value)} :
    (Object.record cls xs extras).Within R ↔
      (∀ p ∈ cls.places, p ∈ R) ∧ (∀ x ∈ xs, x.Within R) ∧ ∀ e ∈ extras, e.2.Within R := by
  simp only [Within, places, List.mem_append, Value.mem_placesAll, values, List.mem_map]
  constructor
  · intro h
    exact ⟨fun p hp => h p (.inr hp), fun x hx p hp => h p (.inl ⟨x, .inl hx, hp⟩),
      fun e he p hp => h p (.inl ⟨e.2, .inr ⟨e, he, rfl⟩, hp⟩)⟩
  · rintro ⟨hcls, hxs, hes⟩ p (⟨x, hx | ⟨e, he, rfl⟩, hp⟩ | hp)
    · exact hxs x hx p hp
    · exact hes e he p hp
    · exact hcls p hp

end Object

namespace Store

/-- The number of objects. -/
def size (s : Store) : Nat := s.objects.size

/-- Whether what is kept at a place names another. -/
def Names (s : Store) (p q : Place) : Prop :=
  match p with
  | .object l => ∃ o, s.get? l = some o ∧ q ∈ o.places
  | .attributes o => ∃ a name v, a.owner? = some o ∧ (a, name, v) ∈ s.given ∧ q ∈ v.places

/-- Whether what is kept at the places of a set names places of the set only. -/
def Closed (s : Store) (R : Set Place) : Prop := ∀ p ∈ R, ∀ q, s.Names p q → q ∈ R

/-- The places that a value leads to. -/
inductive Reaches (s : Store) (v : Value) : Place → Prop
  | named {p : Place} : p ∈ v.places → Reaches s v p
  | kept {p q : Place} : Reaches s v p → s.Names p q → Reaches s v q

theorem closed_reaches (s : Store) (v : Value) : s.Closed {p | s.Reaches v p} :=
  fun _ hp _ hq => .kept hp hq

theorem closed_univ (s : Store) : s.Closed Set.univ := fun _ _ _ _ => trivial

/-- What a value within a closed set leads to is in the set. -/
theorem Closed.of_reaches {s : Store} {R : Set Place} {v : Value} {p : Place} (hR : s.Closed R)
    (hv : v.Within R) (h : s.Reaches v p) : p ∈ R := by
  induction h with
  | named hp => exact hv _ hp
  | kept _ hq ih => exact hR _ ih _ hq

theorem Closed.object {s : Store} {R : Set Place} {l : Loc} {o : Object} (hR : s.Closed R)
    (hl : Place.object l ∈ R) (h : s.get? l = some o) : o.Within R :=
  fun q hq => hR _ hl q ⟨o, h, hq⟩

/-- Whether attributes have been given only to what takes them. -/
def Owned (s : Store) : Prop := ∀ e ∈ s.given, e.1.owner?.isSome

theorem Closed.given {s : Store} {R : Set Place} {a : Atom} {name : String} {v : Value}
    (hR : s.Closed R) (hs : s.Owned) (ha : (Value.atom a).Within R) (hv : s.given? a name = some v) :
    v.Within R := by
  rw [given?, Option.map_eq_some_iff] at hv
  obtain ⟨⟨b, n, x⟩, hfind, rfl⟩ := hv
  have hmem := List.mem_of_find?_eq_some hfind
  have hb := List.find?_some hfind
  simp only [Bool.and_eq_true, decide_eq_true_eq] at hb
  obtain ⟨rfl, -⟩ := hb
  obtain ⟨o, ho⟩ := Option.isSome_iff_exists.mp (hs _ hmem)
  exact fun q hq => hR _ (Value.within_atom.mp ha o ho) q ⟨_, _, _, ho, hmem, hq⟩

/-! ## Reading after writing -/

variable {s : Store} {l m : Loc} {o : Object}

theorem lt_size_of_get? (h : s.get? l = some o) : l < s.size := by
  simp only [get?, Array.getElem?_eq_some_iff] at h
  exact h.1

theorem get?_eq_none (h : s.size ≤ l) : s.get? l = none := Array.getElem?_eq_none h

theorem exists_get? (h : l < s.size) : ∃ o, s.get? l = some o := ⟨s.objects[l], Array.getElem?_eq_getElem h⟩

@[simp] theorem size_put : (s.put l o).size = s.size := by simp [put, size]

@[simp] theorem size_alloc : (s.alloc o).2.size = s.size + 1 := by simp [alloc, size]

@[simp] theorem alloc_fst : (s.alloc o).1 = s.size := rfl

@[simp] theorem given_put : (s.put l o).given = s.given := rfl

@[simp] theorem given_alloc : (s.alloc o).2.given = s.given := rfl

theorem get?_put : (s.put l o).get? m = if l = m ∧ m < s.size then some o else s.get? m := by
  simp only [put, get?, size, Array.getElem?_setIfInBounds]
  by_cases hl : l = m
  · subst hl
    by_cases hm : l < s.objects.size
    · simp [hm]
    · simp [hm]
  · simp [hl]

theorem get?_put_same (h : l < s.size) : (s.put l o).get? l = some o := by simp [get?_put, h]

theorem get?_put_of_ne (h : l ≠ m) : (s.put l o).get? m = s.get? m := by simp [get?_put, h]

theorem get?_alloc : (s.alloc o).2.get? m = if m = s.size then some o else s.get? m := by
  by_cases hm : m = s.objects.size
  · simp [alloc, get?, size, hm]
  · simp [alloc, get?, size, hm, Array.getElem?_push]

theorem get?_alloc_of_lt (h : m < s.size) : (s.alloc o).2.get? m = s.get? m := by
  simp [get?_alloc, Nat.ne_of_lt h]

theorem get?_alloc_new : (s.alloc o).2.get? s.size = some o := by simp [get?_alloc]

end Store

end Conform
