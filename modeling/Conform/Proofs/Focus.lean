import Conform.Proofs.Whole

/-!
# Focusing on entries

An attribute, or an item whose key is an atom, is found in a mapping by an atom (`Accessor.slot?`), and atoms are
compared without a look into the store. So what such an accessor reads depends on one object only (`get_congr`).
What it has stored is read back, and what is read under other texts stays the same (`set_stored`).
-/

namespace Conform

/-- The atom by which an accessor finds its part in a mapping. -/
def Accessor.key? : Accessor → Option Atom
  | .attr n => some (.text n)
  | .item _ (.atom b) => some b
  | _ => none

/-- The atom by which an accessor finds its part, if it finds one. An optional attribute is found like an attribute. -/
def Accessor.slot? : Accessor → Option Atom
  | .optionalAttr n => some (.text n)
  | a => a.key?

/-- Whether a record has a value for each of its declared fields. -/
def Object.Complete : Object → Prop
  | .record cls fields _ => cls.fields.length ≤ fields.length
  | _ => True

namespace Store

variable {s t : Store} {es : List (Value × Value)} {b : Atom} {x y : Value}

/-! ## Entries under atoms -/

/-- Only the tree of an atom is an atom. -/
theorem view_ne_atom {v : Value} (h : ¬ ∃ c, v = .atom c) (s : Store) (c : Atom) : s.view v ≠ .atom c := by
  cases v with
  | atom d => exact absurd ⟨d, rfl⟩ h
  | ref l =>
    show s.viewAt (s.objects.size + 1) [] l ≠ .atom c
    rw [viewAt]
    split
    · exact Data.noConfusion
    · next o _ =>
      split
      · exact Data.noConfusion
      · cases o <;> exact Data.noConfusion
  | _ => exact Data.noConfusion

/-- Only atoms are alike an atom. -/
theorem alike_other {v : Value} (h : ¬ ∃ c, v = .atom c) (s : Store) : (s.view v).alike (.atom b) = false := by
  have hother : ∀ d : Data, (∀ c, d ≠ .atom c) → d.alike (.atom b) = false := by
    intro d hd
    cases d with
    | atom c => exact absurd rfl (hd c)
    | _ => simp [Data.alike, Data.sameNaN, Data.equal]
  exact hother _ (view_ne_atom h s)

/-- Whether a value is alike an atom does not depend on the store. -/
theorem alike_atom (v : Value) (s t : Store) : (t.view v).alike (.atom b) = (s.view v).alike (.atom b) := by
  by_cases h : ∃ c, v = .atom c
  · obtain ⟨c, rfl⟩ := h
    rfl
  · rw [alike_other h, alike_other h]

theorem alike_text {v : Value} {n : String} (h : (s.view v).alike (.atom (.text n)) = true) :
    v = .text n := by
  by_cases hatom : ∃ c, v = .atom c
  · obtain ⟨c, rfl⟩ := hatom
    have hequal : c.equal (.text n) = true := by
      have hdata : (Data.atom c).alike (.atom (.text n)) = true := h
      cases c <;> simpa [Data.alike, Data.sameNaN, Data.equal] using hdata
    have hnone : Atom.numeral? (.text n) = none := rfl
    unfold Atom.equal at hequal
    rw [hnone] at hequal
    split at hequal
    · next heq => cases heq
    · rw [eq_of_beq hequal]
      rfl
    · cases hequal
  · rw [alike_other hatom] at h
    cases h

theorem lookup_atom (s t : Store) : t.lookup es (.atom b) = s.lookup es (.atom b) := by
  unfold lookup
  rw [show (fun e : Value × Value => (t.view e.1).alike (.atom b)) =
    fun e => (s.view e.1).alike (.atom b) from funext fun e => alike_atom e.1 s t]

theorem lookup_cons {k v : Value} {key : Data} : s.lookup ((k, v) :: es) key =
    if (s.view k).alike key then some v else s.lookup es key := by
  unfold lookup
  rw [List.find?_cons]
  cases (s.view k).alike key <;> rfl

/-- A value stored under a key that is there is found under it. -/
theorem lookup_insertEntry_self {key : Value} (h : s.lookup es (s.view key) = some x) :
    s.lookup (s.insertEntry key y es) (s.view key) = some y := by
  induction es with
  | nil => cases h
  | cons e es ih =>
    obtain ⟨k, v⟩ := e
    rw [lookup_cons] at h
    rw [insertEntry]
    split
    · next hk => rw [lookup_cons, if_pos hk]
    · next hk =>
      rw [if_neg hk] at h
      rw [lookup_cons, if_neg hk, ih h]

theorem lookup_insertEntry (h : s.lookup es (.atom b) = some x) :
    s.lookup (s.insertEntry (.atom b) y es) (.atom b) = some y :=
  lookup_insertEntry_self h

/-- Storing under one key leaves what is under another, if no key is like both. -/
theorem lookup_insertEntry_other {key : Value} {d : Data} (hkey : ¬ (s.view key).alike d = true)
    (hne : ∀ e ∈ es, (s.view e.1).alike (s.view key) = true → ¬ (s.view e.1).alike d = true) :
    s.lookup (s.insertEntry key y es) d = s.lookup es d := by
  induction es with
  | nil => rw [insertEntry, lookup_cons, if_neg hkey]
  | cons e es ih =>
    obtain ⟨k, v⟩ := e
    rw [insertEntry]
    split
    · next hk =>
      have hother := hne _ List.mem_cons_self hk
      rw [lookup_cons, lookup_cons, if_neg hother, if_neg hother]
    · rw [lookup_cons, lookup_cons, ih fun e he => hne e (List.mem_cons_of_mem _ he)]

/-- Storing under one text leaves what is under another. -/
theorem lookup_insertEntry_of_ne {m n : String} (hne : m ≠ n) :
    s.lookup (s.insertEntry (.text m) y es) (.atom (.text n)) = s.lookup es (.atom (.text n)) := by
  have hdiff : ∀ k : Value, (s.view k).alike (.atom (.text m)) = true →
      ¬ (s.view k).alike (.atom (.text n)) = true := by
    intro k hm hn
    have heq := (alike_text hm).symm.trans (alike_text hn)
    cases heq
    exact hne rfl
  refine lookup_insertEntry_other (fun hn => ?_) fun e _ => hdiff e.1
  have heq := alike_text hn
  cases heq
  exact hne rfl

end Store

namespace Accessor

open Store

variable {s t : Store} {a : Accessor} {b : Atom} {v w x y : Value} {l : Loc} {n : String}

theorem slot?_of_key? (h : a.key? = some b) : a.slot? = some b := by
  cases a with
  | optionalAttr n => cases h
  | _ => exact h

theorem sound_of_slot? (h : a.slot? = some b) : a.Sound := by
  cases a with
  | item shown key =>
    cases key with
    | atom c => rfl
    | _ => cases h
  | custom n get set => cases h
  | _ => trivial

/-! ## What reading depends on -/

theorem given?_plain (hs : s.Owned) {c : Atom} (hc : c.owner? = none) (name : String) :
    s.given? c name = none := by
  rw [Store.given?, Option.map_eq_none_iff, List.find?_eq_none]
  rintro e he heq
  have hown := hs e he
  simp only [Bool.and_eq_true, decide_eq_true_eq] at heq
  rw [heq.1, hc] at hown
  cases hown

theorem atomAttribute?_plain (hs : s.Owned) (ht : t.Owned) {c : Atom} (hc : c.owner? = none) (name : String) :
    atomAttribute? t c name = atomAttribute? s c name := by
  unfold atomAttribute?
  rw [given?_plain hs hc, given?_plain ht hc]

theorem getAttribute_congr (hs : s.Owned) (ht : t.Owned) (hget : ∀ l, v = .ref l → t.get? l = s.get? l)
    (hplain : ∀ c, v = .atom c → c.owner? = none) : getAttribute t v n = getAttribute s v n := by
  unfold getAttribute
  cases v with
  | ref l =>
    simp only [hget l rfl]
    split
    · rw [lookup_atom s t]
    · rfl
    · rfl
  | atom c => simp only [atomAttribute?_plain hs ht (hplain c rfl)]
  | tuple cls xs => cases cls <;> rfl
  | _ => rfl

theorem getItem_congr (hget : ∀ l, v = .ref l → t.get? l = s.get? l) :
    getItem t v (.atom b) = getItem s v (.atom b) := by
  cases v with
  | ref l =>
    simp only [getItem, hget l rfl]
    split
    · rfl
    · show foundUnder t (.atom b) (t.lookup _ (.atom b)) = foundUnder s (.atom b) (s.lookup _ (.atom b))
      rw [lookup_atom s t]
      rfl
    · rfl
  | atom d => cases d <;> rfl
  | _ => rfl

/-- What is read from a value depends on the object that it is only. -/
theorem get_congr (ha : a.slot? = some b) (hs : s.Owned) (ht : t.Owned)
    (hget : ∀ l, v = .ref l → t.get? l = s.get? l) (hplain : ∀ c, v = .atom c → c.owner? = none) :
    a.get t v = a.get s v := by
  cases a with
  | attr n => exact getAttribute_congr hs ht hget hplain
  | optionalAttr n =>
    show getOptional t v n = getOptional s v n
    rw [getOptional, getOptional, getAttribute_congr hs ht hget hplain]
  | item shown key =>
    cases key with
    | atom c => exact getItem_congr hget
    | _ => cases ha
  | _ => cases ha

/-! ## What storing does -/

/-- Whether what is read of a value under a text is the same in two stores. -/
structure ReadsAlike (n : String) (v : Value) (s t : Store) : Prop where
  named : getAttribute t v n = getAttribute s v n
  keyed : getItem t v (.atom (.text n)) = getItem s v (.atom (.text n))

theorem ReadsAlike.get (h : ReadsAlike n v s t) (ha : a.slot? = some (.text n)) : a.get t v = a.get s v := by
  cases a with
  | attr m =>
    cases ha
    exact h.named
  | optionalAttr m =>
    cases ha
    show getOptional t v n = getOptional s v n
    rw [getOptional, getOptional, h.named]
  | item shown key =>
    cases key with
    | atom c =>
      cases ha
      exact h.keyed
    | _ => cases ha
  | _ => cases ha

/-- Mappings with the same entry under a text read alike there. -/
theorem readsAlike_mapping {es fs : List (Value × Value)} (hs : s.get? l = some (.mapping es))
    (ht : t.get? l = some (.mapping fs))
    (heq : t.lookup fs (.atom (.text n)) = s.lookup es (.atom (.text n))) : ReadsAlike n (.ref l) s t := by
  refine ⟨by simp only [getAttribute, hs, ht, heq], ?_⟩
  simp only [getItem, hs, ht]
  show foundUnder t _ (t.lookup fs (.atom (.text n))) = foundUnder s _ (s.lookup es (.atom (.text n)))
  rw [heq]
  rfl

/-- What has become of a value in which a part has been stored: the same object, or a new value that is none. What is
read of an object under other texts has not changed. -/
structure Stored (a : Accessor) (b : Atom) (s : Store) (v y : Value) (t : Store) (w : Value) : Prop where
  size : t.size = s.size
  given : t.given = s.given
  other : ∀ l, v ≠ .ref l → t.get? l = s.get? l
  self : ∀ l, w = .ref l ↔ v = .ref l
  plain : ∀ c, w ≠ .atom c
  part : ∃ z, a.get t w = .ok z ∧ (z = y ∨ z = .absent ∧ y.isNull = true ∧ a.key? = none)
  complete : ∀ l o, v = .ref l → t.get? l = some o → o.Complete
  reads : ∀ l, v = .ref l → ∀ m n, b = .text m → m ≠ n → ReadsAlike n v s t

/-- What has been stored is read back, but for an optional attribute that is empty. -/
theorem Stored.get_set (h : Stored a b s v y t w) (ha : a.key?.isSome) : a.get t w = .ok y := by
  obtain ⟨z, hz, rfl | ⟨-, -, hkey⟩⟩ := h.part
  · exact hz
  · rw [hkey] at ha
    cases ha

theorem Stored.anew (hv : ∀ l, v ≠ .ref l) (hw : ∀ l, w ≠ .ref l) (hplain : ∀ c, w ≠ .atom c)
    (hget : a.get s w = .ok y) : Stored a b s v y s w :=
  ⟨rfl, rfl, fun _ _ => rfl, fun l => ⟨fun h => absurd h (hw l), fun h => absurd h (hv l)⟩, hplain, ⟨y, hget, .inl rfl⟩,
    fun l _ h => absurd h (hv l), fun l h => absurd h (hv l)⟩

theorem Stored.inPlace {o o' : Object} (ho : s.get? l = some o) (hput : (s.put l o').get? l = some o' →
      a.get (s.put l o') (.ref l) = .ok y) (hcomplete : o'.Complete)
    (hreads : (s.put l o').get? l = some o' → ∀ m n, b = .text m → m ≠ n → ReadsAlike n (.ref l) s (s.put l o')) :
    Stored a b s (.ref l) y (s.put l o') (.ref l) := by
  have hsame : (s.put l o').get? l = some o' := get?_put_same (lt_size_of_get? ho)
  refine ⟨size_put, rfl, fun m hm => get?_put_of_ne fun heq => hm (heq ▸ rfl), fun _ => Iff.rfl, nofun,
    ⟨y, hput hsame, .inl rfl⟩, ?_, fun _ _ => hreads hsame⟩
  rintro m o'' ⟨⟩ hget
  rw [hsame] at hget
  cases hget
  exact hcomplete

/-! ### Fields and extra attributes -/

theorem field?_set {names : List String} {xs : List Value} {n : String} {i : Nat} (hi : names.idxOf? n = some i)
    (hlt : i < xs.length) : field? names (xs.set i y) n = some y := by
  rw [field?, hi]
  exact List.getElem?_set_self hlt

theorem field?_set_of_ne {names : List String} {xs : List Value} {m n : String} {i : Nat} (hi : names.idxOf? m = some i)
    (hne : m ≠ n) : field? names (xs.set i y) n = field? names xs n := by
  unfold field?
  split
  · next j hj =>
    refine List.getElem?_set_ne ?_
    rintro rfl
    obtain ⟨_, hm, -⟩ := List.idxOf?_eq_some_iff.mp hi
    obtain ⟨_, hn, -⟩ := List.idxOf?_eq_some_iff.mp hj
    exact hne (hm.symm.trans hn)
  · rfl

theorem field?_lt {names : List String} {xs : List Value} {n : String} {i : Nat} (hi : names.idxOf? n = some i)
    (h : field? names xs n = some x) : i < xs.length := by
  rw [field?, hi] at h
  exact (List.getElem?_eq_some_iff.mp h).1

theorem find?_setExtra {n : String} : ∀ {extras : List (String × Value)},
    (setExtra n y extras).find? (fun e => e.1 == n) = some (n, y)
  | [] => by simp [setExtra]
  | (m, v) :: es => by
    rw [setExtra]
    split
    · next h =>
      have heq : m = n := eq_of_beq h
      simp [heq]
    · next h =>
      rw [List.find?_cons, show ((m, v).1 == n) = false from eq_false_of_ne_true h]
      exact find?_setExtra

theorem find?_setExtra_of_ne {m n : String} (hne : m ≠ n) : ∀ {extras : List (String × Value)},
    (setExtra m y extras).find? (fun e => e.1 == n) = extras.find? fun e => e.1 == n
  | [] => by simp [setExtra, hne]
  | (k, v) :: es => by
    rw [setExtra]
    split
    · next h =>
      have heq : k = m := eq_of_beq h
      simp [heq, hne]
    · rw [List.find?_cons, List.find?_cons, find?_setExtra_of_ne hne]

theorem getElem?_replaceField {n : String} {f : Field} {v : Value} :
    ∀ {fs : List Field} {xs : List Value} {i : Nat}, fs[i]? = some f → xs[i]? = some v → f.name = n →
      (replaceField n y fs xs)[i]? = some y
  | [], _, _, hf, _, _ => by simp at hf
  | _ :: _, [], _, _, hx, _ => by simp at hx
  | g :: fs, x :: xs, 0, hf, _, hn => by
    cases hf
    simp [replaceField, hn]
  | g :: fs, x :: xs, i + 1, hf, hx, hn => by
    rw [replaceField, List.getElem?_cons_succ]
    exact getElem?_replaceField hf hx hn

theorem exists_idx_of_field {n : String} {fields : List Field} {f : Field}
    (hf : fields.find? (fun f => f.name == n) = some f) : ∃ i, (fields.map (·.name)).idxOf? n = some i := by
  cases hi : (fields.map (·.name)).idxOf? n with
  | some i => exact ⟨i, rfl⟩
  | none =>
    refine absurd (List.mem_map.mpr ⟨f, List.mem_of_find?_eq_some hf, ?_⟩) (List.idxOf?_eq_none_iff.mp hi)
    simpa using List.find?_some hf

theorem field?_replaceField {n : String} {fields : List Field} {xs : List Value}
    (h : field? (fields.map (·.name)) xs n = some x) :
    field? (fields.map (·.name)) (replaceField n y fields xs) n = some y := by
  unfold field? at h ⊢
  split at h
  · next i hi =>
    obtain ⟨hlt, hname, -⟩ := List.idxOf?_eq_some_iff.mp hi
    rw [List.length_map] at hlt
    rw [List.getElem_map] at hname
    exact getElem?_replaceField (List.getElem?_eq_getElem hlt) h hname
  · cases h

theorem place?_lt {n j : Nat} {i : Int} (h : place? n i = some j) : j < n := by
  obtain ⟨⟨hle, hlt⟩, hj⟩ := Option.ite_none_right_eq_some.mp h
  have heq := Option.some.inj hj
  omega

theorem pick_replace {xs ys : List Value} {key : Value} (h : replace xs key y = .ok ys) :
    pick ys key = .ok y := by
  unfold replace at h
  split at h
  · cases h
  · next i hi =>
    split at h
    · next j hj =>
      cases h
      simp only [pick, hi, List.length_set, hj]
      rw [List.getElem?_set_self (place?_lt hj)]
      rfl
    · cases h

/-! ### Attributes and items -/

theorem setAttribute_tuple {n : String} {cls : TupleClass} {xs : List Value}
    (hget : getAttribute s (.tuple (some cls) xs) n = .ok x)
    (hset : setAttribute s (.tuple (some cls) xs) n y = .ok (w, t)) :
    Stored (.attr n) (.text n) s (.tuple (some cls) xs) y t w := by
  simp only [setAttribute] at hset
  split at hset
  · next i hi =>
    cases hset
    have hfield : field? cls.fields xs n = some x := fieldOrInherited?_eq hi ▸ eq_some_of_found hget
    refine .anew nofun nofun nofun ?_
    simp only [get, getAttribute, fieldOrInherited?_eq hi, field?_set hi (field?_lt hi hfield), found]
  · cases hset

theorem setAttribute_frozen {n : String} {cls : RecordClass} {xs : List Value}
    (hget : getAttribute s (.frozen cls xs) n = .ok x) (hset : setAttribute s (.frozen cls xs) n y = .ok (w, t)) :
    Stored (.attr n) (.text n) s (.frozen cls xs) y t w := by
  simp only [setAttribute] at hset
  split at hset
  · next f hf =>
    split at hset
    · cases hset
      obtain ⟨i, hi⟩ := exists_idx_of_field hf
      have hfield : field? (cls.fields.map (·.name)) xs n = some x := fieldOrInherited?_eq hi ▸ eq_some_of_found hget
      refine .anew nofun nofun nofun ?_
      simp only [get, getAttribute, fieldOrInherited?_eq hi, field?_replaceField hfield, found]
    · cases hset
  · cases hset

theorem setAttribute_mapping {n : String} {es : List (Value × Value)} (hes : s.get? l = some (.mapping es))
    (hget : getAttribute s (.ref l) n = .ok x) (hset : setAttribute s (.ref l) n y = .ok (w, t)) :
    Stored (.attr n) (.text n) s (.ref l) y t w := by
  simp only [getAttribute, hes] at hget
  simp only [setAttribute, hes] at hset
  cases hset
  refine .inPlace hes (fun hsame => ?_) trivial ?_
  · simp only [get, getAttribute, hsame]
    rw [lookup_atom s, show Value.text n = .atom (.text n) from rfl, lookup_insertEntry (eq_some_of_found hget), found]
  · rintro hsame m k ⟨⟩ hne
    exact readsAlike_mapping hes hsame (by rw [lookup_atom s, lookup_insertEntry_of_ne hne])

theorem setAttribute_record {n : String} {cls : RecordClass} {fields : List Value}
    {extras : List (String × Value)} (hrecord : s.get? l = some (.record cls fields extras))
    (hfull : cls.fields.length ≤ fields.length) (hset : setAttribute s (.ref l) n y = .ok (w, t)) :
    Stored (.attr n) (.text n) s (.ref l) y t w := by
  simp only [setAttribute, hrecord] at hset
  split at hset
  · next i hi =>
    cases hset
    have hlt : i < fields.length := by
      obtain ⟨hlt, -⟩ := List.idxOf?_eq_some_iff.mp hi
      rw [List.length_map] at hlt
      exact Nat.lt_of_lt_of_le hlt hfull
    refine .inPlace hrecord (fun hsame => ?_) ?_ ?_
    · simp only [get, getAttribute, hsame, objectAttribute?, attribute?, field?_set hi hlt, Option.some_or, found]
    · simpa [Object.Complete] using hfull
    · rintro hsame m k ⟨⟩ hne
      refine ⟨?_, by simp only [getItem, hsame, hrecord]⟩
      simp only [getAttribute, hsame, hrecord, objectAttribute?, attribute?, field?_set_of_ne hi hne]
  · next hi =>
    cases hset
    refine .inPlace hrecord (fun hsame => ?_) hfull ?_
    · simp only [get, getAttribute, hsame, objectAttribute?, attribute?, field?, hi, find?_setExtra, Option.map_some,
        Option.some_or, found]
    · rintro hsame m k ⟨⟩ hne
      refine ⟨?_, by simp only [getItem, hsame, hrecord]⟩
      simp only [getAttribute, hsame, hrecord, objectAttribute?, attribute?, find?_setExtra_of_ne hne]

theorem setAttribute_stored {n : String} (hcomplete : ∀ l o, v = .ref l → s.get? l = some o → o.Complete)
    (hplain : ∀ c, v = .atom c → c.owner? = none) (hget : getAttribute s v n = .ok x)
    (hset : setAttribute s v n y = .ok (w, t)) : Stored (.attr n) (.text n) s v y t w := by
  cases v with
  | atom c =>
    have hc := hplain c rfl
    cases c with
    | sealed cls =>
      have hopen : cls.isOpen = false := by
        simpa [Atom.owner?] using hc
      simp only [setAttribute, setAtomAttribute, hopen] at hset
      cases hset
    | enumeration cls => cases hc
    | member cls i => cases hc
    | _ => cases hset
  | tuple cls xs =>
    cases cls with
    | none => cases hset
    | some cls => exact setAttribute_tuple hget hset
  | set xs => cases hset
  | frozen cls xs => exact setAttribute_frozen hget hset
  | ref l =>
    cases ho : s.get? l with
    | none =>
      simp only [setAttribute, ho] at hset
      cases hset
    | some o =>
      cases o with
      | mapping es => exact setAttribute_mapping ho hget hset
      | record cls fields extras => exact setAttribute_record ho (hcomplete l _ rfl ho) hset
      | _ =>
        simp only [setAttribute, ho] at hset
        cases hset

theorem setItem_mapping {shown : String} {es : List (Value × Value)} (hes : s.get? l = some (.mapping es))
    (hget : getItem s (.ref l) (.atom b) = .ok x) (hset : setItem s (.ref l) (.atom b) y = .ok (w, t)) :
    Stored (.item shown (.atom b)) b s (.ref l) y t w := by
  simp only [getItem, hes] at hget
  simp only [setItem, hes] at hset
  split at hset
  · cases hset
  · next hhash =>
    cases hset
    unfold foundUnder at hget
    rw [if_neg hhash] at hget
    refine .inPlace hes (fun hsame => ?_) trivial ?_
    · simp only [get, getItem, hsame]
      have hview : (s.put l (.mapping (s.insertEntry (.atom b) y es))).view (.atom b) = .atom b := rfl
      rw [hview, lookup_atom s, lookup_insertEntry (eq_some_of_found hget)]
      rfl
    · rintro hsame m k rfl hne
      exact readsAlike_mapping hes hsame ((lookup_atom s _).trans (lookup_insertEntry_of_ne hne))

theorem setItem_stored {shown : String} (hget : getItem s v (.atom b) = .ok x)
    (hset : setItem s v (.atom b) y = .ok (w, t)) : Stored (.item shown (.atom b)) b s v y t w := by
  cases v with
  | tuple cls xs =>
    simp only [setItem] at hset
    rcases hreplace : replace xs (.atom b) y with e | ys
    · rw [hreplace] at hset
      cases hset
    · rw [hreplace] at hset
      cases hset
      exact .anew nofun nofun nofun (pick_replace hreplace)
  | ref l =>
    cases ho : s.get? l with
    | none =>
      simp only [setItem, ho] at hset
      cases hset
    | some o =>
      cases o with
      | list xs =>
        simp only [setItem, ho] at hset
        rcases hreplace : replace xs (.atom b) y with e | ys
        · rw [hreplace] at hset
          cases hset
        · rw [hreplace] at hset
          cases hset
          refine .inPlace ho (fun hsame => ?_) trivial ?_
          · simp only [get, getItem, hsame, pick_replace hreplace]
          · rintro - m k rfl -
            cases hreplace
      | mapping es => exact setItem_mapping ho hget hset
      | _ =>
        simp only [setItem, ho] at hset
        cases hset
  | atom c => cases c <;> cases hset
  | set xs => cases hset
  | frozen cls xs => cases hset

theorem getOptional_present (h : getOptional s v n = .ok x) (hx : x.isAbsent = false) :
    getAttribute s v n = .ok x := by
  unfold getOptional at h
  split at h
  · next z hz =>
    cases h
    by_cases hnull : z.isNull = true
    · rw [if_pos hnull] at hx
      cases hx
    · rw [if_neg hnull, hz]
  · cases h
    cases hx

/-- An optional attribute that has become the empty value counts as absent. -/
theorem Stored.optional (h : Stored (.attr n) (.text n) s v y t w) : Stored (.optionalAttr n) (.text n) s v y t w := by
  obtain ⟨z, hz, rfl | ⟨-, -, hkey⟩⟩ := h.part
  · refine ⟨h.size, h.given, h.other, h.self, h.plain, ⟨if z.isNull then .absent else z, ?_, ?_⟩, h.complete, h.reads⟩
    · show getOptional t w n = _
      rw [getOptional, show getAttribute t w n = _ from hz]
    · by_cases hnull : z.isNull = true
      · exact .inr ⟨if_pos hnull, hnull, rfl⟩
      · exact .inl (if_neg hnull)
  · cases hkey

/-- What has been stored where something was read is read back, and nothing else in the store changes. -/
theorem set_stored (ha : a.slot? = some b) (hcomplete : ∀ l o, v = .ref l → s.get? l = some o → o.Complete)
    (hplain : ∀ c, v = .atom c → c.owner? = none) (hget : a.get s v = .ok x)
    (hpresent : x.isAbsent = false ∨ a.key?.isSome) (hset : a.set s v y = .ok (w, t)) : Stored a b s v y t w := by
  cases a with
  | attr n =>
    cases ha
    exact setAttribute_stored hcomplete hplain hget hset
  | optionalAttr n =>
    cases ha
    rcases hpresent with hx | hkey
    · exact (setAttribute_stored hcomplete hplain (getOptional_present hget hx) hset).optional
    · cases hkey
  | item shown key =>
    cases key with
    | atom c =>
      cases ha
      exact setItem_stored hget hset
    | _ => cases ha
  | _ => cases ha

end Accessor

end Conform
