import Mathlib.Data.List.Nodup
import Conform.Proofs.Copying
import Conform.Proofs.Parts
import Conform.Value.Comparison

/-!
# Stores that look alike

`Store.Image r R attrs s t` says that the objects of `s` in a closed set of places stand in `t` where the
relocation `r` puts them, with everything in them relocated, and, if attributes count, that what was
given to classes and enumerations among the places corresponds too. What is read of a value within the
set then does not depend on the store: its tree, its elements, its parts, and whether it equals another
one. Two cases matter: a store in which those places have not changed, and a copy beside its original.
-/

namespace Conform

namespace Value

variable {r : Relocation}

mutual

/-- The tree of a moved value is that of the value, if all it refers to stands for the same trees. -/
theorem view_move (hr : ∀ m, r.mark m = m) {d e : Loc → Data} :
    ∀ v : Value, (∀ l ∈ v.refs, e (r.place l) = d l) → (v.move r).view e = v.view d
  | .atom a, _ => by
    cases a with
    | absent m => simp [move, view, hr]
    | _ => rfl
  | .tuple cls xs, h => by simp only [move, view, viewAll_moveAll hr xs h]
  | .set xs, h => by simp only [move, view, viewAll_moveAll hr xs h]
  | .frozen cls xs, h => by simp only [move, view, viewAll_moveAll hr xs h]
  | .ref l, h => h l (by simp [refs])

theorem viewAll_moveAll (hr : ∀ m, r.mark m = m) {d e : Loc → Data} :
    ∀ xs : List Value, (∀ l ∈ refsAll xs, e (r.place l) = d l) →
      viewAll e (moveAll r xs) = viewAll d xs
  | [], _ => rfl
  | x :: xs, h => by
    rw [moveAll, viewAll, viewAll, view_move hr x fun l hl => h l (by simp [refsAll, hl]),
      viewAll_moveAll hr xs fun l hl => h l (by simp [refsAll, hl])]

end

mutual

/-- A value that refers only to what stays where it is stays so too. -/
theorem move_eq_self (hr : ∀ m, r.mark m = m) :
    ∀ v : Value, (∀ l ∈ v.refs, r.place l = l) → v.move r = v
  | .atom a, _ => by
    cases a with
    | absent m => simp [move, hr]
    | _ => rfl
  | .tuple cls xs, h => by simp only [move, moveAll_eq_self hr xs h]
  | .set xs, h => by simp only [move, moveAll_eq_self hr xs h]
  | .frozen cls xs, h => by simp only [move, moveAll_eq_self hr xs h]
  | .ref l, h => by rw [move, h l (by simp [refs])]

theorem moveAll_eq_self (hr : ∀ m, r.mark m = m) :
    ∀ xs : List Value, (∀ l ∈ refsAll xs, r.place l = l) → moveAll r xs = xs
  | [], _ => rfl
  | x :: xs, h => by
    rw [moveAll, move_eq_self hr x fun l hl => h l (by simp [refsAll, hl]),
      moveAll_eq_self hr xs fun l hl => h l (by simp [refsAll, hl])]

end

mutual

/-- A value without references and without stand-ins for missing parts is the same everywhere. -/
theorem move_bare : ∀ v : Value, v.refs = [] → v.absentMarks = [] → v.move r = v
  | .atom a, _, hm => by
    cases a with
    | absent m => simp [absentMarks] at hm
    | _ => rfl
  | .tuple cls xs, h, hm => by simp only [move, moveAll_bare xs h hm]
  | .set xs, h, hm => by simp only [move, moveAll_bare xs h hm]
  | .frozen cls xs, h, hm => by simp only [move, moveAll_bare xs h hm]
  | .ref l, h, _ => by simp [refs] at h

theorem moveAll_bare : ∀ xs : List Value, refsAll xs = [] → absentMarksAll xs = [] →
    moveAll r xs = xs
  | [], _, _ => rfl
  | x :: xs, h, hm => by
    obtain ⟨hx, hxs⟩ := List.append_eq_nil_iff.mp h
    obtain ⟨hmx, hmxs⟩ := List.append_eq_nil_iff.mp hm
    rw [moveAll, move_bare x hx hmx, moveAll_bare xs hxs hmxs]

end

theorem move_atom (hr : ∀ m, r.mark m = m) (a : Atom) : (Value.atom a).move r = .atom a :=
  move_eq_self hr _ nofun

/-- A relocation that moves nothing changes no value. -/
theorem move_id (v : Value) : v.move ⟨id, id⟩ = v := move_eq_self (fun _ => rfl) v fun _ _ => rfl

end Value

namespace Object

variable {r : Relocation}

theorem className_move (o : Object) : (o.move r).className = o.className := by
  cases o <;> rfl

theorem view_move (hr : ∀ m, r.mark m = m) {d e : Loc → Data} {o : Object}
    (h : ∀ l ∈ o.refs, e (r.place l) = d l) : (o.move r).view e = o.view d := by
  have hvalue : ∀ v ∈ o.values, (v.move r).view e = v.view d := fun v hv =>
    Value.view_move hr v fun l hl => h l (Value.mem_refsAll.mpr ⟨v, hv, hl⟩)
  cases o with
  | list xs => simp only [move, view, Value.viewAll_moveAll hr xs h]
  | slots xs => simp only [move, view, Value.viewAll_moveAll hr xs h]
  | record cls xs extras =>
    have hxs : ∀ l ∈ Value.refsAll xs, e (r.place l) = d l := by
      intro l hl
      obtain ⟨x, hx, hl⟩ := Value.mem_refsAll.mp hl
      exact h l (Value.mem_refsAll.mpr ⟨x, by simp [values, hx], hl⟩)
    simp only [move, view, Value.viewAll_moveAll hr xs hxs]
  | mapping es =>
    simp only [move, view, List.map_map]
    congr 1
    refine List.map_congr_left fun p hp => ?_
    have hk := hvalue p.1 (List.mem_flatMap.mpr ⟨p, hp, by simp⟩)
    have hx := hvalue p.2 (List.mem_flatMap.mpr ⟨p, hp, by simp⟩)
    show ((p.1.move r).view e, (p.2.move r).view e) = (p.1.view d, p.2.view d)
    rw [hk, hx]

/-- An object that refers only to what stays where it is stays so too. -/
theorem move_eq_self (hr : ∀ m, r.mark m = m) (o : Object) (h : ∀ l ∈ o.refs, r.place l = l) :
    o.move r = o := by
  have hvalue : ∀ v ∈ o.values, v.move r = v := fun v hv =>
    Value.move_eq_self hr v fun l hl => h l (Value.mem_refsAll.mpr ⟨v, hv, hl⟩)
  have hlist : ∀ xs : List Value, (∀ x ∈ xs, x ∈ o.values) → Value.moveAll r xs = xs := fun xs hxs => by
    rw [Value.moveAll_eq_map, List.map_congr_left fun x hx => hvalue x (hxs x hx), List.map_id']
  cases o with
  | list xs => rw [move, hlist xs fun _ hx => hx]
  | slots xs => rw [move, hlist xs fun _ hx => hx]
  | mapping es =>
    rw [move]
    congr 1
    refine (List.map_congr_left fun e he => ?_).trans (List.map_id es)
    have hkey := hvalue e.1 (List.mem_flatMap.mpr ⟨e, he, by simp⟩)
    have hx := hvalue e.2 (List.mem_flatMap.mpr ⟨e, he, by simp⟩)
    rw [hkey, hx]
    rfl
  | record cls xs extras =>
    rw [move, hlist xs fun x hx => by simp [values, hx]]
    congr 1
    refine (List.map_congr_left fun e he => ?_).trans (List.map_id extras)
    rw [hvalue e.2 (by simp only [values, List.mem_append, List.mem_map]; exact .inr ⟨e, he, rfl⟩)]
    rfl

theorem move_id (o : Object) : o.move ⟨id, id⟩ = o := move_eq_self (fun _ => rfl) o fun _ _ => rfl

end Object

namespace Store

/-- Whether a store holds the objects of another one where a relocation puts them. -/
structure Image (r : Relocation) (R : Set Place) (attrs : Prop) (s t : Store) : Prop where
  closed : s.Closed R
  marks : ∀ m, r.mark m = m
  get : ∀ l, Place.object l ∈ R →
    ∃ o, s.get? l = some o ∧ t.get? (r.place l) = some (o.move r)
  inj : ∀ l m, Place.object l ∈ R → Place.object m ∈ R → r.place l = r.place m → l = m
  owned : s.Owned
  given : attrs → ∀ a, (∀ o, a.owner? = some o → Place.attributes o ∈ R) →
    ∀ name, t.given? a name = (s.given? a name).map (Value.move r)

namespace Image

variable {r : Relocation} {R : Set Place} {attrs : Prop} {s t : Store}

/-! ## Trees -/

/-- The tree at a place is that at the place it is moved to. Both are read with fuel enough for all places
that have not been met. -/
theorem viewAt_eq (h : Image r R attrs s t) : ∀ (fuel fuel' : Nat) (path : List Loc) (l : Loc),
    (∀ m ∈ path, Place.object m ∈ R) → path.Nodup → Place.object l ∈ R →
    s.size < fuel + path.length → t.size < fuel' + path.length →
    t.viewAt fuel' (path.map r.place) (r.place l) = s.viewAt fuel path l := by
  have hbound : ∀ m, Place.object m ∈ R → m < s.size ∧ r.place m < t.size := by
    intro m hm
    obtain ⟨o, ho, ho'⟩ := h.get m hm
    exact ⟨lt_size_of_get? ho, lt_size_of_get? ho'⟩
  intro fuel
  induction fuel with
  | zero =>
    intro fuel' path l hpath hn hl hs ht
    have hle := length_le_size hn fun m hm => (hbound m (hpath m hm)).1
    exact absurd hs (by omega)
  | succ fuel ih =>
    intro fuel' path l hpath hn hl hs ht
    have hinj : ∀ m ∈ path, ∀ m' ∈ path, r.place m = r.place m' → m = m' := fun m hm m' hm' =>
      h.inj m m' (hpath m hm) (hpath m' hm')
    cases fuel' with
    | zero =>
      have hle : (path.map r.place).length ≤ t.size := by
        refine length_le_size (List.Nodup.map_on hinj hn) fun m hm => ?_
        obtain ⟨m', hm', rfl⟩ := List.mem_map.mp hm
        exact (hbound m' (hpath m' hm')).2
      rw [List.length_map] at hle
      exact absurd ht (by omega)
    | succ fuel' =>
      obtain ⟨o, ho, ho'⟩ := h.get l hl
      have hmem : r.place l ∈ path.map r.place ↔ l ∈ path := by
        constructor
        · intro hm
          obtain ⟨m, hm, heq⟩ := List.mem_map.mp hm
          rwa [← h.inj m l (hpath m hm) hl heq]
        · exact List.mem_map_of_mem
      simp only [viewAt, ho, ho', List.contains_iff_mem, hmem, Object.className_move]
      split
      · rfl
      · next hnot =>
        refine Object.view_move h.marks fun m hm => ?_
        have hmR : Place.object m ∈ R := by
          refine h.closed.object hl ho _ (List.mem_append_left _ ?_)
          exact (Value.object_mem_placesAll _).mpr hm
        refine ih fuel' (l :: path) m ?_ (List.nodup_cons.mpr ⟨hnot, hn⟩) hmR ?_ ?_
        · intro m' hm'
          rcases List.mem_cons.mp hm' with rfl | hm'
          · exact hl
          · exact hpath m' hm'
        · rw [List.length_cons]
          omega
        · rw [List.length_cons]
          omega

/-- The tree of a value does not depend on where its objects are. -/
theorem view_eq (h : Image r R attrs s t) {v : Value} (hv : v.Refers R) :
    t.view (v.move r) = s.view v := by
  refine Value.view_move h.marks v fun l hl => ?_
  refine h.viewAt_eq _ _ [] l nofun List.nodup_nil (hv l hl) ?_ ?_
  · exact Nat.lt_succ_self _
  · exact Nat.lt_succ_self _

theorem viewAll_eq (h : Image r R attrs s t) {xs : List Value} (hxs : ∀ x ∈ xs, x.Refers R) :
    t.viewAll (xs.map (Value.move r)) = s.viewAll xs := by
  rw [viewAll, viewAll, List.map_map]
  exact List.map_congr_left fun x hx => h.view_eq (hxs x hx)

/-! ## Comparison -/

theorem isSame_move (h : Image r R attrs s t) {v w : Value} (hv : v.Refers R) (hw : w.Refers R) :
    (v.move r).isSame (w.move r) = v.isSame w := by
  cases v with
  | ref l =>
    cases w with
    | ref m =>
      have hl := Value.refers_ref.mp hv
      have hm := Value.refers_ref.mp hw
      by_cases hlm : l = m
      · simp [Value.move, Value.isSame, hlm]
      · have hne : r.place l ≠ r.place m := fun heq => hlm (h.inj l m hl hm heq)
        simp [Value.move, Value.isSame, hlm, hne]
    | atom b => rw [Value.move_atom h.marks]; rfl
    | _ => rfl
  | atom a =>
    cases w with
    | atom b => rw [Value.move_atom h.marks, Value.move_atom h.marks]
    | _ => rw [Value.move_atom h.marks]; cases a <;> rfl
  | _ =>
    cases w with
    | atom b => rw [Value.move_atom h.marks]; rfl
    | _ => rfl

/-- A comparison of moved values comes out as that of the values. -/
def Agrees (r : Relocation) (R : Set Place) (f g : Value → Value → Option Bool) : Prop :=
  ∀ v w, v.Refers R → w.Refers R → g (v.move r) (w.move r) = f v w

theorem alike?_move (h : Image r R attrs s t) {f g : Value → Value → Option Bool}
    (hfg : Agrees r R f g) : Agrees r R (alike? f) (alike? g) := by
  intro v w hv hw
  rw [alike?, alike?, h.isSame_move hv hw, hfg v w hv hw]

theorem allAlike?_move (h : Image r R attrs s t) {f g : Value → Value → Option Bool}
    (hfg : Agrees r R f g) : ∀ {vs ws : List Value}, (∀ v ∈ vs, v.Refers R) →
      (∀ w ∈ ws, w.Refers R) →
      allAlike? g (vs.map (Value.move r)) (ws.map (Value.move r)) = allAlike? f vs ws := by
  intro vs
  induction vs with
  | nil =>
    intro ws _ _
    cases ws <;> rfl
  | cons v vs ih =>
    intro ws hvs hws
    cases ws with
    | nil => rfl
    | cons w ws =>
      have hhead := h.alike?_move hfg v w (hvs v (by simp)) (hws w (by simp))
      have htail := ih (fun x hx => hvs x (List.mem_cons_of_mem _ hx))
        fun x hx => hws x (List.mem_cons_of_mem _ hx)
      rw [List.map_cons, List.map_cons, allAlike?, allAlike?, hhead, htail]

theorem lookup_move (h : Image r R attrs s t) (key : Data) : ∀ {es : List (Value × Value)},
    (∀ e ∈ es, e.1.Refers R ∧ e.2.Refers R) →
      t.lookup (es.map fun e => (e.1.move r, e.2.move r)) key = (s.lookup es key).map (Value.move r) := by
  intro es
  induction es with
  | nil =>
    intro _
    rfl
  | cons e es ih =>
    intro hes
    have htail := ih fun e' he' => hes e' (by simp [he'])
    have hview := h.view_eq (hes e (by simp)).1
    rw [lookup, lookup] at htail
    rw [List.map_cons, lookup, lookup, List.find?_cons, List.find?_cons]
    simp only [hview]
    split
    · rfl
    · exact htail

theorem lookup_refers {es : List (Value × Value)} {key : Data} {x : Value}
    (hes : ∀ e ∈ es, e.1.Refers R ∧ e.2.Refers R) (h : s.lookup es key = some x) : x.Refers R := by
  obtain ⟨e, he, rfl⟩ := Option.map_eq_some_iff.mp h
  exact (hes e (List.mem_of_find?_eq_some he)).2

theorem entriesAlike?_move (h : Image r R attrs s t) {f g : Value → Value → Option Bool}
    (hfg : Agrees r R f g) {es : List (Value × Value)} (hes : ∀ e ∈ es, e.1.Refers R ∧ e.2.Refers R) :
    ∀ {fs : List (Value × Value)}, (∀ e ∈ fs, e.1.Refers R ∧ e.2.Refers R) →
      t.entriesAlike? g (es.map fun e => (e.1.move r, e.2.move r))
        (fs.map fun e => (e.1.move r, e.2.move r)) = s.entriesAlike? f es fs := by
  intro fs
  induction fs with
  | nil =>
    intro _
    rfl
  | cons e fs ih =>
    intro hfs
    obtain ⟨k, v⟩ := e
    obtain ⟨hk, hv⟩ := hfs (k, v) (by simp)
    have htail := ih fun e' he' => hfs e' (by simp [he'])
    rw [List.map_cons, entriesAlike?, entriesAlike?]
    simp only [h.view_eq hk, h.lookup_move _ hes]
    cases hw : s.lookup es (s.view k) with
    | none => rfl
    | some w =>
      have hwR := lookup_refers hes hw
      simp only [Option.map_some, h.alike?_move hfg v w hv hwR, htail]

/-- Equality of moved values is that of the values. -/
theorem equalWithin?_move (h : Image r R attrs s t) (levels : Nat) :
    Agrees r R (s.equalWithin? levels) (t.equalWithin? levels) := by
  induction levels with
  | zero =>
    intro v w _ _
    rfl
  | succ levels ih =>
    intro v w hv hw
    have hviews := h.view_eq hv
    have hviews' := h.view_eq hw
    cases v with
    | atom a =>
      cases w with
      | atom b => rw [Value.move_atom h.marks, Value.move_atom h.marks]; rfl
      | _ => rw [Value.move_atom h.marks]; rfl
    | tuple c vs =>
      cases w with
      | tuple d ws =>
        have hall := h.allAlike?_move ih (Value.refers_tuple.mp hv) (Value.refers_tuple.mp hw)
        simpa only [Value.move, Value.moveAll_eq_map, equalWithin?] using hall
      | atom b => rw [Value.move_atom h.marks]; rfl
      | _ => rfl
    | set vs =>
      cases w with
      | set ws =>
        simp only [Value.move] at hviews hviews'
        simp only [Value.move, equalWithin?, hviews, hviews']
      | atom b => rw [Value.move_atom h.marks]; rfl
      | _ => rfl
    | frozen c vs =>
      cases w with
      | frozen d ws =>
        have hall := h.allAlike?_move ih (Value.refers_frozen.mp hv) (Value.refers_frozen.mp hw)
        simp only [Value.move, Value.moveAll_eq_map, equalWithin?, hall]
      | atom b => rw [Value.move_atom h.marks]; rfl
      | _ => rfl
    | ref l =>
      cases w with
      | ref m =>
        obtain ⟨o, ho, ho'⟩ := h.get l (Value.refers_ref.mp hv)
        obtain ⟨p, hp, hp'⟩ := h.get m (Value.refers_ref.mp hw)
        have hoR := h.closed.object (Value.refers_ref.mp hv) ho
        have hpR := h.closed.object (Value.refers_ref.mp hw) hp
        simp only [Value.move, equalWithin?, ho, ho', hp, hp']
        cases o with
        | list vs =>
          cases p with
          | list ws =>
            have hall := h.allAlike?_move ih
              (fun x hx => (Object.within_list.mp hoR x hx).refers)
              fun x hx => (Object.within_list.mp hpR x hx).refers
            simp only [Object.move, Value.moveAll_eq_map, List.length_map, hall]
          | _ => rfl
        | mapping es =>
          cases p with
          | mapping fs =>
            have hall := h.entriesAlike?_move ih
              (fun e he => (Object.within_mapping.mp hpR e he).imp Value.Within.refers Value.Within.refers)
              fun e he => (Object.within_mapping.mp hoR e he).imp Value.Within.refers Value.Within.refers
            simp only [Object.move, List.length_map, hall]
          | _ => rfl
        | record c vs extras =>
          cases p with
          | record d ws extras' =>
            have hall := h.allAlike?_move ih
              (fun x hx => ((Object.within_record.mp hoR).2.1 x hx).refers)
              fun x hx => ((Object.within_record.mp hpR).2.1 x hx).refers
            simp only [Object.move, Value.moveAll_eq_map, hall]
          | _ => rfl
        | slots vs => rfl
      | atom b => rw [Value.move_atom h.marks]; rfl
      | _ => rfl

theorem equal?_move (h : Image r R attrs s t) : Agrees r R s.equal? t.equal? :=
  h.equalWithin?_move deepest

theorem isIn?_move (h : Image r R attrs s t) {v : Value} (hv : v.Refers R) :
    ∀ {ws : List Value}, (∀ w ∈ ws, w.Refers R) →
      t.isIn? (v.move r) (ws.map (Value.move r)) = s.isIn? v ws := by
  intro ws
  induction ws with
  | nil =>
    intro _
    rfl
  | cons w ws ih =>
    intro hws
    have hhead := h.alike?_move h.equal?_move w v (hws w (by simp)) hv
    rw [List.map_cons, isIn?, isIn?, hhead, ih fun x hx => hws x (by simp [hx])]

/-! ## Parts -/

theorem elements?_move (h : Image r R attrs s t) {v : Value} (hv : v.Refers R) :
    t.elements? (v.move r) = (s.elements? v).map (List.map (Value.move r)) := by
  have hatoms : ∀ {xs : List Value}, (∀ x ∈ xs, ∃ a, x = .atom a) → xs.map (Value.move r) = xs := by
    intro xs hxs
    refine (List.map_congr_left fun x hx => ?_).trans (List.map_id xs)
    obtain ⟨a, rfl⟩ := hxs x hx
    exact Value.move_atom h.marks a
  cases v with
  | atom a =>
    rw [Value.move_atom h.marks]
    cases a with
    | text u =>
      refine congrArg some (hatoms fun x hx => ?_).symm
      obtain ⟨c, -, rfl⟩ := List.mem_map.mp hx
      exact ⟨_, rfl⟩
    | bytes bs =>
      refine congrArg some (hatoms fun x hx => ?_).symm
      obtain ⟨b, -, rfl⟩ := List.mem_map.mp hx
      exact ⟨_, rfl⟩
    | enumeration cls =>
      refine congrArg some (hatoms fun x hx => ?_).symm
      obtain ⟨i, -, rfl⟩ := List.mem_map.mp hx
      exact ⟨_, rfl⟩
    | _ => rfl
  | tuple cls xs => simp only [Value.move, Value.moveAll_eq_map, elements?, Option.map_some]
  | set xs => simp only [Value.move, Value.moveAll_eq_map, elements?, Option.map_some]
  | frozen cls xs => rfl
  | ref l =>
    obtain ⟨o, ho, ho'⟩ := h.get l (Value.refers_ref.mp hv)
    simp only [Value.move, elements?, ho, ho']
    cases o with
    | list xs => simp only [Object.move, Value.moveAll_eq_map, Option.map_some]
    | mapping es => simp only [Object.move, List.map_map, Option.map_some, Function.comp_def]
    | _ => rfl

theorem pick_move (hr : ∀ m, r.mark m = m) {xs : List Value} {key : Value} :
    Accessor.pick (xs.map (Value.move r)) key = (Accessor.pick xs key).map (Value.move r) := by
  have hnull : Value.null.move r = .null := Value.move_atom hr .null
  unfold Accessor.pick
  cases Accessor.index? key with
  | none => rfl
  | some i =>
    simp only [List.length_map, List.getElem?_map]
    cases Accessor.place? xs.length i with
    | none => rfl
    | some j =>
      show Except.ok (((xs[j]?).map (Value.move r)).getD .null) =
        Except.ok (((xs[j]?).getD .null).move r)
      cases xs[j]? with
      | none => exact congrArg Except.ok hnull.symm
      | some x => rfl

theorem field?_move {names : List String} {xs : List Value} {name : String} :
    Accessor.field? names (xs.map (Value.move r)) name =
      (Accessor.field? names xs name).map (Value.move r) := by
  unfold Accessor.field?
  cases names.idxOf? name with
  | none => rfl
  | some i => simp only [List.getElem?_map]

theorem attribute?_move {cls : RecordClass} {xs : List Value} {extras : List (String × Value)}
    {name : String} :
    Accessor.attribute? cls (xs.map (Value.move r)) (extras.map fun e => (e.1, e.2.move r)) name =
      (Accessor.attribute? cls xs extras name).map (Value.move r) := by
  unfold Accessor.attribute?
  rw [field?_move]
  cases Accessor.field? (cls.fields.map (·.name)) xs name with
  | some x => rfl
  | none =>
    simp only [Option.map_none, List.find?_map, Option.map_map]
    rfl

/-- The attributes that an atom has from its class are atoms. -/
theorem fixedAttribute?_atom {a : Atom} {name : String} {x : Value}
    (hx : Accessor.fixedAttribute? a name = some x) : x.refs = [] := by
  have hnumber : ∀ e ∈ Accessor.numberAttributes a, e.2.refs = [] := by
    intro e he
    unfold Accessor.numberAttributes at he
    split at he
    · simp only [List.mem_cons, List.not_mem_nil, or_false] at he
      rcases he with rfl | rfl <;> rfl
    · cases ha : a.integer? with
      | none => simp [ha] at he
      | some n =>
        simp only [ha, Option.map_some, Option.getD_some, Accessor.integerAttributes, List.mem_cons,
          List.not_mem_nil, or_false] at he
        rcases he with rfl | rfl | rfl | rfl <;> rfl
  have hpayload : ∀ p : Payload, (Accessor.payloadValue p).refs = [] := by
    intro p
    cases p <;> rfl
  unfold Accessor.fixedAttribute? at hx
  split at hx
  · next cls i =>
    obtain ⟨e, he, rfl⟩ := Accessor.mem_of_lookup hx
    rcases List.mem_append.mp he with he | he
    · unfold Accessor.memberAttributes at he
      split at he
      · simp only [List.mem_cons, List.not_mem_nil, or_false] at he
        rcases he with rfl | rfl
        · rfl
        · exact hpayload _
      · cases he
    · exact hnumber e he
  · obtain ⟨i, -, rfl⟩ := Option.map_eq_some_iff.mp hx
    rfl
  · obtain ⟨e, he, rfl⟩ := Accessor.mem_of_lookup hx
    exact hnumber e he

/-- Atoms are not moved. -/
theorem map_move_of_atoms (hr : ∀ m, r.mark m = m) {o : Option Value} (h : ∀ x, o = some x → ∃ a : Atom, x = .atom a) :
    o.map (Value.move r) = o := by
  cases o with
  | none => rfl
  | some x =>
    obtain ⟨a, rfl⟩ := h x rfl
    rw [Option.map_some, Value.move_atom hr]

theorem atomAttribute?_move (h : Image r R attrs s t) (ha : attrs) {a : Atom} {name : String}
    (hv : (Value.atom a).Within R) :
    Accessor.atomAttribute? t a name = (Accessor.atomAttribute? s a name).map (Value.move r) := by
  have hgiven := h.given ha a (Value.within_atom.mp hv) name
  unfold Accessor.atomAttribute?
  rw [hgiven]
  cases hfixed : Accessor.fixedAttribute? a name with
  | some x =>
    have hx := Value.move_eq_self h.marks x (by simp [fixedAttribute?_atom hfixed])
    simp [hx]
  | none =>
    cases s.given? a name with
    | some x => rfl
    | none =>
      exact (map_move_of_atoms h.marks fun x hx => (Accessor.ownAttribute?_inherent hx).imp fun _ h => h.1).symm

theorem inherited?_move (h : Image r R attrs s t) {className shown name : String} :
    (inherited? className shown name).map (Value.move r) = inherited? className shown name :=
  map_move_of_atoms h.marks fun _ hx => (inherited?_inherent hx).imp fun _ h => h.1

theorem fieldOrInherited?_move (h : Image r R attrs s t) {names : List String} {xs : List Value}
    {className name : String} :
    Accessor.fieldOrInherited? names (xs.map (Value.move r)) className name =
      (Accessor.fieldOrInherited? names xs className name).map (Value.move r) := by
  unfold Accessor.fieldOrInherited?
  split
  · exact List.getElem?_map ..
  · exact h.inherited?_move.symm

theorem getAttribute_move (h : Image r R attrs s t) (ha : attrs) {v : Value} {name : String}
    (hv : v.Within R) :
    Accessor.getAttribute t (v.move r) name = (Accessor.getAttribute s v name).map (Value.move r) := by
  have hfound (o : Option Value) (cause : Misuse) :
      Accessor.found (o.map (Value.move r)) cause = (Accessor.found o cause).map (Value.move r) := by
    cases o <;> rfl
  have hclass (className : String) : Accessor.found (inherited? className "" name) .noAttribute =
      (Accessor.found (inherited? className "" name) .noAttribute).map (Value.move r) := by
    rw [← hfound, h.inherited?_move]
  cases v with
  | atom a =>
    rw [Value.move_atom h.marks]
    simp only [Accessor.getAttribute, h.atomAttribute?_move ha hv, hfound]
  | tuple cls xs =>
    cases cls with
    | none => exact hclass "tuple"
    | some cls =>
      simp only [Value.move, Value.moveAll_eq_map, Accessor.getAttribute, h.fieldOrInherited?_move, hfound]
  | set xs => exact hclass "set"
  | frozen cls xs =>
    simp only [Value.move, Value.moveAll_eq_map, Accessor.getAttribute, h.fieldOrInherited?_move, hfound]
  | ref l =>
    obtain ⟨o, ho, ho'⟩ := h.get l (Value.within_ref.mp hv)
    have hoR := h.closed.object (Value.within_ref.mp hv) ho
    simp only [Value.move, Accessor.getAttribute, ho, ho']
    cases o with
    | mapping es =>
      simp only [Object.move, h.lookup_move _ fun e he =>
        (Object.within_mapping.mp hoR e he).imp Value.Within.refers Value.Within.refers, hfound]
    | record cls xs extras =>
      simp only [Object.move, Value.moveAll_eq_map, Accessor.objectAttribute?, attribute?_move]
      rw [← hfound, Option.map_or, h.inherited?_move]
    | list xs => exact hclass "list"
    | slots vs => rfl

theorem getItem_move (h : Image r R attrs s t) {v key : Value} (hv : v.Within R)
    (hkey : t.view key = s.view key) :
    Accessor.getItem t (v.move r) key = (Accessor.getItem s v key).map (Value.move r) := by
  have hunder : ∀ {o : Option Value},
      Accessor.foundUnder t key (o.map (Value.move r)) =
        (Accessor.foundUnder s key o).map (Value.move r) := by
    intro o
    unfold Accessor.foundUnder
    rw [hkey]
    split
    · rfl
    · cases o <;> rfl
  have hsequence : ∀ {xs : List Value}, s.elements? v = some xs → t.elements? (v.move r) = some xs →
      Accessor.pick xs key = (Accessor.pick xs key).map (Value.move r) := by
    intro xs hs ht
    have helements := h.elements?_move hv.refers
    rw [hs, ht] at helements
    have hxs : xs = xs.map (Value.move r) := Option.some.inj helements
    rw [← pick_move h.marks, ← hxs]
  cases v with
  | atom a =>
    rw [Value.move_atom h.marks] at hsequence ⊢
    cases a with
    | text u => exact hsequence rfl rfl
    | bytes bs => exact hsequence rfl rfl
    | enumeration cls =>
      have hmember : ∀ name, (Accessor.member? cls name).map (Value.move r) =
          Accessor.member? cls name := by
        intro name
        unfold Accessor.member?
        cases cls.members.findIdx? (·.1 == name) <;> rfl
      cases key with
      | atom b =>
        cases b with
        | text name =>
          have hfound := hunder (o := Accessor.member? cls name)
          rwa [hmember] at hfound
        | _ => exact hunder (o := none)
      | _ => exact hunder (o := none)
    | _ => rfl
  | tuple cls xs => simp only [Value.move, Value.moveAll_eq_map, Accessor.getItem, pick_move h.marks]
  | set xs => rfl
  | frozen cls xs => rfl
  | ref l =>
    obtain ⟨o, ho, ho'⟩ := h.get l (Value.within_ref.mp hv)
    have hoR := h.closed.object (Value.within_ref.mp hv) ho
    simp only [Value.move, Accessor.getItem, ho, ho']
    cases o with
    | list xs => simp only [Object.move, Value.moveAll_eq_map, pick_move h.marks]
    | mapping es =>
      have hlookup := h.lookup_move (s.view key) fun e he =>
        (Object.within_mapping.mp hoR e he).imp Value.Within.refers Value.Within.refers
      simp only [Object.move, hkey, hlookup, hunder]
    | _ => rfl

end Image

end Store

namespace Value

variable {r : Relocation}

theorem isNull_move (hr : ∀ m, r.mark m = m) (v : Value) : (v.move r).isNull = v.isNull := by
  cases v with
  | atom a => rw [move_atom hr]
  | _ => rfl

theorem isAbsent_move (hr : ∀ m, r.mark m = m) (v : Value) : (v.move r).isAbsent = v.isAbsent := by
  cases v with
  | atom a => rw [move_atom hr]
  | _ => rfl

end Value

namespace Accessor

open Store

/-- Whether what an accessor reads does not depend on where objects are. Attributes have to count if it
reads any, and its key must refer to nothing. -/
def Uniform (attrs : Prop) : Accessor → Prop
  | .attr _ | .optionalAttr _ => attrs
  | .item _ key => key.refs = []
  | .variant _ => True
  | .custom n get set => attrs ∧
    (∀ r R s t v, Image r R attrs s t → v.Within R → get t (v.move r) = (get s v).map (Value.move r)) ∧
    ∀ R, Reads R (.custom n get set)

theorem Uniform.reads {attrs : Prop} {a : Accessor} {R : Set Place} (ha : a.Uniform attrs) :
    a.Reads R := by
  cases a with
  | custom n get set => exact ha.2.2 R
  | _ => trivial

theorem get_move {r : Relocation} {R : Set Place} {attrs : Prop} {s t : Store} {a : Accessor}
    {v : Value} (h : Image r R attrs s t) (ha : a.Uniform attrs) (hv : v.Within R) :
    a.get t (v.move r) = (a.get s v).map (Value.move r) := by
  have habsent : Value.absent.move r = .absent := Value.move_atom h.marks _
  cases a with
  | attr n => exact h.getAttribute_move ha hv
  | item shown key =>
    refine h.getItem_move hv ?_
    have hkey : key.refs = [] := ha
    have hview := Value.view_move (r := r) h.marks (d := s.viewAt (s.objects.size + 1) [])
      (e := t.viewAt (t.objects.size + 1) []) key (by simp [hkey])
    rwa [Value.move_eq_self h.marks key (by simp [hkey])] at hview
  | optionalAttr n =>
    have hget := @Image.getAttribute_move _ _ _ _ _ h ha v n hv
    simp only [Accessor.get, getOptional, hget]
    cases getAttribute s v n with
    | error e => exact congrArg Except.ok habsent.symm
    | ok x =>
      simp only [Except.map, Value.isNull_move h.marks]
      split
      · exact congrArg Except.ok habsent.symm
      · rfl
  | variant cls =>
    simp only [Accessor.get, h.view_eq hv.refers, Except.map]
    split
    · rfl
    · exact congrArg Except.ok habsent.symm
  | custom n get set => exact ha.2.1 r R s t v h hv

end Accessor

end Conform
