import Conform.Proofs.Mirror.Reading

/-!
# Writing to stores that mirror each other

Putting the same object into a cell and where it stands, making the same new objects, giving the same
attribute and copying from corresponding cells leaves stores that mirror each other. So does storing a part
in a value, and putting elements into one: either is done to both stores, or both refuse it alike.
-/

namespace Conform

/-! ## Moving alike -/

namespace Value

variable {r r' : Relocation}

mutual

/-- Relocations that agree on what a value refers to move it alike. -/
theorem move_congr (hmark : r.mark = r'.mark) : ∀ v : Value, (∀ l ∈ v.refs, r.place l = r'.place l) →
    v.move r = v.move r'
  | .atom a, _ => by
    cases a with
    | absent m => simp only [move, hmark]
    | _ => rfl
  | .tuple cls xs, h => by simp only [move, moveAll_congr hmark xs h]
  | .set xs, h => by simp only [move, moveAll_congr hmark xs h]
  | .frozen cls xs, h => by simp only [move, moveAll_congr hmark xs h]
  | .ref l, h => by rw [move, move, h l (by simp [refs])]

theorem moveAll_congr (hmark : r.mark = r'.mark) : ∀ xs : List Value,
    (∀ l ∈ refsAll xs, r.place l = r'.place l) → moveAll r xs = moveAll r' xs
  | [], _ => rfl
  | x :: xs, h => by
    rw [moveAll, moveAll, move_congr hmark x fun l hl => h l (by simp [refsAll, hl]),
      moveAll_congr hmark xs fun l hl => h l (by simp [refsAll, hl])]

end

end Value

/-- Relocations that agree on what an object refers to move it alike. -/
theorem Object.move_congr {r r' : Relocation} (hmark : r.mark = r'.mark) {o : Object}
    (h : ∀ l ∈ o.refs, r.place l = r'.place l) : o.move r = o.move r' := by
  have hvalue : ∀ v ∈ o.values, v.move r = v.move r' := fun v hv =>
    Value.move_congr hmark v fun l hl => h l (Value.mem_refsAll.mpr ⟨v, hv, hl⟩)
  have hlist : ∀ xs : List Value, (∀ x ∈ xs, x ∈ o.values) → Value.moveAll r xs = Value.moveAll r' xs := by
    intro xs hxs
    rw [Value.moveAll_eq_map, Value.moveAll_eq_map, List.map_congr_left fun x hx => hvalue x (hxs x hx)]
  cases o with
  | list xs => rw [move, move, hlist xs fun _ hx => hx]
  | slots xs => rw [move, move, hlist xs fun _ hx => hx]
  | mapping es =>
    rw [move, move, List.map_congr_left fun e he => ?_]
    rw [hvalue e.1 (List.mem_flatMap.mpr ⟨e, he, by simp⟩), hvalue e.2 (List.mem_flatMap.mpr ⟨e, he, by simp⟩)]
  | record cls xs extras =>
    rw [move, move, hlist xs fun x hx => by simp [values, hx], List.map_congr_left fun e he => ?_]
    rw [hvalue e.2 (List.mem_append_right _ (List.mem_map_of_mem he))]

/-! ## What is copied -/

namespace Store

/-- The objects that a copy copies. -/
def sources (s : Store) (roots : List Loc) : List Object :=
  (s.reachable roots).map fun l => (s.get? l).getD (.slots [])

theorem mem_sources {s : Store} {roots : List Loc} {o : Object} :
    o ∈ s.sources roots ↔ ∃ l ∈ s.reachable roots, s.get? l = some o := by
  rw [sources, List.mem_map]
  constructor
  · rintro ⟨l, hl, rfl⟩
    obtain ⟨o, ho⟩ := exists_get? (lt_of_mem_reachable hl)
    exact ⟨l, hl, by rw [ho, Option.getD_some]⟩
  · rintro ⟨l, hl, ho⟩
    exact ⟨l, hl, by rw [ho, Option.getD_some]⟩

theorem copy_snd (s : Store) (roots : List Loc) :
    (s.copy roots).2 = { s with
      objects := s.objects ++ ((s.sources roots).map (Object.move (s.copy roots).1)).toArray
      marks := s.marks + ((s.sources roots).flatMap fun o => Value.absentMarksAll o.values).length } := rfl

/-- What is made anew of elements, if these are the elements of it, and else what is said of it. -/
def accepted (kind : String) (elements : List Data) :
    Except String (Value × Store) → Except (Option String) (Value × Store)
  | .error reason => .error (some ("cannot rebuild " ++ kind ++ ": " ++ reason))
  | .ok (w, t) =>
    if Data.equalAll (t.viewAll ((t.elements? w).getD [])) elements then .ok (w, t)
    else .error ((Data.list elements).text?.map (("cannot rebuild " ++ kind ++ " from ") ++ ·))

theorem rebuild_eq (s : Store) (v : Value) (xs : List Value) :
    s.rebuild v xs =
      match v with
      | .ref l =>
        match s.get? l with
        | some (.list _) => .ok (v, s.put l (.list xs))
        | _ => accepted (s.view v).className (s.viewAll xs) (s.remake v xs)
      | _ => accepted (s.view v).className (s.viewAll xs) (s.remake v xs) := by
  unfold rebuild accepted
  rfl

theorem idxOf?_map {f : Loc → Loc} {c : Loc} : ∀ {ls : List Loc}, (∀ l ∈ ls, f l = f c → l = c) →
    (ls.map f).idxOf? (f c) = ls.idxOf? c := by
  intro ls
  induction ls with
  | nil =>
    intro _
    rfl
  | cons l ls ih =>
    intro h
    have htail := ih fun m hm => h m (by simp [hm])
    have hhead : (f l == f c) = (l == c) := by
      rw [Bool.eq_iff_iff, beq_iff_eq, beq_iff_eq]
      exact ⟨h l (by simp), fun heq => by rw [heq]⟩
    rw [List.map_cons, List.idxOf?_cons, List.idxOf?_cons, hhead, htail]

end Store

namespace Mirroring

variable {M : Mirroring} {s t : Store}

namespace Holds

variable {v w x : Value} {xs : List Value} {l : Loc}

/-! ## Writing -/

theorem lt_size (h : M.Holds s t) {c : Loc} (hc : c ∈ M.cells) : M.place c < s.size ↔ c < t.size := by
  have hget := h.get c hc
  constructor
  · intro hlt
    obtain ⟨o, ho⟩ := Store.exists_get? hlt
    exact Store.lt_size_of_get? (hget.symm.trans ho)
  · intro hlt
    obtain ⟨o, ho⟩ := Store.exists_get? hlt
    exact Store.lt_size_of_get? (hget.trans ho)

/-- Objects that name values only can be put into a cell, here and where it stands there. Where no value
can be, these are slots. -/
theorem put (h : M.Holds s t) {c : Loc} (hc : c ∈ M.cells) {o : Object} (ho : o.Within M.values)
    (hkind : Place.object c ∈ M.values ∨ ∃ vs, o = .slots vs) : M.Holds (s.put (M.place c) o) (t.put c o) where
  size := by rw [Store.size_put, Store.size_put, h.size]
  marks := h.marks
  given := h.given
  get := by
    intro d hd
    have hplace : M.place c = M.place d ↔ c = d := ⟨M.inj c d hc hd, fun heq => by rw [heq]⟩
    simp only [Store.get?_put, hplace, h.lt_size hd, h.get d hd]
  held := by
    intro d hd o' ho'
    rw [Store.get?_put] at ho'
    split at ho'
    · cases ho'
      exact ho
    · exact h.held d hd o' ho'
  slotted := by
    intro d hd hvalue o' ho'
    rw [Store.get?_put] at ho'
    split at ho'
    · next heq =>
      cases ho'
      exact hkind.resolve_left fun hmem => hvalue (heq.1 ▸ hmem)
    · exact h.slotted d hd hvalue o' ho'
  named := h.named
  fresh := by simpa using h.fresh
  owned := h.owned
  frame := by
    intro l hl
    have hne : c ≠ l := fun heq => hl (heq ▸ hc)
    rw [Store.get?_put_of_ne hne, h.frame l hl]

/-- Objects that name values only can be put at a place of values. -/
theorem put_value (h : M.Holds s t) (hl : Place.object l ∈ M.values) {o : Object} (ho : o.Within M.values) :
    M.Holds (s.put l o) (t.put l o) := by
  obtain ⟨hcell, hplace⟩ := M.own l hl
  have hput := h.put hcell ho (.inl hl)
  rwa [hplace] at hput

theorem get?_extended {A : Array Object} {n : Nat} (u : Store) (l : Loc) :
    Store.get? { u with objects := u.objects ++ A, marks := n } l =
      if l < u.size then u.get? l else A[l - u.size]? :=
  Array.getElem?_append

/-- Both stores can be given the same new objects, if these name values only. -/
theorem extend (h : M.Holds s t) {A : Array Object} (hA : ∀ o ∈ A, o.Within M.values) {m n : Nat} (hmn : m = n) :
    M.Holds { s with objects := s.objects ++ A, marks := m } { t with objects := t.objects ++ A, marks := n } where
  size := by
    have hsize : s.objects.size = t.objects.size := h.size
    simp only [Store.size, Array.size_append, hsize]
  marks := hmn
  given := h.given
  get := by
    intro c hc
    rw [get?_extended, get?_extended, h.get c hc]
    by_cases hlt : c < t.size
    · rw [if_pos hlt, if_pos ((h.lt_size hc).mpr hlt)]
    · obtain ⟨-, hplace⟩ := M.own c (h.fresh c (Nat.not_lt.mp hlt))
      rw [if_neg hlt, if_neg fun hlt' => hlt ((h.lt_size hc).mp hlt'), hplace, h.size]
  held := by
    intro c hc o ho
    rw [get?_extended] at ho
    split at ho
    · exact h.held c hc o ho
    · exact hA o (Array.mem_of_getElem? ho)
  slotted := by
    intro c hc hvalue o ho
    rw [get?_extended] at ho
    split at ho
    · exact h.slotted c hc hvalue o ho
    · next hge => exact absurd (h.fresh c (Nat.not_lt.mp hge)) hvalue
  named := h.named
  fresh := by
    intro l hl
    simp only [Store.size, Array.size_append] at hl
    exact h.fresh l (Nat.le_trans (Nat.le_add_right _ _) hl)
  owned := h.owned
  frame := by
    intro l hl
    have hlt : l < t.size := by
      by_contra hge
      exact hl (M.own l (h.fresh l (Nat.not_lt.mp hge))).1
    rw [get?_extended, if_pos hlt, h.frame l hl]

theorem alloc (h : M.Holds s t) {o : Object} (ho : o.Within M.values) :
    M.Holds (s.alloc o).2 (t.alloc o).2 := by
  have hA : ∀ p ∈ #[o], p.Within M.values := fun p hp => by
    rw [Array.mem_singleton] at hp
    exact hp ▸ ho
  have hextend := h.extend hA h.marks
  rwa [← Array.push_eq_append, ← Array.push_eq_append] at hextend

theorem freshNaN (h : M.Holds s t) : M.Holds s.freshNaN.2 t.freshNaN.2 := by
  have hextend := h.extend (A := #[]) (fun o ho => (Array.not_mem_empty o ho).elim)
    (congrArg (· + 1) h.marks)
  rwa [Array.append_empty, Array.append_empty] at hextend

theorem give (h : M.Holds s t) {a : Atom} {o : Owner} (ho : a.owner? = some o) {name : String}
    (hv : v.Within M.values) : M.Holds (s.give a name v) (t.give a name v) where
  size := h.size
  marks := h.marks
  given := by rw [Store.give, Store.give, h.given]
  get := h.get
  held := h.held
  slotted := h.slotted
  named := by
    intro e he
    rcases List.mem_cons.mp he with rfl | he
    · exact hv
    · exact h.named e he
  fresh := h.fresh
  owned := by
    intro e he
    rcases List.mem_cons.mp he with rfl | he
    · exact Option.isSome_iff_exists.mpr ⟨o, ho⟩
    · exact h.owned e he
  frame := h.frame

end Holds

/-! ## Answers with stores -/

/-- Whether two answers are the same, as `P` says, and come with stores that mirror each other. -/
structure Both {α : Type} (M : Mirroring) (P : α → Prop) (r r' : α × Store) : Prop where
  same : r.1 = r'.1
  answer : P r'.1
  holds : M.Holds r.2 r'.2

/-- The same of answers that may be missing, in which case the reasons are the same. -/
inductive Outcome {ε α : Type} (M : Mirroring) (P : α → Prop) :
    Except ε (α × Store) → Except ε (α × Store) → Prop
  | ok {r r' : α × Store} : M.Both P r r' → Outcome M P (.ok r) (.ok r')
  | error {e : ε} : Outcome M P (.error e) (.error e)

namespace Holds

variable {v w x part : Value} {xs : List Value} {l : Loc} {name : String}

/-- A new object that is the same in both stores. -/
theorem alloc_both (h : M.Holds s t) {o p : Object} (hop : o = p) (ho : p.Within M.values) :
    M.Both (Value.Within M.values) (.ref s.size, (s.alloc o).2) (.ref t.size, (t.alloc p).2) := by
  subst hop
  exact ⟨by rw [h.size], Value.within_ref.mpr (h.fresh _ (Nat.le_refl _)), h.alloc ho⟩

mutual

/-- Both stores can be given new objects for a tree. -/
theorem build {s t : Store} (h : M.Holds s t) : ∀ d : Data,
    M.Both (Value.Within M.values) (Store.build d s) (Store.build d t)
  | .atom a => by
    have hown : (Value.atom a).Within M.values := within_atom a
    cases a with
    | nan m =>
      simp only [Store.build]
      split
      · exact ⟨rfl, hown, h⟩
      · exact ⟨by rw [Store.freshNaN, Store.freshNaN, h.marks], Value.within_nan, h.freshNaN⟩
    | _ => exact ⟨rfl, hown, h⟩
  | .tuple cls xs => by
    obtain ⟨heq, hvs, hs⟩ := h.buildAll xs
    exact ⟨congrArg (Value.tuple cls) heq, Value.within_tuple.mpr hvs, hs⟩
  | .set xs => by
    obtain ⟨heq, hvs, hs⟩ := h.buildAll xs
    exact ⟨congrArg Value.set heq, Value.within_set.mpr hvs, hs⟩
  | .list xs => by
    obtain ⟨heq, hvs, hs⟩ := h.buildAll xs
    exact hs.alloc_both (congrArg Object.list heq) (Object.within_list.mpr hvs)
  | .mapping es => by
    obtain ⟨heq, hes, hs⟩ := h.buildEntries es
    exact hs.alloc_both (congrArg Object.mapping heq) (Object.within_mapping.mpr hes)
  | .record cls xs => by
    obtain ⟨heq, hvs, hs⟩ := h.buildAll xs
    have hcls : ∀ p ∈ cls.places, p ∈ M.values := M.defaults cls
    simp only [Store.build]
    split
    · exact ⟨congrArg (Value.frozen cls) heq, Value.within_frozen.mpr ⟨hcls, hvs⟩, hs⟩
    · refine hs.alloc_both ?_ (Object.within_record.mpr ⟨hcls, hvs, List.forall_mem_nil _⟩)
      rw [heq]
  | .elided name => ⟨rfl, Value.within_null, h⟩

theorem buildAll {s t : Store} (h : M.Holds s t) : ∀ ds : List Data,
    M.Both (fun vs => ∀ v ∈ vs, v.Within M.values) (Store.buildAll ds s) (Store.buildAll ds t)
  | [] => ⟨rfl, nofun, h⟩
  | d :: ds => by
    obtain ⟨heq, hv, hs⟩ := h.build d
    obtain ⟨heq', hvs, hs'⟩ := hs.buildAll ds
    refine ⟨?_, ?_, hs'⟩
    · simp only [Store.buildAll, heq, heq']
    · simpa [Store.buildAll] using ⟨hv, hvs⟩

theorem buildEntries {s t : Store} (h : M.Holds s t) : ∀ es : List (Data × Data),
    M.Both (fun vs => ∀ e ∈ vs, e.1.Within M.values ∧ e.2.Within M.values)
      (Store.buildEntries es s) (Store.buildEntries es t)
  | [] => ⟨rfl, nofun, h⟩
  | (k, x) :: es => by
    obtain ⟨heq, hk, hs⟩ := h.build k
    obtain ⟨heq', hx, hs'⟩ := hs.build x
    obtain ⟨heq'', hes, hs''⟩ := hs'.buildEntries es
    refine ⟨?_, ?_, hs''⟩
    · simp only [Store.buildEntries, heq, heq', heq'']
    · intro e he
      rcases List.mem_cons.mp he with rfl | he
      · exact ⟨hk, hx⟩
      · exact hes e he

end

/-! ## Copies -/

theorem foldl_visit_eq {step step' : List Loc → Loc → List Loc}
    (hstep : ∀ (seen : List Loc) (l : Loc), (∀ m ∈ seen, m ∈ M.cells) → l ∈ M.cells →
      step (seen.map M.place) (M.place l) = (step' seen l).map M.place ∧ ∀ m ∈ step' seen l, m ∈ M.cells) :
    ∀ (ls seen : List Loc), (∀ m ∈ seen, m ∈ M.cells) → (∀ l ∈ ls, l ∈ M.cells) →
      (ls.map M.place).foldl step (seen.map M.place) = (ls.foldl step' seen).map M.place ∧
        ∀ m ∈ ls.foldl step' seen, m ∈ M.cells := by
  intro ls
  induction ls with
  | nil =>
    intro seen hseen _
    exact ⟨rfl, hseen⟩
  | cons l ls ih =>
    intro seen hseen hls
    obtain ⟨heq, hcells⟩ := hstep seen l hseen (hls l (by simp))
    rw [List.map_cons, List.foldl_cons, List.foldl_cons, heq]
    exact ih _ hcells fun m hm => hls m (by simp [hm])

/-- A walk from where places stand is the walk from these places, as it stands there. -/
theorem visit_eq (h : M.Holds s t) (fuel : Nat) : ∀ (seen : List Loc) (l : Loc), (∀ m ∈ seen, m ∈ M.cells) →
    l ∈ M.cells → s.visit fuel (seen.map M.place) (M.place l) = (t.visit fuel seen l).map M.place ∧
      ∀ m ∈ t.visit fuel seen l, m ∈ M.cells := by
  induction fuel with
  | zero =>
    intro seen l hseen _
    exact ⟨rfl, hseen⟩
  | succ fuel ih =>
    intro seen l hseen hl
    have hmem : M.place l ∈ seen.map M.place ↔ l ∈ seen := by
      constructor
      · intro hm
        obtain ⟨m, hm, heq⟩ := List.mem_map.mp hm
        exact M.inj m l (hseen m hm) hl heq ▸ hm
      · exact List.mem_map_of_mem
    rw [Store.visit, Store.visit, h.get l hl]
    simp only [List.contains_iff_mem, hmem]
    split
    · exact ⟨rfl, hseen⟩
    · split
      · exact ⟨rfl, hseen⟩
      · next o ho =>
        have hrefs : ∀ r ∈ o.refs, r ∈ M.cells ∧ M.place r = r := fun r hr =>
          M.own r (h.held l hl o ho _ ((Object.object_mem_places o).mpr hr))
        have hsame : o.refs.map M.place = o.refs :=
          (List.map_congr_left fun r hr => (hrefs r hr).2).trans (List.map_id _)
        have hfold := foldl_visit_eq ih o.refs (l :: seen) (List.forall_mem_cons.mpr ⟨hl, hseen⟩)
          fun r hr => (hrefs r hr).1
        rwa [hsame] at hfold

theorem reachable_eq (h : M.Holds s t) {roots : List Loc} (hroots : ∀ c ∈ roots, c ∈ M.cells) :
    s.reachable (roots.map M.place) = (t.reachable roots).map M.place ∧
      ∀ l ∈ t.reachable roots, l ∈ M.cells := by
  have hsize : s.objects.size = t.objects.size := h.size
  rw [Store.reachable, Store.reachable, hsize]
  exact foldl_visit_eq (h.visit_eq _) roots [] (List.forall_mem_nil _) hroots

/-- What is copied stands in the copy at the same place in both stores. -/
theorem copy_place (h : M.Holds s t) {roots : List Loc} (hroots : ∀ c ∈ roots, c ∈ M.cells) {c : Loc}
    (hc : c ∈ M.cells) (hcopied : c ∈ t.reachable roots ∨ M.place c = c) :
    (s.copy (roots.map M.place)).1.place (M.place c) = (t.copy roots).1.place c := by
  obtain ⟨hreach, hcells⟩ := h.reachable_eq hroots
  have hsize : s.objects.size = t.objects.size := h.size
  show Store.renumber (s.reachable (roots.map M.place)) s.objects.size (M.place c) =
    Store.renumber (t.reachable roots) t.objects.size c
  rw [hreach, hsize, Store.renumber, Store.renumber, Store.idxOf?_map fun l hl heq => M.inj l c (hcells l hl) hc heq]
  rcases hcopied with hmem | hplace
  · cases hi : (t.reachable roots).idxOf? c with
    | none => exact absurd hmem (List.idxOf?_eq_none_iff.mp hi)
    | some i => rfl
  · rw [hplace]

/-- Copying from where cells stand and copying from the cells leaves stores that mirror each other. -/
theorem copy (h : M.Holds s t) {roots : List Loc} (hroots : ∀ c ∈ roots, c ∈ M.cells) :
    M.Holds (s.copy (roots.map M.place)).2 (t.copy roots).2 := by
  obtain ⟨hreach, hcells⟩ := h.reachable_eq hroots
  have hsources : s.sources (roots.map M.place) = t.sources roots := by
    rw [Store.sources, Store.sources, hreach, List.map_map]
    exact List.map_congr_left fun l hl => by rw [Function.comp_apply, h.get l (hcells l hl)]
  have hmark : (s.copy (roots.map M.place)).1.mark = (t.copy roots).1.mark := by
    show Store.renumber ((s.sources _).flatMap fun o => Value.absentMarksAll o.values) s.marks =
      Store.renumber ((t.sources _).flatMap fun o => Value.absentMarksAll o.values) t.marks
    rw [hsources, h.marks]
  have hvalue : ∀ o ∈ t.sources roots, ∀ r ∈ o.refs, Place.object r ∈ M.values ∧
      (r ∈ t.reachable roots ∨ t.size ≤ r) := by
    intro o ho r hr
    obtain ⟨l, hl, hget⟩ := Store.mem_sources.mp ho
    refine ⟨h.held l (hcells l hl) o hget _ ((Object.object_mem_places o).mpr hr), ?_⟩
    by_cases hlt : r < t.size
    · exact .inl (Store.reachable_closed hl hget hr hlt)
    · exact .inr (Nat.not_lt.mp hlt)
  have hmoved : (s.sources (roots.map M.place)).map (Object.move (s.copy (roots.map M.place)).1) =
      (t.sources roots).map (Object.move (t.copy roots).1) := by
    rw [hsources]
    refine List.map_congr_left fun o ho => Object.move_congr hmark fun r hr => ?_
    obtain ⟨hcell, hplace⟩ := M.own r (hvalue o ho r hr).1
    have hcopied := h.copy_place hroots hcell (.inr hplace)
    rwa [hplace] at hcopied
  have hmarks : s.marks + ((s.sources (roots.map M.place)).flatMap fun o => Value.absentMarksAll o.values).length =
      t.marks + ((t.sources roots).flatMap fun o => Value.absentMarksAll o.values).length := by
    rw [hsources, h.marks]
  rw [Store.copy_snd, Store.copy_snd, hmoved]
  refine h.extend (fun o ho => ?_) hmarks
  obtain ⟨o, hsource, rfl⟩ := List.mem_map.mp (List.mem_toArray.mp ho)
  refine Object.within_move (fun r hr => h.fresh _ ?_) fun o _ => M.attributes o
  rcases (hvalue o hsource r hr).2 with hmem | hge
  · exact Store.size_le_copy_place hmem
  · rwa [Store.copy_place_of_not_mem fun hmem => Nat.not_lt.mpr hge (Store.lt_of_mem_reachable hmem)]

/-! ## Storing parts -/

theorem setEntry (h : M.Holds s t) {es : List (Value × Value)} {key : Value} (hl : Place.object l ∈ M.values)
    (hget : t.get? l = some (.mapping es)) (hkey : key.Within M.values) (hpart : part.Within M.values) :
    M.Both (Value.Within M.values) (Accessor.setEntry s l es key part) (Accessor.setEntry t l es key part) := by
  have hes := Object.within_mapping.mp (h.object hl hget)
  rw [Accessor.setEntry, Accessor.setEntry, h.insertEntry_eq hkey hes]
  refine ⟨rfl, Value.within_ref.mpr hl, h.put_value hl (Object.within_mapping.mpr ?_)⟩
  exact Store.insertEntry_within hkey hpart hes

theorem setAtomAttribute (h : M.Holds s t) {a : Atom} (hpart : part.Within M.values) :
    M.Outcome (Value.Within M.values) (Accessor.setAtomAttribute s a name part)
      (Accessor.setAtomAttribute t a name part) := by
  have hown : (Value.atom a).Within M.values := within_atom a
  have hgive (o : Owner) (ho : a.owner? = some o) : M.Both (Value.Within M.values)
      (.atom a, s.give a name part) (.atom a, t.give a name part) := ⟨rfl, hown, h.give ho hpart⟩
  cases a with
  | sealed cls =>
    simp only [Accessor.setAtomAttribute]
    split
    · next hopen => exact .ok (hgive (.sealed cls) (by simp [Atom.owner?, hopen]))
    · exact .error
  | enumeration cls =>
    simp only [Accessor.setAtomAttribute]
    split
    · exact .error
    · exact .ok (hgive (.enumeration cls) rfl)
  | member cls i =>
    simp only [Accessor.setAtomAttribute]
    split
    · exact .error
    · exact .ok (hgive (.enumeration cls) rfl)
  | _ => exact .error

theorem setAttribute (h : M.Holds s t) (hv : v.Within M.values) (hpart : part.Within M.values) :
    M.Outcome (Value.Within M.values) (Accessor.setAttribute s v name part) (Accessor.setAttribute t v name part) := by
  cases v with
  | ref l =>
    have hl := Value.within_ref.mp hv
    simp only [Accessor.setAttribute, h.value hl]
    split
    · next es hget => exact .ok (h.setEntry hl hget Value.within_text hpart)
    · next cls xs extras hget =>
      obtain ⟨hcls, hxs, hextras⟩ := Object.within_record.mp (h.object hl hget)
      split
      · refine .ok ⟨rfl, hv, h.put_value hl (Object.within_record.mpr ⟨hcls, fun y hy => ?_, hextras⟩)⟩
        rcases List.mem_or_eq_of_mem_set hy with hy | rfl
        · exact hxs y hy
        · exact hpart
      · refine .ok ⟨rfl, hv, h.put_value hl (Object.within_record.mpr ⟨hcls, hxs, ?_⟩)⟩
        exact Accessor.setExtra_within hpart hextras
    · exact .error
  | frozen cls xs =>
    obtain ⟨hcls, hxs⟩ := Value.within_frozen.mp hv
    simp only [Accessor.setAttribute]
    split
    · split
      · refine .ok ⟨rfl, Value.within_frozen.mpr ⟨hcls, Accessor.replaceField_within hpart ?_ hxs⟩, h⟩
        exact fun f hf => Value.within_initial hcls hf
      · exact .error
    · exact .error
  | tuple cls xs =>
    cases cls with
    | none => exact .error
    | some cls =>
      simp only [Accessor.setAttribute]
      split
      · refine .ok ⟨rfl, Value.within_tuple.mpr fun y hy => ?_, h⟩
        rcases List.mem_or_eq_of_mem_set hy with hy | rfl
        · exact Value.within_tuple.mp hv y hy
        · exact hpart
      · exact .error
  | atom a => exact h.setAtomAttribute hpart
  | set xs => exact .error

theorem setItem (h : M.Holds s t) {key : Value} (hv : v.Within M.values) (hkey : key.Within M.values)
    (hpart : part.Within M.values) :
    M.Outcome (Value.Within M.values) (Accessor.setItem s v key part) (Accessor.setItem t v key part) := by
  cases v with
  | tuple cls xs =>
    simp only [Accessor.setItem]
    cases hr : Accessor.replace xs key part with
    | error e => exact .error
    | ok ys =>
      have hys := Accessor.replace_within (Value.within_tuple.mp hv) hpart hr
      exact .ok ⟨rfl, Value.within_tuple.mpr hys, h⟩
  | ref l =>
    have hl := Value.within_ref.mp hv
    simp only [Accessor.setItem, h.value hl, h.view_eq hkey]
    split
    · next xs hget =>
      cases hr : Accessor.replace xs key part with
      | error e => exact .error
      | ok ys =>
        have hys := Accessor.replace_within (Object.within_list.mp (h.object hl hget)) hpart hr
        exact .ok ⟨rfl, hv, h.put_value hl (Object.within_list.mpr hys)⟩
    · next es hget =>
      split
      · exact .error
      · exact .ok (h.setEntry hl hget hkey hpart)
    · exact .error
  | _ => exact .error

/-! ## Rebuilding -/

theorem remake (h : M.Holds s t) (hv : v.Within M.values) (hxs : ∀ x ∈ xs, x.Within M.values) :
    M.Outcome (Value.Within M.values) (s.remake v xs) (t.remake v xs) := by
  cases v with
  | atom a =>
    cases a with
    | text u =>
      simp only [Store.remake, h.viewAll_eq hxs]
      cases Store.joinItems (t.viewAll xs) with
      | error e => exact .error
      | ok u => exact .ok ⟨rfl, Value.within_text, h⟩
    | bytes bs =>
      simp only [Store.remake, h.viewAll_eq hxs]
      cases Store.packItems (t.viewAll xs) with
      | error e => exact .error
      | ok bs => exact .ok ⟨rfl, Value.within_bytes, h⟩
    | enumeration cls => exact .error
    | _ => exact .ok ⟨rfl, hv, h⟩
  | tuple cls ys =>
    cases cls with
    | none => exact .ok ⟨rfl, Value.within_tuple.mpr hxs, h⟩
    | some cls =>
      simp only [Store.remake]
      split
      · exact .ok ⟨rfl, Value.within_tuple.mpr hxs, h⟩
      · exact .error
  | set ys =>
    simp only [Store.remake, h.collectItems_eq hxs]
    cases hc : t.collectItems xs with
    | error e => exact .error
    | ok zs => exact .ok ⟨rfl, Value.within_set.mpr (Store.collectItems_within hxs hc), h⟩
  | ref l =>
    simp only [Store.remake, h.pairItems_eq hxs]
    cases hp : t.pairItems xs with
    | error e => exact .error
    | ok es =>
      exact .ok (h.alloc_both rfl (Object.within_mapping.mpr (Store.pairItems_within h.closed hxs hp)))
  | frozen cls ys => exact .ok ⟨rfl, hv, h⟩

theorem accepted (kind : String) (ds : List Data) {r r' : Except String (Value × Store)}
    (h : M.Outcome (Value.Within M.values) r r') :
    M.Outcome (Value.Within M.values) (Store.accepted kind ds r) (Store.accepted kind ds r') := by
  cases h with
  | error => exact .error
  | @ok r r' hr =>
    obtain ⟨w, u⟩ := r
    obtain ⟨w', u'⟩ := r'
    obtain ⟨heq, hw, hu⟩ := hr
    cases heq
    have helements : ∀ x ∈ (u'.elements? w).getD [], x.Within M.values := by
      cases he : u'.elements? w with
      | none => exact List.forall_mem_nil _
      | some ys => exact Store.elements?_within hu.closed hw he
    simp only [Store.accepted, hu.elements?_eq hw, hu.viewAll_eq helements]
    split
    · exact .ok ⟨rfl, hw, hu⟩
    · exact .error

theorem rebuild (h : M.Holds s t) (hv : v.Within M.values) (hxs : ∀ x ∈ xs, x.Within M.values) :
    M.Outcome (Value.Within M.values) (s.rebuild v xs) (t.rebuild v xs) := by
  have haccepted := accepted (t.view v).className (t.viewAll xs) (h.remake hv hxs)
  rw [Store.rebuild_eq, Store.rebuild_eq, h.view_eq hv, h.viewAll_eq hxs]
  cases v with
  | ref l =>
    have hl := Value.within_ref.mp hv
    simp only [h.value hl]
    split
    · exact .ok ⟨rfl, hv, h.put_value hl (Object.within_list.mpr hxs)⟩
    · exact haccepted
  | _ => exact haccepted

end Holds

end Mirroring

end Conform
