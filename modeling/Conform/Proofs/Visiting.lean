import Conform.Proofs.Diagnostics
import Conform.Proofs.Stocked

/-!
# What checks advance

A check has no other effect than that counters and lists of values seen move on. `Fact.visits s f v` lists where
they do: it is a recursion over the fact and the value that asks for parts and elements only, never for a
report. A store moves on by one visit as `Store.advance` says. The world after a check is then the one before it,
moved on by all visits (`exec_check_visits`): the same whatever passes or fails.

What a check reads must not be what it moves on, or a value could change under it. `Fact.Sheltered R ns s` says that
it is not: all that is read lies in a region `R` of the store, away from what the nodes `ns` note.
-/

namespace Conform

open Act

/-! ## Visits -/

/-- One use of a leaf that advances: the cell of the leaf, and the value that it is used on. -/
structure Visit where
  cell : Loc
  value : Value

namespace Visit

/-- The values that the leaf at a cell is used on, in the order of the visits. -/
def valuesAt (c : Loc) (xs : List Visit) : List Value := (xs.filter fun x => x.cell == c).map (·.value)

@[simp] theorem valuesAt_nil {c : Loc} : valuesAt c [] = [] := rfl

theorem valuesAt_cons {c : Loc} {x : Visit} {xs : List Visit} :
    valuesAt c (x :: xs) = (if x.cell = c then [x.value] else []) ++ valuesAt c xs := by
  by_cases h : x.cell = c <;> simp [valuesAt, h]

end Visit

namespace Store

/-- The integer that a counter expects next. -/
def next? (s : Store) (c : Loc) : Option Int :=
  match s.slots c with
  | [_, .atom b] => b.integer?
  | _ => none

/-- The store after a visit: a list of values seen has the value at its end, and a counter expects the next
integer. -/
def advance (s : Store) (x : Visit) : Store :=
  match s.slots x.cell with
  | [.ref l] => s.put l (.list (s.listItems (.ref l) ++ [x.value]))
  | [first, .atom b] =>
    match b.integer? with
    | some k => s.put x.cell (.slots [first, .int (k + 1)])
    | none => s
  | _ => s

variable {s : Store} {c l : Loc} {a b : Atom} {k : Int} {v : Value} {xs : List Value}

theorem advance_counter (hget : s.get? c = some (.slots [.atom a, .atom b])) (hb : b.integer? = some k) :
    s.advance ⟨c, v⟩ = s.put c (.slots [.atom a, .int (k + 1)]) := by
  simp only [advance, slots_of_get? hget, hb]

theorem advance_memory (hget : s.get? c = some (.slots [.ref l])) (hl : s.get? l = some (.list xs)) :
    s.advance ⟨c, v⟩ = s.put l (.list (xs ++ [v])) := by
  simp only [advance, slots_of_get? hget, listItems, hl]

theorem next?_of_get? (hget : s.get? c = some (.slots [.atom a, .atom b])) : s.next? c = b.integer? := by
  simp only [next?, slots_of_get? hget]

end Store

namespace Fact

mutual

/-- The visits of a check, in their order. Every member of a conjunction, both sides of a disjunction, every
element of a sequence and the further fact of a choice are used, and a part if it is there. -/
def visits (s : Store) : Fact → Value → List Visit
  | .counter c, v | .distinct c _ _, v => [⟨c, v⟩]
  | .all _ fs _ _, v => visitsAll s fs v
  | .either _ f g _, v => f.visits s v ++ g.visits s v
  | .negation _ f _ _, v | .choice _ (some f) _, v | .labeled _ _ f _, v => f.visits s v
  | .lens _ a f _, v =>
    match a.get s v with
    | .ok x => f.visits s x
    | .error _ => []
  | .prism _ a f _, v =>
    match a.get s v with
    | .ok x => if x.isAbsent then [] else f.visits s x
    | .error _ => []
  | .each _ f _, v => ((s.elements? v).getD []).flatMap fun x => f.visits s x
  | _, _ => []

/-- The visits of the members of a conjunction. -/
def visitsAll (s : Store) : List Fact → Value → List Visit
  | [], _ => []
  | f :: fs, v => f.visits s v ++ visitsAll s fs v

end

/-- Whether a node is a leaf that advances. -/
def NotesVisits (n : Fact) : Prop := n.kind? = some .counter ∨ n.kind? = some .memory

mutual

/-- Leaves of the tree that advance are visited, and nothing else. -/
theorem advances_of_visits {s : Store} : ∀ {f : Fact} {v : Value} {x : Visit}, x ∈ f.visits s v →
    ∃ n ∈ f.nodes, n.NotesVisits ∧ n.cell = x.cell
  | .counter c, v, x, h => by
    cases List.mem_singleton.mp h
    exact ⟨_, self_mem_nodes _, .inl rfl, rfl⟩
  | .distinct c g n, v, x, h => by
    cases List.mem_singleton.mp h
    exact ⟨_, self_mem_nodes _, .inr rfl, rfl⟩
  | .all _ fs _ _, v, x, h => by
    obtain ⟨n, hn, hx⟩ := advances_of_visitsAll h
    exact ⟨n, .tail _ hn, hx⟩
  | .either _ f g _, v, x, h => by
    rcases List.mem_append.mp h with h | h <;> obtain ⟨n, hn, hx⟩ := advances_of_visits h
    · exact ⟨n, .tail _ (List.mem_append_left _ hn), hx⟩
    · exact ⟨n, .tail _ (List.mem_append_right _ hn), hx⟩
  | .negation _ f _ _, v, x, h | .labeled _ _ f _, v, x, h | .choice _ (some f) _, v, x, h => by
    obtain ⟨n, hn, hx⟩ := advances_of_visits (f := f) h
    exact ⟨n, .tail _ hn, hx⟩
  | .lens _ a f _, v, x, h => by
    rw [visits] at h
    split at h
    · obtain ⟨n, hn, hx⟩ := advances_of_visits h
      exact ⟨n, .tail _ hn, hx⟩
    · cases h
  | .prism _ a f _, v, x, h => by
    rw [visits] at h
    split at h
    · split at h
      · cases h
      · obtain ⟨n, hn, hx⟩ := advances_of_visits h
        exact ⟨n, .tail _ hn, hx⟩
    · cases h
  | .each _ f _, v, x, h => by
    obtain ⟨y, -, h⟩ := List.mem_flatMap.mp h
    obtain ⟨n, hn, hx⟩ := advances_of_visits h
    exact ⟨n, .tail _ hn, hx⟩
  | .always _, _, _, h | .never _ _, _, _, h | .equality _ _ _ _, _, _, h | .membership _, _, _, h
  | .range _ _, _, _, h | .pair _ _ _ _, _, _, h | .length _ _ _, _, _, h | .mapped _ _ _ _ _, _, _, h
  | .predicate _ _ _, _, _, h | .brute _ _ _ _ _, _, _, h | .choice _ none _, _, _, h
  | .foreign _ _, _, _, h => nomatch h

theorem advances_of_visitsAll {s : Store} : ∀ {fs : List Fact} {v : Value} {x : Visit}, x ∈ visitsAll s fs v →
    ∃ n ∈ nodesAll fs, n.NotesVisits ∧ n.cell = x.cell
  | [], _, _, h => nomatch h
  | f :: fs, v, x, h => by
    rcases List.mem_append.mp h with h | h
    · obtain ⟨n, hn, hx⟩ := advances_of_visits h
      exact ⟨n, List.mem_append_left _ hn, hx⟩
    · obtain ⟨n, hn, hx⟩ := advances_of_visitsAll h
      exact ⟨n, List.mem_append_right _ hn, hx⟩

end

/-! ## Reading the same -/

end Fact

/-- Whether what an accessor reads depends on a region only: its key lies there, and what is brought from
outside reads only what its value leads to. -/
def Accessor.ReadsIn (R : Set Place) : Accessor → Prop
  | .item _ key => key.Within R
  | .custom n get set => (Accessor.custom n get set).Uniform True
  | _ => True

namespace Store.Image

variable {R : Set Place} {s t : Store} {v : Value}

/-- Stores with the same objects in a region are alike there. -/
theorem of_same (hR : s.Region R) (ho : s.Owned) (hsame : ∀ l, Place.object l ∈ R → t.get? l = s.get? l)
    (hgiven : t.given = s.given) : Image ⟨id, id⟩ R True s t where
  closed := hR.closed
  marks := fun _ => rfl
  get := by
    intro l hl
    obtain ⟨o, hget⟩ := exists_get? (hR.bounded l hl)
    refine ⟨o, hget, ?_⟩
    rw [Object.move_id, ← hget]
    exact hsame l hl
  inj := fun _ _ _ _ heq => heq
  owned := ho
  given := by
    intro _ a _ name
    rw [given?, hgiven, ← given?, Option.map_congr (g := id) fun v _ => Value.move_id v, Option.map_id, id_eq]

theorem elements?_same (h : Image ⟨id, id⟩ R True s t) (hv : v.Within R) : t.elements? v = s.elements? v := by
  have hmove := h.elements?_move hv.refers
  rw [Value.move_id] at hmove
  rw [hmove, Option.map_congr (g := id) fun xs _ => ?_, Option.map_id, id_eq]
  rw [List.map_congr_left fun x _ => Value.move_id x, List.map_id', id_eq]

theorem get_same (h : Image ⟨id, id⟩ R True s t) {a : Accessor} (ha : a.ReadsIn R) (hv : v.Within R) :
    a.get t v = a.get s v := by
  have hback : a.get t (v.move ⟨id, id⟩) = (a.get s v).map (Value.move ⟨id, id⟩) := by
    cases a with
    | item shown key =>
      refine h.getItem_move hv ?_
      have hkey := h.view_eq (Value.Within.refers ha)
      rwa [Value.move_id] at hkey
    | custom n get set => exact Accessor.get_move h ha hv
    | attr n | optionalAttr n | variant cls => exact Accessor.get_move h trivial hv
  rw [Value.move_id] at hback
  rw [hback]
  cases a.get s v with
  | error e => rfl
  | ok x => rw [Except.map, Value.move_id]

end Store.Image

namespace Accessor

variable {R : Set Place} {s : Store} {a : Accessor} {v x : Value}

/-- The part that is read lies where the value does. -/
theorem ReadsIn.within (ha : a.ReadsIn R) (hs : s.Closed R) (ho : s.Owned) (hv : v.Within R)
    (h : a.get s v = .ok x) : x.Within R := by
  refine get_within ?_ hs ho hv h
  cases a with
  | custom n get set => exact Uniform.reads ha
  | _ => trivial

end Accessor

namespace Fact

/-- Whether all that a fact reads parts with depends on a region only. -/
def ReadsIn (R : Set Place) (f : Fact) : Prop := ∀ n ∈ f.nodes, ∀ a ∈ n.accessor?, a.ReadsIn R

section

variable {R : Set Place} {s t : Store}

mutual

/-- Visits are determined by what the value leads to, whatever else the stores hold. -/
theorem visits_same (h : Store.Image ⟨id, id⟩ R True s t) : ∀ {f : Fact} {v : Value}, f.ReadsIn R →
    v.Within R → f.visits t v = f.visits s v
  | .all _ fs _ _, v, hf, hv => visitsAll_same h (fun n hn => hf n (.tail _ hn)) hv
  | .either _ f g _, v, hf, hv => by
    rw [visits, visits, visits_same h (fun n hn => hf n (.tail _ (List.mem_append_left _ hn))) hv,
      visits_same h (fun n hn => hf n (.tail _ (List.mem_append_right _ hn))) hv]
  | .negation _ f _ _, v, hf, hv | .labeled _ _ f _, v, hf, hv | .choice _ (some f) _, v, hf, hv =>
    visits_same (f := f) h (fun n hn => hf n (.tail _ hn)) hv
  | .lens _ a f _, v, hf, hv => by
    have ha := hf _ (self_mem_nodes _) a rfl
    rw [visits, visits, h.get_same ha hv]
    split
    · next x hx => exact visits_same h (fun n hn => hf n (.tail _ hn)) (ha.within h.closed h.owned hv hx)
    · rfl
  | .prism _ a f _, v, hf, hv => by
    have ha := hf _ (self_mem_nodes _) a rfl
    rw [visits, visits, h.get_same ha hv]
    split
    · next x hx =>
      split
      · rfl
      · exact visits_same h (fun n hn => hf n (.tail _ hn)) (ha.within h.closed h.owned hv hx)
    · rfl
  | .each _ f _, v, hf, hv => by
    rw [visits, visits, h.elements?_same hv]
    cases hxs : s.elements? v with
    | none => rfl
    | some xs =>
      have hwithin := Store.elements?_within h.closed hv hxs
      exact List.flatMap_congr fun x hx => visits_same h (fun n hn => hf n (.tail _ hn)) (hwithin x hx)
  | .always _, _, _, _ | .never _ _, _, _, _ | .equality _ _ _ _, _, _, _ | .membership _, _, _, _
  | .range _ _, _, _, _ | .pair _ _ _ _, _, _, _ | .counter _, _, _, _ | .distinct _ _ _, _, _, _
  | .length _ _ _, _, _, _ | .mapped _ _ _ _ _, _, _, _ | .predicate _ _ _, _, _, _
  | .brute _ _ _ _ _, _, _, _ | .choice _ none _, _, _, _ | .foreign _ _, _, _, _ => rfl

theorem visitsAll_same (h : Store.Image ⟨id, id⟩ R True s t) : ∀ {fs : List Fact} {v : Value},
    (∀ n ∈ nodesAll fs, ∀ a ∈ n.accessor?, a.ReadsIn R) → v.Within R → visitsAll t fs v = visitsAll s fs v
  | [], _, _, _ => rfl
  | f :: fs, v, hf, hv => by
    rw [visitsAll, visitsAll, visits_same h (fun n hn => hf n (List.mem_append_left _ hn)) hv,
      visitsAll_same h (fun n hn => hf n (List.mem_append_right _ hn)) hv]

end

end

/-! ## Moving on -/

/-- Whether the cells of leaves that advance hold what they should: a counter's an integer that is expected, and
a distinct fact's a list. -/
structure Primed (s : Store) (ns : List Fact) : Prop where
  counters : ∀ n ∈ ns, n.kind? = some .counter → ∃ a b k, b.integer? = some k ∧
    s.get? n.cell = some (.slots [.atom a, .atom b])
  memories : ∀ n ∈ ns, n.kind? = some .memory → ∃ l xs, s.get? n.cell = some (.slots [.ref l]) ∧
    s.get? l = some (.list xs)

/-- The objects that nodes note in how far they have come: the cells of counters, and lists of values seen. -/
def progress (s : Store) (ns : List Fact) : Set Loc :=
  {l | ∃ n ∈ ns, n.kind? = some .counter ∧ l = n.cell ∨ n.kind? = some .memory ∧ s.slots n.cell = [.ref l]}

/-- What a store must be like for nodes to be used on values in a region. -/
structure Sheltered (R : Set Place) (ns : List Fact) (s : Store) : Prop where
  region : s.Region R
  owned : s.Owned
  primed : Primed s ns
  apart : ∀ l ∈ progress s ns, Place.object l ∉ R

/-- Whether nothing but the progress of nodes tells two stores apart. -/
structure MovedOn (ns : List Fact) (s t : Store) : Prop where
  progress : progress t ns = progress s ns
  same : ∀ l, l ∉ Fact.progress s ns → t.get? l = s.get? l
  given : t.given = s.given
  size : t.size = s.size

variable {R : Set Place} {ns : List Fact} {n : Fact} {s t u : Store} {v : Value} {l : Loc}

theorem MovedOn.refl : MovedOn ns s s := ⟨rfl, fun _ _ => rfl, rfl, rfl⟩

theorem MovedOn.trans (h : MovedOn ns s t) (k : MovedOn ns t u) : MovedOn ns s u where
  progress := k.progress.trans h.progress
  same := fun l hl => (k.same l (h.progress ▸ hl)).trans (h.same l hl)
  given := k.given.trans h.given
  size := k.size.trans h.size

/-- Nothing that is read has changed in a store that has moved on. -/
theorem Sheltered.image (h : Sheltered R ns s) (hm : MovedOn ns s t) : Store.Image ⟨id, id⟩ R True s t :=
  .of_same h.region h.owned (fun l hl => hm.same l fun hmem => h.apart l hmem hl) hm.given

/-- A store that has moved on is still sheltered, if the cells that advance hold what they should. -/
theorem Sheltered.of_moved (h : Sheltered R ns s) (hm : MovedOn ns s t) (ht : Primed t ns) : Sheltered R ns t where
  region := by
    refine ⟨fun p hp q hq => ?_, fun l hl => hm.size ▸ h.region.bounded l hl⟩
    cases p with
    | object l =>
      obtain ⟨o, ho, hq⟩ := hq
      rw [hm.same l fun hmem => h.apart l hmem hp] at ho
      exact h.region.closed _ hp q ⟨o, ho, hq⟩
    | attributes w =>
      obtain ⟨a, name, x, ha, hmem, hq⟩ := hq
      exact h.region.closed _ hp q ⟨a, name, x, ha, hm.given ▸ hmem, hq⟩
  owned := fun e he => h.owned e (hm.given ▸ he)
  primed := ht
  apart := fun l hl => h.apart l (hm.progress ▸ hl)

/-- The cells of nodes stay as they should be if a counter's stays one and a distinct fact keeps its list. -/
theorem Primed.transfer (h : Primed s ns)
    (hcounters : ∀ n ∈ ns, n.kind? = some .counter → ∃ a b k, b.integer? = some k ∧
      t.get? n.cell = some (.slots [.atom a, .atom b]))
    (hmemories : ∀ n ∈ ns, n.kind? = some .memory → t.get? n.cell = s.get? n.cell)
    (hlists : ∀ n ∈ ns, n.kind? = some .memory → ∀ l, s.slots n.cell = [.ref l] →
      ∃ xs, t.get? l = some (.list xs)) :
    Primed t ns ∧ progress t ns = progress s ns := by
  have hslots : ∀ n ∈ ns, n.kind? = some .memory → t.slots n.cell = s.slots n.cell :=
    fun n hn hk => Store.slots_of_same (hmemories n hn hk)
  refine ⟨⟨hcounters, fun n hn hk => ?_⟩, ?_⟩
  · obtain ⟨l, xs, hget, -⟩ := h.memories n hn hk
    obtain ⟨ys, hl⟩ := hlists n hn hk l (Store.slots_of_get? hget)
    exact ⟨l, ys, (hmemories n hn hk).trans hget, hl⟩
  · ext l
    refine exists_congr fun n => and_congr_right fun hn => or_congr_right ?_
    exact and_congr_right fun hk => by rw [hslots n hn hk]

/-- A counter that is visited expects the next integer, and everything else stays. -/
theorem Primed.advance_counter (h : Primed s ns) (hn : n ∈ ns) (hk : n.kind? = some .counter) :
    Primed (s.advance ⟨n.cell, v⟩) ns ∧ MovedOn ns s (s.advance ⟨n.cell, v⟩) := by
  obtain ⟨a, b, k, hb, hget⟩ := h.counters n hn hk
  rw [Store.advance_counter hget hb]
  have hother : ∀ l, l ≠ n.cell → (s.put n.cell (.slots [.atom a, .int (k + 1)])).get? l = s.get? l :=
    fun l hl => Store.get?_put_of_ne hl.symm
  have hnew := Store.get?_put_same (o := .slots [.atom a, .int (k + 1)]) (Store.lt_size_of_get? hget)
  -- the cell of a distinct fact refers to a list, that of the counter to nothing
  have hcell : ∀ m ∈ ns, m.kind? = some .memory → m.cell ≠ n.cell := by
    intro m hm hkm heq
    obtain ⟨l, xs, hslots, -⟩ := h.memories m hm hkm
    rw [heq, hget] at hslots
    cases hslots
  have hlist : ∀ l xs, s.get? l = some (.list xs) → l ≠ n.cell := by
    rintro l xs hl rfl
    rw [hget] at hl
    cases hl
  have hcounters : ∀ m ∈ ns, m.kind? = some .counter → ∃ c d j, d.integer? = some j ∧
      (s.put n.cell (.slots [.atom a, .int (k + 1)])).get? m.cell = some (.slots [.atom c, .atom d]) := by
    intro m hm hkm
    by_cases heq : m.cell = n.cell
    · exact ⟨a, .int (k + 1), k + 1, rfl, heq ▸ hnew⟩
    · rw [hother _ heq]
      exact h.counters m hm hkm
  obtain ⟨hprimed, hprogress⟩ := h.transfer hcounters (fun m hm hkm => hother _ (hcell m hm hkm))
    fun m hm hkm l hl => by
      obtain ⟨l', xs, hslots, hlist'⟩ := h.memories m hm hkm
      rw [Store.slots_of_get? hslots] at hl
      cases hl
      exact ⟨xs, (hother _ (hlist _ _ hlist')).trans hlist'⟩
  refine ⟨hprimed, hprogress, fun l hl => hother l ?_, rfl, Store.size_put⟩
  rintro rfl
  exact hl ⟨n, hn, .inl ⟨hk, rfl⟩⟩

/-- A distinct fact that is visited has one more value in its list, and everything else stays. -/
theorem Primed.advance_memory (h : Primed s ns) (hn : n ∈ ns) (hk : n.kind? = some .memory) :
    Primed (s.advance ⟨n.cell, v⟩) ns ∧ MovedOn ns s (s.advance ⟨n.cell, v⟩) := by
  obtain ⟨l, xs, hget, hlist⟩ := h.memories n hn hk
  rw [Store.advance_memory hget hlist]
  have hother : ∀ m, m ≠ l → (s.put l (.list (xs ++ [v]))).get? m = s.get? m :=
    fun m hm => Store.get?_put_of_ne hm.symm
  have hnew := Store.get?_put_same (o := .list (xs ++ [v])) (Store.lt_size_of_get? hlist)
  -- cells hold slots, so none of them is the list that is written to
  have hcell : ∀ c vs, s.get? c = some (.slots vs) → c ≠ l := by
    rintro c vs hc rfl
    rw [hlist] at hc
    cases hc
  have hcounters : ∀ m ∈ ns, m.kind? = some .counter → ∃ a b k, b.integer? = some k ∧
      (s.put l (.list (xs ++ [v]))).get? m.cell = some (.slots [.atom a, .atom b]) := by
    intro m hm hkm
    obtain ⟨a, b, k, hb, hslots⟩ := h.counters m hm hkm
    exact ⟨a, b, k, hb, (hother _ (hcell _ _ hslots)).trans hslots⟩
  have hmemories : ∀ m ∈ ns, m.kind? = some .memory →
      (s.put l (.list (xs ++ [v]))).get? m.cell = s.get? m.cell := by
    intro m hm hkm
    obtain ⟨l', ys, hslots, -⟩ := h.memories m hm hkm
    exact hother _ (hcell _ _ hslots)
  obtain ⟨hprimed, hprogress⟩ := h.transfer hcounters hmemories fun m hm hkm l' hl' => by
    obtain ⟨l'', ys, hslots, hlist'⟩ := h.memories m hm hkm
    rw [Store.slots_of_get? hslots] at hl'
    cases hl'
    by_cases heq : l' = l
    · exact ⟨xs ++ [v], by rw [heq, hnew]⟩
    · exact ⟨ys, (hother _ heq).trans hlist'⟩
  refine ⟨hprimed, hprogress, fun m hm => hother m ?_, rfl, Store.size_put⟩
  rintro rfl
  exact hm ⟨n, hn, .inr ⟨hk, Store.slots_of_get? hget⟩⟩

/-- One visit moves a store on. -/
theorem Primed.advance (h : Primed s ns) (hn : n ∈ ns) (ha : n.NotesVisits) :
    Primed (s.advance ⟨n.cell, v⟩) ns ∧ MovedOn ns s (s.advance ⟨n.cell, v⟩) := by
  rcases ha with hk | hk
  · exact h.advance_counter hn hk
  · exact h.advance_memory hn hk

/-- The cell of a distinct fact is not written to, only its list is. -/
theorem Primed.cell_notMem (h : Primed s ns) (hn : n ∈ ns) (hk : n.kind? = some .memory) :
    n.cell ∉ progress s ns := by
  obtain ⟨l, xs, hget, -⟩ := h.memories n hn hk
  rintro ⟨m, hm, ⟨hk', heq⟩ | ⟨hk', hslots⟩⟩
  · obtain ⟨a, b, k, -, hget'⟩ := h.counters m hm hk'
    rw [← heq, hget] at hget'
    cases hget'
  · obtain ⟨l', ys, hget', hl'⟩ := h.memories m hm hk'
    rw [Store.slots_of_get? hget'] at hslots
    cases hslots
    rw [hget] at hl'
    cases hl'

/-- A visit leaves the counters in other cells alone. -/
theorem Primed.get?_advance_of_ne (h : Primed s ns) {m : Fact} (hn : n ∈ ns) (ha : n.NotesVisits)
    (hm : m ∈ ns) (hk : m.kind? = some .counter) (hne : n.cell ≠ m.cell) :
    (s.advance ⟨n.cell, v⟩).get? m.cell = s.get? m.cell := by
  rcases ha with hkn | hkn
  · obtain ⟨a, b, k, hb, hget⟩ := h.counters n hn hkn
    rw [Store.advance_counter hget hb, Store.get?_put_of_ne hne]
  · obtain ⟨l, xs, hget, hl⟩ := h.memories n hn hkn
    rw [Store.advance_memory hget hl, Store.get?_put_of_ne]
    rintro rfl
    obtain ⟨a, b, k, -, hget'⟩ := h.counters m hm hk
    rw [hl] at hget'
    cases hget'

/-- A visit to a counter makes it expect one integer more. -/
theorem Primed.next?_advance (h : Primed s ns) {m : Fact} (hn : n ∈ ns) (ha : n.NotesVisits)
    (hm : m ∈ ns) (hk : m.kind? = some .counter) {k : Int} (hnext : s.next? m.cell = some k) :
    (s.advance ⟨n.cell, v⟩).next? m.cell = some (if n.cell = m.cell then k + 1 else k) := by
  by_cases heq : n.cell = m.cell
  · obtain ⟨a, b, j, hb, hget⟩ := h.counters m hm hk
    rw [Store.next?_of_get? hget, hb] at hnext
    cases hnext
    rw [if_pos heq, heq, Store.advance_counter hget hb]
    exact Store.next?_of_get? (Store.get?_put_same (Store.lt_size_of_get? hget))
  · rw [if_neg heq, ← hnext, Store.next?, Store.next?,
      Store.slots_of_same (h.get?_advance_of_ne hn ha hm hk heq)]

/-- Whether no other distinct fact among some nodes has the list of this one. -/
def OwnsList (s : Store) (ns : List Fact) (n : Fact) : Prop :=
  ∀ m ∈ ns, m.kind? = some .memory → s.slots m.cell = s.slots n.cell → m.cell = n.cell

/-- A distinct fact keeps its list to itself while others move on. -/
theorem OwnsList.of_moved {m : Fact} (h : OwnsList s ns m) (hs : Primed s ns) (hmoved : MovedOn ns s t)
    (hm : m ∈ ns) (hk : m.kind? = some .memory) : OwnsList t ns m := by
  have hslots : ∀ n ∈ ns, n.kind? = some .memory → t.slots n.cell = s.slots n.cell :=
    fun n hn hk => Store.slots_of_same (hmoved.same _ (hs.cell_notMem hn hk))
  intro n hn hkn heq
  rw [hslots n hn hkn, hslots m hm hk] at heq
  exact h n hn hkn heq

/-- A visit to a distinct fact makes it see one value more. -/
theorem Primed.noted_advance (h : Primed s ns) {m : Fact} (hn : n ∈ ns) (ha : n.NotesVisits)
    (hm : m ∈ ns) (hk : m.kind? = some .memory) (howns : OwnsList s ns m) :
    (s.advance ⟨n.cell, v⟩).noted m.cell = s.noted m.cell ++ if n.cell = m.cell then [v] else [] := by
  obtain ⟨l, xs, hget, hl⟩ := h.memories m hm hk
  have hslots := Store.slots_of_get? hget
  have hcell : (s.advance ⟨n.cell, v⟩).get? m.cell = s.get? m.cell :=
    (h.advance hn ha).2.same _ (h.cell_notMem hm hk)
  by_cases heq : n.cell = m.cell
  · rw [if_pos heq, Store.noted_of_list hslots hl]
    refine Store.noted_of_list (l := l) ((Store.slots_of_same hcell).trans hslots) ?_
    rw [heq, Store.advance_memory hget hl]
    exact Store.get?_put_same (Store.lt_size_of_get? hl)
  · rw [if_neg heq, List.append_nil]
    refine Store.noted_of_same hcell fun l' hl' => ?_
    rw [hslots] at hl'
    cases hl'
    rcases ha with hkn | hkn
    · obtain ⟨a, b, k, hb, hget'⟩ := h.counters n hn hkn
      rw [Store.advance_counter hget' hb, Store.get?_put_of_ne]
      rintro rfl
      rw [hl] at hget'
      cases hget'
    · obtain ⟨l'', ys, hget', hl''⟩ := h.memories n hn hkn
      rw [Store.advance_memory hget' hl'', Store.get?_put_of_ne]
      rintro rfl
      exact heq (howns n hn hkn ((Store.slots_of_get? hget').trans hslots.symm))

/-- Whether all visits are of leaves among some nodes. -/
def VisitsOf (ns : List Fact) (xs : List Visit) : Prop := ∀ x ∈ xs, ∃ n ∈ ns, n.NotesVisits ∧ n.cell = x.cell

/-- Visits move a store on, one after the other. -/
theorem Primed.foldl_advance {xs : List Visit} (h : Primed s ns) (hxs : VisitsOf ns xs) :
    Primed (xs.foldl Store.advance s) ns ∧ MovedOn ns s (xs.foldl Store.advance s) := by
  induction xs generalizing s with
  | nil => exact ⟨h, .refl⟩
  | cons x xs ih =>
    obtain ⟨cell, value⟩ := x
    obtain ⟨n, hn, ha, hcell⟩ := hxs ⟨cell, value⟩ (by simp)
    obtain rfl : n.cell = cell := hcell
    obtain ⟨hprimed, hmoved⟩ := h.advance (v := value) hn ha
    obtain ⟨hprimed', hmoved'⟩ := ih hprimed fun y hy => hxs y (by simp [hy])
    exact ⟨hprimed', hmoved.trans hmoved'⟩

theorem Primed.next?_foldl {xs : List Visit} (h : Primed s ns) (hxs : VisitsOf ns xs) {m : Fact} (hm : m ∈ ns)
    (hk : m.kind? = some .counter) {k : Int} (hnext : s.next? m.cell = some k) :
    (xs.foldl Store.advance s).next? m.cell = some (k + (Visit.valuesAt m.cell xs).length) := by
  induction xs generalizing s k with
  | nil => simpa using hnext
  | cons x xs ih =>
    obtain ⟨cell, value⟩ := x
    obtain ⟨n, hn, ha, hcell⟩ := hxs ⟨cell, value⟩ (by simp)
    obtain rfl : n.cell = cell := hcell
    have hstep := h.next?_advance (v := value) hn ha hm hk hnext
    rw [List.foldl_cons, ih (h.advance hn ha).1 (fun y hy => hxs y (by simp [hy])) hstep]
    rw [Visit.valuesAt_cons, List.length_append, Option.some_inj]
    split
    · rw [List.length_singleton]
      omega
    · rw [List.length_nil]
      omega

theorem Primed.noted_foldl {xs : List Visit} (h : Primed s ns) (hxs : VisitsOf ns xs) {m : Fact} (hm : m ∈ ns)
    (hk : m.kind? = some .memory) (howns : OwnsList s ns m) :
    (xs.foldl Store.advance s).noted m.cell = s.noted m.cell ++ Visit.valuesAt m.cell xs := by
  induction xs generalizing s with
  | nil => simp
  | cons x xs ih =>
    obtain ⟨cell, value⟩ := x
    obtain ⟨n, hn, ha, hcell⟩ := hxs ⟨cell, value⟩ (by simp)
    obtain rfl : n.cell = cell := hcell
    have hstep := h.noted_advance (v := value) hn ha hm hk howns
    obtain ⟨hprimed, hmoved⟩ := h.advance (v := value) hn ha
    rw [List.foldl_cons, ih hprimed (fun y hy => hxs y (by simp [hy])) (howns.of_moved h hmoved hm hk), hstep,
      Visit.valuesAt_cons, List.append_assoc]

theorem Sheltered.foldl_advance {xs : List Visit} (h : Sheltered R ns s) (hxs : VisitsOf ns xs) :
    Sheltered R ns (xs.foldl Store.advance s) ∧ MovedOn ns s (xs.foldl Store.advance s) := by
  obtain ⟨hprimed, hmoved⟩ := h.primed.foldl_advance hxs
  exact ⟨h.of_moved hmoved hprimed, hmoved⟩

/-! ## The effect of a check -/

/-- Whether an action that answers has moved the store on by some visits and done nothing else, in any store that
comes from `s` by moving on. -/
def Notes {α : Type} (R : Set Place) (ns : List Fact) (s : Store) (a : Act α) (xs : List Visit) : Prop :=
  ∀ w u x, Sheltered R ns w.store → MovedOn ns s w.store → exec a w = (.ok x, u) →
    u = { w with store := xs.foldl Store.advance w.store }

section

variable {α β : Type} {a : Act α} {f : α → Act β} {xs ys : List Visit}

theorem notes_quiet (h : a.Quiet) : Notes R ns s a [] := by
  intro w u x _ _ hrun
  exact (h.eq_of_exec hrun).symm

theorem Notes.bind (ha : Notes R ns s a xs) (hxs : VisitsOf ns xs) (hf : ∀ x, Notes R ns s (f x) ys) :
    Notes R ns s (a >>= f) (xs ++ ys) := by
  intro w u y hsheltered hmoved hrun
  obtain ⟨x, w', hx, hy⟩ := exec_bind_ok hrun
  obtain rfl := ha w w' x hsheltered hmoved hx
  obtain ⟨hsheltered', hmoved'⟩ := hsheltered.foldl_advance hxs
  obtain rfl := hf x _ u y hsheltered' (hmoved.trans hmoved') hy
  rw [List.foldl_append]

/-- What is done quietly with an answer adds no visit. -/
theorem Notes.then (ha : Notes R ns s a xs) (hf : ∀ x, (f x).Quiet) : Notes R ns s (a >>= f) xs := by
  intro w u y hsheltered hmoved hrun
  obtain ⟨x, w', hx, hy⟩ := exec_bind_ok hrun
  obtain rfl := ha w w' x hsheltered hmoved hx
  exact ((hf x).eq_of_exec hy).symm

/-- What is read before adds no visit. What is known of the answer may be used. -/
theorem notes_after (ha : a.Quiet)
    (hf : ∀ x w, Sheltered R ns w.store → MovedOn ns s w.store → exec a w = (.ok x, w) → Notes R ns s (f x) ys) :
    Notes R ns s (a >>= f) ys := by
  intro w u y hsheltered hmoved hrun
  obtain ⟨x, w', hx, hy⟩ := exec_bind_ok hrun
  obtain rfl := ha.eq_of_exec hx
  exact hf x w hsheltered hmoved hx w u y hsheltered hmoved hy

end

/-- Taking the next value of a counter is a visit. -/
theorem notes_takeNext {c : Loc} (hn : .counter c ∈ ns) : Notes R ns s (takeNext c) [⟨c, v⟩] := by
  intro w u x hsheltered _ hrun
  obtain ⟨a, b, k, hb, hget⟩ := hsheltered.primed.counters _ hn rfl
  rw [exec_takeNext (c := c) hb hget] at hrun
  cases hrun
  exact congrArg (World.mk · w.source w.log) (Store.advance_counter hget hb).symm

/-- Remembering a value is a visit. -/
theorem notes_remember {c : Loc} {g : Option Generator} {attempts : Int} (hn : .distinct c g attempts ∈ ns) :
    Notes R ns s (remember c v) [⟨c, v⟩] := by
  intro w u x hsheltered _ hrun
  obtain ⟨l, xs, hget, hl⟩ := hsheltered.primed.memories _ hn rfl
  rw [exec_remember (c := c) hget hl] at hrun
  cases hrun
  exact congrArg (World.mk · w.source w.log) (Store.advance_memory hget hl).symm

theorem notes_checkCounter {c : Loc} (hn : .counter c ∈ ns) : Notes R ns s (checkCounter c v) [⟨c, v⟩] := by
  refine (notes_takeNext hn).then fun expected => quiet_equal.bind fun _ => quiet_reportUnless ?_
  refine quiet_ask.bind fun _ => Quiet.bind ?_ fun _ => ?_
  · exact quiet_view.bind fun _ => quiet_written
  · exact quiet_render.bind fun _ => quiet_render.bind fun _ => quiet_pure

theorem notes_checkDistinct {c : Loc} {g : Option Generator} {attempts : Int} (hn : .distinct c g attempts ∈ ns) :
    Notes R ns s (checkDistinct c v) [⟨c, v⟩] := by
  refine notes_after quiet_ask fun _ _ _ _ _ => notes_after quiet_isIn fun repeated _ _ _ _ => ?_
  exact (notes_remember hn).then fun _ => quiet_reportUnless (quiet_render.bind fun _ => quiet_pure)

theorem notes_checkElements {check : Value → Act Report} {visits : Value → List Visit} : ∀ {i : Nat}
    {xs : List Value}, (∀ x ∈ xs, Notes R ns s (check x) (visits x) ∧ VisitsOf ns (visits x)) →
    Notes R ns s (checkElements check i xs) (xs.flatMap visits)
  | _, [], _ => notes_quiet quiet_pure
  | i, x :: xs, h => by
    rw [List.flatMap_cons]
    refine (h x (by simp)).1.bind (h x (by simp)).2 fun _ => ?_
    exact (notes_checkElements fun y hy => h y (by simp [hy])).then fun _ => quiet_pure

theorem visitsOf_visits {f : Fact} (h : ∀ n ∈ f.nodes, n ∈ ns) : VisitsOf ns (f.visits s v) := by
  intro x hx
  obtain ⟨n, hn, ha, hcell⟩ := advances_of_visits hx
  exact ⟨n, h n hn, ha, hcell⟩

mutual

/-- A check that reports moves the store on by its visits, and does nothing else. -/
theorem notes_check (hs : Sheltered R ns s) : ∀ {f : Fact} {v : Value}, f.Formed → (∀ n ∈ f.nodes, n ∈ ns) →
    f.ReadsIn R → v.Within R → Notes R ns s (f.check v) (f.visits s v)
  | .counter c, v, _, hn, _, _ => notes_checkCounter (hn _ (self_mem_nodes _))
  | .distinct c g k, v, _, hn, _, _ => notes_checkDistinct (hn _ (self_mem_nodes _))
  | .all _ fs _ _, v, hf, hn, ha, hv =>
    (notes_checkAll hs hf.2 (fun n h => hn n (.tail _ h)) (fun n h => ha n (.tail _ h)) hv).then
      fun _ => quiet_pure
  | .either _ f g _, v, hf, hn, ha, hv => by
    have hleft : ∀ n ∈ f.nodes, n ∈ ns := fun n h => hn n (.tail _ (List.mem_append_left _ h))
    have hright : ∀ n ∈ g.nodes, n ∈ ns := fun n h => hn n (.tail _ (List.mem_append_right _ h))
    refine (notes_check hs hf.2.1 hleft (fun n h => ha n (.tail _ (List.mem_append_left _ h))) hv).bind
      (visitsOf_visits hleft) fun _ => ?_
    exact (notes_check hs hf.2.2 hright (fun n h => ha n (.tail _ (List.mem_append_right _ h))) hv).then
      fun _ => quiet_pure
  | .negation _ f _ _, v, hf, hn, ha, hv => by
    refine (notes_check hs hf.2 (fun n h => hn n (.tail _ h)) (fun n h => ha n (.tail _ h)) hv).then
      fun _ => quiet_reportUnless ?_
    exact quiet_described.bind fun _ => quiet_render.bind fun _ => quiet_pure
  | .lens _ a f _, v, hf, hn, ha, hv => by
    have hreads := ha _ (self_mem_nodes _) a rfl
    refine notes_after quiet_part? fun o w hsheltered hmoved hpart => ?_
    have hget := (hs.image hmoved).get_same hreads hv
    rcases exec_part? hpart with ⟨x, rfl, hx⟩ | ⟨rfl, e, he, -⟩
    · rw [hget] at hx
      rw [visits, hx]
      refine (notes_check hs hf.2 (fun n h => hn n (.tail _ h)) (fun n h => ha n (.tail _ h)) ?_).then
        fun _ => quiet_pure
      exact hreads.within hs.region.closed hs.owned hv hx
    · rw [hget] at he
      rw [visits, he]
      exact notes_quiet quiet_pure
  | .prism _ a f _, v, hf, hn, ha, hv => by
    have hreads := ha _ (self_mem_nodes _) a rfl
    refine notes_after quiet_part? fun o w hsheltered hmoved hpart => ?_
    have hget := (hs.image hmoved).get_same hreads hv
    rcases exec_part? hpart with ⟨x, rfl, hx⟩ | ⟨rfl, e, he, -⟩
    · rw [hget] at hx
      rw [visits, hx]
      show Notes R ns s (if x.isAbsent then _ else _) (if x.isAbsent then _ else _)
      split
      · exact notes_quiet quiet_pure
      · refine (notes_check hs hf.2 (fun n h => hn n (.tail _ h)) (fun n h => ha n (.tail _ h)) ?_).then
          fun _ => quiet_pure
        exact hreads.within hs.region.closed hs.owned hv hx
    · rw [hget] at he
      rw [visits, he]
      exact notes_quiet quiet_pure
  | .each _ f _, v, hf, hn, ha, hv => by
    refine notes_after quiet_elements fun xs w hsheltered hmoved hxs => ?_
    have helements := exec_elements hxs
    rw [(hs.image hmoved).elements?_same hv] at helements
    rw [visits, helements]
    have hwithin := Store.elements?_within hs.region.closed hv helements
    refine Notes.then (notes_checkElements fun x hx => ⟨?_, visitsOf_visits fun n h => hn n (.tail _ h)⟩)
      fun _ => quiet_pure
    exact notes_check hs hf.2 (fun n h => hn n (.tail _ h)) (fun n h => ha n (.tail _ h)) (hwithin x hx)
  | .choice _ (some f) _, v, hf, hn, ha, hv =>
    notes_after quiet_checkCandidates fun _ _ _ _ _ =>
      (notes_check hs hf.2 (fun n h => hn n (.tail _ h)) (fun n h => ha n (.tail _ h)) hv).then
        fun _ => quiet_pure
  | .labeled _ _ f _, v, hf, hn, ha, hv =>
    (notes_check hs hf.2 (fun n h => hn n (.tail _ h)) (fun n h => ha n (.tail _ h)) hv).then
      fun _ => quiet_pure
  | .always c, v, hf, _, _, _ => notes_quiet (quiet_check hf rfl v)
  | .never c m, v, hf, _, _, _ => notes_quiet (quiet_check hf rfl v)
  | .equality c b g k, v, hf, _, _, _ => notes_quiet (quiet_check hf rfl v)
  | .membership c, v, hf, _, _, _ => notes_quiet (quiet_check hf rfl v)
  | .range c b, v, hf, _, _, _ => notes_quiet (quiet_check hf rfl v)
  | .pair c b g k, v, hf, _, _, _ => notes_quiet (quiet_check hf rfl v)
  | .length c k g, v, hf, _, _, _ => notes_quiet (quiet_check hf rfl v)
  | .mapped c name tests fs f, v, hf, _, _, _ => notes_quiet (quiet_check hf rfl v)
  | .predicate c name test, v, hf, _, _, _ => notes_quiet (quiet_check hf rfl v)
  | .brute c name test g k, v, hf, _, _, _ => notes_quiet (quiet_check hf rfl v)
  | .choice c none b, v, _, _, _, _ => notes_quiet quiet_checkCandidates
  | .foreign c kind, v, hf, _, _, _ => hf.elim

theorem notes_checkAll (hs : Sheltered R ns s) : ∀ {fs : List Fact} {i : Nat} {v : Value}, FormedAll fs →
    (∀ n ∈ nodesAll fs, n ∈ ns) → (∀ n ∈ nodesAll fs, ∀ a ∈ n.accessor?, a.ReadsIn R) → v.Within R →
    Notes R ns s (checkAll fs i v) (visitsAll s fs v)
  | [], _, _, _, _, _, _ => notes_quiet quiet_pure
  | f :: fs, i, v, hf, hn, ha, hv => by
    have hhead : ∀ n ∈ f.nodes, n ∈ ns := fun n h => hn n (List.mem_append_left _ h)
    refine (notes_check hs hf.1 hhead (fun n h => ha n (List.mem_append_left _ h)) hv).bind
      (visitsOf_visits hhead) fun _ => ?_
    exact (notes_checkAll hs hf.2 (fun n h => hn n (List.mem_append_right _ h))
      (fun n h => ha n (List.mem_append_right _ h)) hv).then fun _ => quiet_pure

end

/-! ## Checks that report -/

/-- Whether a value is the key by which a fact reads an item. -/
def HasKey (f : Fact) (x : Value) : Prop := ∃ n ∈ f.nodes, ∃ shown, n.accessor? = some (.item shown x)

/-- Whether a fact refers to a value: it is in the cell of a node that does not advance, or a key. -/
def RefersTo (s : Store) (f : Fact) (x : Value) : Prop :=
  (∃ n ∈ f.everyNode, ¬ n.NotesVisits ∧ x ∈ s.slots n.cell) ∨ f.HasKey x

/-- Whether a fact and a value are as they are made: references lead somewhere, the cells of leaves that advance
hold what they should, accessors from outside read within the value only, and what the fact notes is no part of
the value or of what the fact refers to. -/
structure Given (s : Store) (f : Fact) (v : Value) : Prop where
  formed : f.Formed
  whole : s.Whole
  primed : Primed s f.nodes
  accessors : f.ReadsIn Set.univ
  bounded : ∀ x, x = v ∨ f.RefersTo s x → x.bound ≤ s.size
  apart : ∀ x, x = v ∨ f.RefersTo s x → ∀ l ∈ progress s f.nodes, ¬ s.Reaches x (.object l)

end Fact

namespace Store

/-- The places that some values lead to. -/
def reach (s : Store) (P : Value → Prop) : Set Place := {p | ∃ x, P x ∧ s.Reaches x p}

variable {s : Store} {P : Value → Prop}

theorem region_reach (hs : s.Whole) (hP : ∀ x, P x → x.bound ≤ s.size) : s.Region (s.reach P) where
  closed := fun p ⟨x, hx, hp⟩ q hq => ⟨x, hx, .kept hp hq⟩
  bounded := by
    rintro l ⟨x, hx, hl⟩
    exact hs.closed.of_reaches (Value.within_upTo.mpr (hP x hx)) hl l rfl

theorem within_reach {x : Value} (hx : P x) : x.Within (s.reach P) := fun _ hp => ⟨x, hx, .named hp⟩

end Store

namespace Fact

variable {s t : Store} {f : Fact} {v : Value} {P : Value → Prop}

/-- A fact reads within what its keys lead to, besides the value. -/
theorem ReadsIn.reach (ha : f.ReadsIn Set.univ) (hP : ∀ x, f.HasKey x → P x) : f.ReadsIn (s.reach P) := by
  intro n hn a hna
  have huniv := ha n hn a hna
  cases a with
  | item shown key => exact Store.within_reach (hP key ⟨n, hn, shown, hna⟩)
  | custom m get set => exact huniv
  | _ => trivial

theorem Given.sheltered (h : f.Given s v) : Sheltered (s.reach fun x => x = v ∨ f.RefersTo s x) f.nodes s where
  region := Store.region_reach h.whole h.bounded
  owned := h.whole.owned
  primed := h.primed
  apart := fun l hl ⟨x, hx, hreaches⟩ => h.apart x hx l hl hreaches

/-- The visits are the same in every store in which the value and the keys lead to the same objects. -/
theorem Given.visits_eq (h : f.Given s v)
    (hsame : ∀ x, x = v ∨ f.HasKey x → ∀ l, s.Reaches x (.object l) → t.get? l = s.get? l)
    (hgiven : t.given = s.given) : f.visits t v = f.visits s v := by
  have hregion : s.Region (s.reach fun x => x = v ∨ f.HasKey x) :=
    Store.region_reach h.whole fun x hx => h.bounded x (hx.imp id .inr)
  have himage := Store.Image.of_same hregion h.whole.owned (fun l ⟨x, hx, hl⟩ => hsame x hx l hl) hgiven
  have hreads : f.ReadsIn (s.reach fun x => x = v ∨ f.HasKey x) := h.accessors.reach fun _ hx => .inr hx
  exact visits_same himage hreads (Store.within_reach (.inl rfl))

/-- Checking has no effect but the advance of the leaves that advance. The world after a check that reports is the
one before it, moved on by the visits; nothing that the value or the fact refers to has changed; a stateless fact
changes nothing and reports the same again; a counter has grown by the number of its visits and a list of values
seen by the values visited, in their order; and the visits depend on nothing but what the value leads to. -/
theorem check_effect {r : Report} {w u : World} (h : f.Given w.store v)
    (hrun : exec (f.check v) w = (.ok r, u)) :
    u = { w with store := (f.visits w.store v).foldl Store.advance w.store } ∧
    (∀ x, x = v ∨ f.RefersTo w.store x → u.store.view x = w.store.view x ∧
      ∀ l, w.store.Reaches x (.object l) → u.store.get? l = w.store.get? l) ∧
    u.store.given = w.store.given ∧
    (f.stateful = false → u = w ∧ exec (f.check v) u = (.ok r, u)) ∧
    (∀ n ∈ f.nodes, n.kind? = some .counter → ∃ k, w.store.next? n.cell = some k ∧
      u.store.next? n.cell = some (k + (Visit.valuesAt n.cell (f.visits w.store v)).length)) ∧
    (∀ n ∈ f.nodes, n.kind? = some .memory → OwnsList w.store f.nodes n →
      u.store.noted n.cell = w.store.noted n.cell ++ Visit.valuesAt n.cell (f.visits w.store v)) ∧
    ∀ t : Store, t.given = w.store.given →
      (∀ x, x = v ∨ f.HasKey x → ∀ l, w.store.Reaches x (.object l) → t.get? l = w.store.get? l) →
      f.visits t v = f.visits w.store v := by
  have hreads : f.ReadsIn (w.store.reach fun x => x = v ∨ f.RefersTo w.store x) :=
    h.accessors.reach fun _ hx => .inr (.inr hx)
  have hvisits : VisitsOf f.nodes (f.visits w.store v) := visitsOf_visits fun _ hn => hn
  obtain rfl := notes_check h.sheltered h.formed (fun _ hn => hn) hreads (Store.within_reach (.inl rfl)) w u r
    h.sheltered .refl hrun
  have hmoved := (h.primed.foldl_advance hvisits).2
  refine ⟨rfl, fun x hx => ⟨?_, fun l hl => ?_⟩, hmoved.given, fun hs => ?_, fun n hn hk => ?_,
    fun n hn hk howns => h.primed.noted_foldl hvisits hn hk howns, fun t hgiven hsame => h.visits_eq hsame hgiven⟩
  · have hview := (h.sheltered.image hmoved).view_eq (Store.within_reach hx).refers
    rwa [Value.move_id] at hview
  · exact hmoved.same l fun hmem => h.apart x hx l hmem hl
  · -- a stateless fact does not look into the world that it leaves, since it leaves the one that it finds
    have hquiet := quiet_check h.formed hs v
    have hsame := hquiet.eq_of_exec hrun
    rw [← hsame] at hrun ⊢
    exact ⟨rfl, hrun⟩
  · obtain ⟨a, b, k, hb, hget⟩ := h.primed.counters n hn hk
    have hnext : w.store.next? n.cell = some k := (Store.next?_of_get? hget).trans hb
    exact ⟨k, hnext, h.primed.next?_foldl hvisits hn hk hnext⟩

/-- A counter beside a fact that always fails, and a fact that no element of a list occurs twice. -/
def steppingFact : Fact :=
  .all 1 [.either 2 (.never 3 "no") (.counter 4) true, .each 5 (.distinct 6 none 100) true] 10 true

/-- A list with one number twice, the cells of `steppingFact`, and the list of the values that it has seen. -/
def steppingWorld : World where
  store := ⟨#[.list [.int 5, .int 5], .slots [], .slots [], .slots [], .slots [.int 3, .int 3], .slots [],
    .slots [.ref 7], .list []], spelledMarks, []⟩
  source := .tape [0] 0
  log := #[]

theorem given_stepping : steppingFact.Given steppingWorld.store (.ref 0) := by
  have hnodes : ∀ n ∈ steppingFact.nodes, n = steppingFact ∨ n = .either 2 (.never 3 "no") (.counter 4) true ∨
      n = .never 3 "no" ∨ n = .counter 4 ∨ n = .each 5 (.distinct 6 none 100) true ∨
      n = .distinct 6 none 100 := by
    simp [steppingFact, nodes, nodesAll]
  have hregion : steppingWorld.store.Region {.object 0} := Store.region_list rfl (by decide)
  -- nothing is referred to, since no node but those that advance has anything in its cell
  have hrefers : ∀ x, x = .ref 0 ∨ steppingFact.RefersTo steppingWorld.store x → x = .ref 0 := by
    rintro x (rfl | ⟨n, hn, hadvances, hx⟩ | ⟨n, hn, shown, hkey⟩)
    · rfl
    · rw [everyNode, show steppingFact.chosen = [] from rfl, List.append_nil] at hn
      rcases hnodes n hn with rfl | rfl | rfl | rfl | rfl | rfl
      · cases hx
      · cases hx
      · cases hx
      · exact absurd (.inl rfl) hadvances
      · cases hx
      · exact absurd (.inr rfl) hadvances
    · rcases hnodes n hn with rfl | rfl | rfl | rfl | rfl | rfl <;> cases hkey
  refine ⟨⟨rfl, ⟨rfl, trivial, trivial⟩, ⟨rfl, trivial⟩, trivial⟩, .of_bound ?_ rfl, ⟨?_, ?_⟩, ?_, ?_, ?_⟩
  · intro o ho
    simp only [steppingWorld, List.mem_toArray, List.mem_cons, List.not_mem_nil, or_false] at ho
    rcases ho with rfl | rfl | rfl | rfl | rfl | rfl | rfl | rfl <;> decide
  · intro n hn hk
    rcases hnodes n hn with rfl | rfl | rfl | rfl | rfl | rfl <;> cases hk
    exact ⟨.int 3, .int 3, 3, rfl, rfl⟩
  · intro n hn hk
    rcases hnodes n hn with rfl | rfl | rfl | rfl | rfl | rfl <;> cases hk
    exact ⟨7, [], rfl, rfl⟩
  · intro n hn a ha
    rcases hnodes n hn with rfl | rfl | rfl | rfl | rfl | rfl <;> cases ha
  · intro x hx
    rw [hrefers x hx]
    decide
  · intro x hx l hl hreaches
    rw [hrefers x hx] at hreaches
    cases hregion.closed.of_reaches (Value.within_ref.mpr rfl) hreaches
    obtain ⟨n, hn, ⟨hk, heq⟩ | ⟨hk, hslots⟩⟩ := hl
    · rcases hnodes n hn with rfl | rfl | rfl | rfl | rfl | rfl <;> cases hk
      cases heq
    · rcases hnodes n hn with rfl | rfl | rfl | rfl | rfl | rfl <;> cases hk
      cases hslots

/-- The counter moves on by one although the fact beside it fails too, and both numbers are noted although the
second one is reported. -/
theorem check_effect_stepping : ∃ r u, exec (steppingFact.check (.ref 0)) steppingWorld = (.ok r, u) ∧
    r.ok = false ∧ u.store.next? 4 = some 4 ∧ u.store.noted 6 = [.int 5, .int 5] := by
  have hends : ((exec (steppingFact.check (.ref 0)) steppingWorld).1.map Report.ok).toOption = some false := by
    decide +kernel
  rcases hrun : exec (steppingFact.check (.ref 0)) steppingWorld with ⟨e | r, u⟩
  · rw [hrun] at hends
    cases hends
  · rw [hrun] at hends
    obtain ⟨-, -, -, -, hcounters, hmemories, -⟩ := check_effect given_stepping hrun
    obtain ⟨k, hk, hnext⟩ := hcounters (.counter 4) (by simp [steppingFact, nodes, nodesAll]) rfl
    cases hk
    have howns : OwnsList steppingWorld.store steppingFact.nodes (.distinct 6 none 100) := by
      intro m hm hk _
      simp only [steppingFact, nodes, nodesAll, List.append_nil, List.cons_append, List.nil_append,
        List.mem_cons, List.not_mem_nil, or_false] at hm
      rcases hm with rfl | rfl | rfl | rfl | rfl | rfl <;> cases hk
      rfl
    have hnoted := hmemories (.distinct 6 none 100) (by simp [steppingFact, nodes, nodesAll]) rfl howns
    exact ⟨r, u, rfl, Option.some.inj hends, hnext, hnoted⟩

end Fact

end Conform
