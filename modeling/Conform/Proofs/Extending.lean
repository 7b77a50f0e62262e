import Conform.Proofs.Refilling
import Conform.Proofs.Shaping

/-!
# Extending sequences

A fact for the number of elements cuts a sequence that is too long and draws new elements for one that is too short,
each of the shape of the first element. The main result, `Fact.mutate_length_extends`, tells what comes of a sequence
whose elements are templates: new elements are to be had unless the first element is missing or the empty value, and
they fit into every class but that of byte strings, whose elements are shorter integers than those that are drawn.
-/

namespace Conform

open Act Draw

namespace Store

variable {s t : Store} {v x : Value} {xs items : List Value}

theorem Sequence.grow (h : s.Sequence v xs) (ht : s.Grows t) : t.Sequence v xs := by
  cases h with
  | list h => exact .list (ht _ _ h)
  | tuple => exact .tuple
  | text => exact .text
  | bytes => exact .bytes

/-- What items have been put into has them for elements; a byte string has, if they are integers. -/
theorem Rebuilt.sequence (h : s.Rebuilt v items x t)
    (hbytes : ∀ bs, v = .atom (.bytes bs) → ∀ y ∈ items, ∃ k, y = .int k) : t.Sequence x items := by
  cases h with
  | list h => exact .list (get?_put_same (lt_size_of_get? h))
  | tuple => exact .tuple
  | named => exact .tuple
  | text h =>
    rename_i cs
    have hitems : items = characters (String.ofList cs) := by
      rw [forall₂_isCharacter.mp h, characters, String.toList_ofList]
    rw [hitems]
    exact .text
  | @bytes old new items h =>
    have hitems : items = byteValues new := by
      have hints := hbytes old rfl
      clear hbytes
      induction h with
      | nil => rfl
      | @cons y b ys bs hyb _ ih =>
        obtain ⟨⟨k, rfl⟩, hys⟩ := List.forall_mem_cons.mp hints
        obtain ⟨a, ha, hk⟩ := hyb
        cases ha
        cases hk
        rw [ih hys]
        rfl
    rw [hitems]
    exact .bytes

end Store

namespace Fact

variable {fact : Fact} {s : Store} {deep : Prop} {c : Loc} {n : Int} {v x : Value} {xs items : List Value} {w : World}

/-- A value like a template is drawn, and the fact does not give up. -/
theorem provides_drawLike (hx : s.Generable deep deepest x) (hw : w.Ready s) :
    (fact.drawLike x).Provides s deep (NewLike s · x) w := by
  have hdraw := provides_arbitrary hx hw
  refine .of_exec ?_ hdraw
  rw [drawLike, exec_tryCatch]
  rcases hrun : exec (arbitrary x) w with ⟨r, u⟩
  rcases hdraw.outcome with ⟨y, hy, -⟩ | ⟨-, he⟩
  · rw [hrun] at hy
    cases hy
    rfl
  · rw [hrun] at he
    cases he
    rfl

/-- Nothing comes after giving up. -/
theorem exec_giveUp_bind {α β : Type} {reason : String} {k : α → Act β} :
    exec ((fact.giveUp reason none : Act α) >>= k) w = exec (fact.giveUp reason none : Act β) w := by
  rw [giveUp, giveUp, exec_bind, exec_bind, exec_bind]
  rcases exec fact.described w with ⟨e | d, u⟩ <;> rfl

section

variable (hc : w.store.get? c = some (.slots [.null]))

include hc

theorem exec_like : exec (Act.ask (·.slot c 0)) w = (.ok .null, w) := by
  simp [Store.slot, Store.slots, hc]

/-- A text is extended by its own characters. -/
theorem exec_drawElement_text (own : String) :
    exec ((Fact.length c n none).drawElement c none (.text own)) w =
      exec (if own = "" then
          (Fact.length c n none).giveUp "cannot extend an empty str without `like` or `generate`" none
        else choose (Store.characters own)) w := by
  rw [drawElement, exec_bind, exec_like hc]
  show exec (do
    if own = "" then (Fact.length c n none).giveUp "cannot extend an empty str without `like` or `generate`" none
    choose (Store.characters own)) w = _
  split
  · exact exec_giveUp_bind
  · rfl

/-- Any other sequence is extended by values like its first element. -/
theorem exec_drawElement_other (hv : w.store.Sequence v xs) (htext : ¬ ∃ own, v = .text own) :
    exec ((Fact.length c n none).drawElement c none v) w =
      exec (if (xs.head?.getD .null).isNull then
          (Fact.length c n none).giveUp "cannot extend an empty sequence without `like` or `generate`" none
        else (Fact.length c n none).drawLike (xs.head?.getD .null)) w := by
  rw [drawElement, exec_bind, exec_like hc]
  dsimp only
  split
  · next own => exact absurd ⟨own, rfl⟩ htext
  · rw [exec_after (exec_elements_sequence hv)]
    have hchosen : Value.null.isNull = true := rfl
    rw [if_pos hchosen]
    split
    · exact exec_giveUp_bind
    · rfl

/-- Without a first element, or with the empty value for one, the fact gives up. -/
theorem exec_drawElement_null {d : String} (hv : w.store.Sequence v xs) (hhead : xs.head?.getD .null = .null)
    (hd : exec (Fact.length c n none).described w = (.ok d, w)) :
    ∃ reason, exec ((Fact.length c n none).drawElement c none v) w = (.error (.exhausted d reason none), w) := by
  have hgive : ∀ reason : String, exec ((Fact.length c n none).giveUp reason none : Act Value) w =
      (.error (.exhausted d reason none), w) := by
    intro reason
    rw [giveUp, exec_bind, hd]
    rfl
  by_cases htext : ∃ own, v = .text own
  · obtain ⟨own, rfl⟩ := htext
    have hown : own = "" := by
      cases hv
      cases hchars : own.toList with
      | nil => exact String.toList_eq_nil_iff.mp hchars
      | cons a as =>
        rw [Store.characters, hchars] at hhead
        cases hhead
    exact ⟨_, by rw [exec_drawElement_text hc, if_pos hown, hgive]⟩
  · have hnull : (xs.head?.getD .null).isNull = true := by
      rw [hhead]
      rfl
    exact ⟨_, by rw [exec_drawElement_other hc hv htext, if_pos hnull, hgive]⟩

end

/-- Whether a value is a new element for a sequence with the given first element: it has the shape of that one, and for
a text it is one of the characters. -/
def NewElement (s : Store) (v : Value) (xs : List Value) (x : Value) (t : Store) (y : Value) : Prop :=
  NewLike s t x y ∧ ((∃ own, v = .text own) → y ∈ xs)

/-- New elements are to be had for a sequence whose first element is a template. -/
theorem provides_drawElement (hc : s.get? c = some (.slots [.null])) (hv : s.Sequence v xs) (hhead : xs.head? = some x)
    (hx : x ≠ .null) (hgen : s.Generable deep deepest x) (hw : w.Ready s) :
    ((Fact.length c n none).drawElement c none v).Provides s deep (NewElement s v xs x) w := by
  have hcell := hw.added.grows c _ hc
  by_cases htext : ∃ own, v = .text own
  · obtain ⟨own, rfl⟩ := htext
    cases hv
    have hown : own ≠ "" := by
      rintro rfl
      cases hhead
    refine .of_exec (exec_drawElement_text hcell own) ?_
    rw [if_neg hown]
    have hcharacters : Store.characters own ≠ [] := by simpa [Store.characters] using hown
    refine (provides_choose hcharacters hw).mono fun t y _ hy => ⟨?_, fun _ => hy⟩
    obtain ⟨a, -, rfl⟩ := List.mem_map.mp hy
    obtain ⟨b, -, rfl⟩ := List.mem_map.mp (List.mem_of_mem_head? hhead)
    exact ⟨Store.added_atom, .text⟩
  · have hnull : ¬ (xs.head?.getD .null).isNull = true := by
      rw [hhead, Option.getD_some]
      intro hnull
      cases x with
      | atom a =>
        cases a with
        | null => exact hx rfl
        | _ => cases hnull
      | _ => cases hnull
    refine .of_exec (exec_drawElement_other hcell (hv.grow hw.added.grows) htext) ?_
    rw [if_neg hnull, hhead]
    exact (provides_drawLike hgen hw).mono fun t y _ hy => ⟨hy, fun h => absurd h htext⟩

/-- The elements that are missing are to be had, if any are. -/
theorem provides_missing {n : Nat} (hc : s.get? c = some (.slots [.null])) (hv : s.Sequence v xs)
    (hhead : n ≤ xs.length ∨ xs.head?.getD .null ≠ .null) (hgen : ∀ x ∈ xs.head?, s.Generable deep deepest x)
    (hw : w.Ready s) :
    ((List.replicate (n - xs.length) ()).mapM fun _ => (Fact.length c n none).drawElement c none v).Provides s deep
      (fun t ys => ys.length = n - xs.length ∧ ∀ y ∈ ys, ∃ x ∈ xs.head?, NewElement s v xs x t y) w := by
  -- where an element is missing, there is a first one to draw by
  have hone : ∀ u : World, u.Ready s → xs.length < n →
      ((Fact.length c n none).drawElement c none v).Provides s deep
        (fun t y => ∃ x ∈ xs.head?, NewElement s v xs x t y) u := by
    intro u hu hlong
    have hx := hhead.resolve_left (Nat.not_le.mpr hlong)
    cases hfirst : xs.head? with
    | none =>
      rw [hfirst] at hx
      exact absurd rfl hx
    | some x =>
      rw [hfirst] at hx
      exact (provides_drawElement hc hv hfirst hx (hgen x hfirst) hu).mono fun t y _ hy => ⟨x, rfl, hy⟩
  have hall : ((List.replicate (n - xs.length) ()).mapM fun _ =>
      (Fact.length c n none).drawElement c none v).Provides s deep (fun t =>
        List.Forall₂ (fun _ y => ∃ x ∈ xs.head?, NewElement s v xs x t y) (List.replicate (n - xs.length) ())) w := by
    refine provides_mapM (R := fun t _ y => ∃ x ∈ xs.head?, NewElement s v xs x t y) ?_ hw fun x hx u hu _ => ?_
    · rintro t u - y ht ⟨x, hx, hnew, hcharacter⟩
      exact ⟨x, hx, hnew.grow ht, hcharacter⟩
    · have hlong := List.length_pos_of_mem hx
      rw [List.length_replicate] at hlong
      exact hone u hu (by omega)
  refine hall.mono fun t ys _ hys => ⟨?_, fun y hy => ?_⟩
  · rw [← hys.length_eq, List.length_replicate]
  · obtain ⟨-, -, hnew⟩ := exists_of_forall₂_right hys y hy
    exact hnew

/-! ## Mutating a sequence -/

/-- What the elements of a sequence are cut or extended to: the first of them, up to the number asked for, and new ones
of the shape of the first one for those that are missing. -/
structure Resized (s t : Store) (xs : List Value) (n : Nat) (items : List Value) : Prop where
  added : s.Supplemented t
  length : items.length = n
  first : xs.take n <+: items
  shaped : ∀ y ∈ items.drop xs.length, ∃ x ∈ xs.head?, s.Added y ∧ t.Shaped x y

variable {u : World} {n : Nat}

section

variable {t : Store} {ys : List Value} (hv : s.Sequence v xs)
  (hnew : ∀ y ∈ ys, ∃ x ∈ xs.head?, NewElement s v xs x t y)

include hv hnew

/-- New elements can be put into every sequence but a byte string. -/
theorem admits_of_new (hplain : ∀ cls zs, v ≠ .tuple (some cls) zs) (hcase : ys = [] ∨ ∀ bs, v ≠ .atom (.bytes bs)) :
    v.Admits (xs.take n ++ ys) := by
  cases hv with
  | list => trivial
  | @tuple cls =>
    cases cls with
    | none => trivial
    | some cls => exact absurd rfl (hplain cls xs)
  | @text own =>
    intro y hy
    have hmem : y ∈ Store.characters own := by
      rcases List.mem_append.mp hy with hy | hy
      · exact List.mem_of_mem_take hy
      · obtain ⟨x, -, -, hcharacter⟩ := hnew y hy
        exact hcharacter ⟨own, rfl⟩
    obtain ⟨a, -, rfl⟩ := List.mem_map.mp hmem
    exact ⟨a, rfl⟩
  | @bytes bs =>
    rw [hcase.resolve_right fun h => h bs rfl, List.append_nil]
    intro y hy
    obtain ⟨b, -, rfl⟩ := List.mem_map.mp (List.mem_of_mem_take hy)
    exact ⟨b, _, rfl, rfl⟩

/-- The elements of a byte string are integers, and new ones are, too. -/
theorem integers_of_new {bs : List UInt8} (hbytes : v = .atom (.bytes bs)) :
    ∀ y ∈ xs.take n ++ ys, ∃ k, y = .int k := by
  subst hbytes
  cases hv
  have hold : ∀ x ∈ Store.byteValues bs, ∃ k, x = .int k := by
    intro x hx
    obtain ⟨b, -, rfl⟩ := List.mem_map.mp hx
    exact ⟨_, rfl⟩
  intro y hy
  rcases List.mem_append.mp hy with hy | hy
  · exact hold y (List.mem_of_mem_take hy)
  · obtain ⟨x, hx, ⟨-, hshaped⟩, -⟩ := hnew y hy
    obtain ⟨k, rfl⟩ := hold x (List.mem_of_mem_head? hx)
    cases hshaped with
    | int => exact ⟨_, rfl⟩
    | float ha => cases ha

end

/-- The items that a fact for the number of elements computes for a sequence that has enough elements, or whose first
element is a template: they can be put into every class, but for new elements of a byte string, unless a template has
more levels than are followed. -/
theorem exists_resized (hvaries : w.source.isFixed = false) (hc : w.store.get? c = some (.slots [.null]))
    (hv : w.store.Sequence v xs) (hplain : ∀ cls ys, v ≠ .tuple (some cls) ys)
    (hgen : ∀ x ∈ xs.head?, w.store.Generable deep deepest x) (hhead : n ≤ xs.length ∨ xs.head?.getD .null ≠ .null) :
    ∃ r u, Computes v xs w (.length c n none) r u ∧
      ((deep ∧ r = .error (.misuse .bottomless)) ∨ ∃ items, r = .ok items ∧ Resized w.store u.store xs n items ∧
        (n ≤ xs.length ∨ (∀ bs, v ≠ .atom (.bytes bs)) → v.Admits items) ∧
        ((∃ bs, v = .atom (.bytes bs)) → ∀ y ∈ items, ∃ k, y = .int k)) := by
  have hready : w.Ready w.store := ⟨.refl _, hvaries⟩
  obtain ⟨r, u, horder⟩ := exists_inOrder (fun _ => (Fact.length c n none).drawElement c none v)
    (List.replicate ((n : Int).toNat - xs.length) ()) w
  have hcomputes : Computes v xs w (.length c n none) _ u := .length horder
  have hexec := horder.exec_mapM
  simp only [Int.toNat_natCast] at hcomputes hexec
  refine ⟨_, _, hcomputes, ?_⟩
  obtain ⟨⟨hadded, -⟩, -, houtcome⟩ := provides_missing hc hv hhead hgen hready
  rw [hexec] at hadded houtcome
  rcases houtcome with ⟨ys, hys, hlength, hnew⟩ | ⟨hdeep, he⟩
  · have hr : r = .ok ys := by
      cases r with
      | error p => cases hys
      | ok zs =>
        cases hys
        rfl
    rw [hr]
    refine .inr ⟨xs.take n ++ ys, rfl, ⟨hadded, ?_, List.prefix_append _ _, ?_⟩, ?_, ?_⟩
    · rw [List.length_append, List.length_take, hlength]
      omega
    · intro y hy
      -- what comes after the old elements are the ones that were drawn
      have hmem : y ∈ ys := by
        rw [List.drop_append, List.drop_of_length_le (List.length_take_le' n xs), List.nil_append] at hy
        exact List.mem_of_mem_drop hy
      obtain ⟨x, hx, hlike, -⟩ := hnew y hmem
      exact ⟨x, hx, hlike⟩
    · refine fun hcase => admits_of_new hv hnew hplain (hcase.imp_left fun hle => ?_)
      exact List.length_eq_zero_iff.mp (hlength.trans (Nat.sub_eq_zero_of_le hle))
    · rintro ⟨bs, hbytes⟩
      exact integers_of_new hv hnew hbytes
  · refine .inl ⟨hdeep, ?_⟩
    cases r with
    | error p =>
      have hp : p.2 = .misuse .bottomless := Except.error.inj he
      simp only [Except.mapError, Except.map, hp]
    | ok zs => cases he

/-- A sequence of templates is cut or extended to a number of elements: the answer is of the same class, has exactly
that many elements, and begins with those that were there, whatever is drawn. Byte strings are an exception where
they are extended, and so is the empty value as a first element, which counts as none. -/
theorem mutate_length_extends (hvaries : w.source.isFixed = false) (hc : w.store.get? c = some (.slots [.null]))
    (hv : w.store.Sequence v xs) (hplain : ∀ cls ys, v ≠ .tuple (some cls) ys)
    (hgen : ∀ x ∈ xs.head?, w.store.Generable deep deepest x) :
    (n ≤ xs.length ∨ (xs.head?.getD .null ≠ .null ∧ ∀ bs, v ≠ .atom (.bytes bs)) →
      (∃ items x t, ∃ u : World, exec ((Fact.length c n none).mutate v) w = (.ok x, { u with store := t }) ∧
        Resized w.store u.store xs n items ∧ u.store.Rebuilt v items x t ∧ t.Sequence x items) ∨
      (deep ∧ (exec ((Fact.length c n none).mutate v) w).1 = .error (.misuse .bottomless))) ∧
    (xs.length < n → xs.head?.getD .null = .null → ∀ d, exec (Fact.length c n none).described w = (.ok d, w) →
      ∃ reason, exec ((Fact.length c n none).mutate v) w = (.error (.exhausted d reason none), w)) := by
  refine ⟨fun hcase => ?_, fun hlong hhead d hd => ?_⟩
  · obtain ⟨r, u, hcomputes, houtcome⟩ := exists_resized hvaries hc hv hplain hgen (hcase.imp_right And.left)
    obtain ⟨herror, hok⟩ := hcomputes.exec_mutate hv
    rcases houtcome with ⟨hdeep, hr⟩ | ⟨items, hr, hresized, hadmits, hints⟩
    · rw [herror _ hr]
      exact .inr ⟨hdeep, rfl⟩
    · have hu := hv.grow hresized.added.grows
      obtain ⟨x, t, hrun, hrebuilt⟩ :=
        exec_rebuild_of_admits (.length c n none) hu (hadmits (hcase.imp_right And.right))
      refine .inl ⟨items, x, t, u, by rw [hok items hr, hrun], hresized, hrebuilt, hrebuilt.sequence ?_⟩
      rintro bs rfl
      exact hints ⟨bs, rfl⟩
  · obtain ⟨k, hk⟩ := Nat.exists_eq_succ_of_ne_zero (Nat.sub_ne_zero_of_lt hlong)
    obtain ⟨reason, hdraw⟩ := exec_drawElement_null hc hv hhead hd
    have horder : InOrder (fun _ => (Fact.length c n none).drawElement c none v)
        (List.replicate ((n : Int).toNat - xs.length) ()) w (.error (0, .exhausted d reason none)) w := by
      rw [Int.toNat_natCast, hk, List.replicate_succ]
      exact .here hdraw
    have hcomputes : Computes v xs w (.length c n none) _ w := .length horder
    exact ⟨reason, (hcomputes.exec_mutate hv).1 _ rfl⟩

/-- A list with a pair, and the cell of a fact for the number of elements. -/
def pairsWorld : World where
  store := ⟨#[.list [.tuple none [.text "a", .int 1]], .slots [.null]], spelledMarks, []⟩
  source := .tape [2] 0
  log := #[]

/-- Two more pairs are drawn, and the first one stays; and nothing is drawn for the empty value. -/
theorem mutate_length_extends_pairs :
    (∃ items x t, ∃ u : World,
      exec ((Fact.length 1 (3 : Nat) none).mutate (.ref 0)) pairsWorld = (.ok x, { u with store := t }) ∧
      Resized pairsWorld.store u.store [.tuple none [.text "a", .int 1]] 3 items ∧
      u.store.Rebuilt (.ref 0) items x t ∧ t.Sequence x items) ∧
    ∃ reason, exec ((Fact.length 1 (3 : Nat) none).mutate (.tuple none [.null])) pairsWorld =
      (.error (.exhausted "vec_len(3)" reason none), pairsWorld) := by
  have hcell : pairsWorld.store.get? 1 = some (.slots [.null]) := rfl
  constructor
  · have hgen : ∀ x ∈ [Value.tuple none [.text "a", .int 1]].head?, pairsWorld.store.Generable False deepest x := by
      rintro x ⟨⟩ y hy
      rcases List.mem_pair.mp hy with rfl | rfl <;> trivial
    have hextends := (mutate_length_extends (w := pairsWorld) (v := .ref 0) (n := 3) rfl hcell (.list rfl)
      (by simp) hgen).1 (.inr ⟨by simp [Value.null], by simp⟩)
    rcases hextends with hanswer | ⟨hdeep, -⟩
    · exact hanswer
    · exact hdeep.elim
  · have hgen : ∀ x ∈ [Value.null].head?, pairsWorld.store.Generable False deepest x := by
      rintro x ⟨⟩
      trivial
    have hdescribed : exec (Fact.length 1 (3 : Nat) none).described pairsWorld = (.ok "vec_len(3)", pairsWorld) := by
      have htext : describe pairsWorld.store (.length 1 (3 : Nat) none) = some "vec_len(3)" := by decide +kernel
      rw [described, exec_bind, exec_ask, htext]
      rfl
    exact (mutate_length_extends (w := pairsWorld) (n := 3) rfl hcell .tuple (by simp) hgen).2 (by decide) rfl _
      hdescribed

/-- Integers are drawn for a byte string, and they are put in if all of them are bytes; if not, the fact gives up. -/
theorem mutate_length_bytes {bs : List UInt8} (hvaries : w.source.isFixed = false)
    (hc : w.store.get? c = some (.slots [.null])) (hbs : bs ≠ []) :
    ∃ items u, Resized w.store u.store (Store.byteValues bs) n items ∧
      ((∀ y ∈ items, ∃ b, y.IsByte b) → ∃ x,
        exec ((Fact.length c n none).mutate (.atom (.bytes bs))) w = (.ok x, u) ∧ u.store.Sequence x items) ∧
      ((¬ ∀ y ∈ items, ∃ b, y.IsByte b) → ∀ d, exec (Fact.length c n none).described u = (.ok d, u) →
        ∃ reason,
          exec ((Fact.length c n none).mutate (.atom (.bytes bs))) w = (.error (.exhausted d reason none), u)) := by
  have hgen : ∀ x ∈ (Store.byteValues bs).head?, w.store.Generable False deepest x := by
    intro x hx
    obtain ⟨b, -, rfl⟩ := List.mem_map.mp (List.mem_of_mem_head? hx)
    trivial
  have hhead : n ≤ (Store.byteValues bs).length ∨ (Store.byteValues bs).head?.getD .null ≠ .null := by
    cases bs with
    | nil => exact absurd rfl hbs
    | cons b bs => exact .inr (by simp [Store.byteValues, Value.int, Value.null])
  have hv : w.store.Sequence (.atom (.bytes bs)) (Store.byteValues bs) := .bytes
  obtain ⟨r, u, hcomputes, houtcome⟩ := exists_resized hvaries hc hv (by simp) hgen hhead
  rcases houtcome with ⟨hdeep, -⟩ | ⟨items, hr, hresized, -, hints⟩
  · exact hdeep.elim
  · have hmutate := (hcomputes.exec_mutate hv).2 items hr
    have hu := hv.grow hresized.added.grows
    refine ⟨items, u, hresized, fun hbytes => ?_, fun hbytes d hd => ?_⟩
    · obtain ⟨x, t, hrun, hrebuilt⟩ := exec_rebuild_of_admits (.length c n none) hu hbytes
      rw [hmutate, hrun]
      have hsequence := hrebuilt.sequence fun _ _ => hints ⟨bs, rfl⟩
      cases hrebuilt
      exact ⟨_, rfl, hsequence⟩
    · rw [hmutate]
      exact exec_rebuild_of_not_admits hu hbytes hd

end Fact

end Conform
