import Conform.Document.Node
import Conform.Proofs.Stored

/-!
# The grammar of declarative nodes

`Node.Accepted d` says that a tree is the node of a fact: a mapping that has exactly one constructor key beside the
label, a label that is a text if it is there, and an argument as the constructor wants it (`Node.Argument`).
`Node.Advances d` says that a constructor of stateful facts occurs in it.

A tree that is not accepted is malformed. What may be said of it is `Node.Located`: where the malformed part is,
or that an integer cannot be written or keys cannot be sorted for the message.
-/

namespace Conform

open Data

/-- Whether an atom is a scalar that can be a key in a document. -/
def Atom.IsScalar : Atom → Prop
  | .null | .bool _ | .int _ | .float _ | .text _ | .bytes _ => True
  | .nan m => m < spelledMarks
  | _ => False

/-- Whether an atom is one that a document can spell: a scalar, or something like a date that is not looked into. -/
def Atom.IsLiteral (a : Atom) : Prop := a.IsScalar ∨ ∃ o : SealedObject, a = .sealed o ∧ o.isOpen = false

theorem Atom.IsScalar.isLiteral {a : Atom} (h : a.IsScalar) : a.IsLiteral := .inl h

/-- No member of an enumeration is spelled, although it may count as an integer. -/
theorem Atom.IsLiteral.ne_member {cls : EnumClass} {i : Nat} : ¬ (Atom.member cls i).IsLiteral := by
  rintro (h | ⟨o, h, -⟩)
  · exact h
  · cases h

namespace Data

mutual

/-- Whether a tree is one that a document can spell: atoms, lists, tuples, sets, and mappings whose keys are scalars. -/
def Literal : Data → Prop
  | .atom a => a.IsLiteral
  | .list ds | .tuple _ ds | .set ds => LiteralAll ds
  | .mapping es => LiteralEntries es
  | _ => False

/-- Whether several trees are. -/
def LiteralAll : List Data → Prop
  | [] => True
  | d :: ds => Literal d ∧ LiteralAll ds

/-- Whether the entries of a mapping are. -/
def LiteralEntries : List (Data × Data) → Prop
  | [] => True
  | (k, d) :: es => ((∃ a : Atom, a.IsScalar ∧ k = .atom a) ∧ Literal d) ∧ LiteralEntries es

end

theorem LiteralAll.mem {d : Data} {ds : List Data} (h : LiteralAll ds) (hd : d ∈ ds) : d.Literal := by
  induction ds with
  | nil => cases hd
  | cons c ds ih =>
    rcases List.mem_cons.mp hd with rfl | hd
    · exact h.1
    · exact ih h.2 hd

theorem LiteralEntries.mem {key d : Data} {es : List (Data × Data)} (h : LiteralEntries es)
    (hd : (key, d) ∈ es) : d.Literal := by
  induction es with
  | nil => cases hd
  | cons e es ih =>
    obtain ⟨k, c⟩ := e
    rcases List.mem_cons.mp hd with heq | hd
    · cases heq
      exact h.1.2
    · exact ih h.2 hd

/-- Trees that a line can spell: scalars, lists, and mappings whose keys are scalars, on so many levels at most. -/
inductive Low : Nat → Data → Prop
  | atom {n : Nat} {a : Atom} : a.IsScalar → Low n (.atom a)
  | list {n : Nat} {ds : List Data} : (∀ d ∈ ds, Low n d) → Low (n + 1) (.list ds)
  | mapping {n : Nat} {es : List (Data × Data)} : (∀ e ∈ es, ∃ a : Atom, a.IsScalar ∧ e.1 = .atom a) →
    (∀ e ∈ es, Low n e.2) → Low (n + 1) (.mapping es)

theorem literalAll_of_forall {ds : List Data} (h : ∀ d ∈ ds, d.Literal) : LiteralAll ds := by
  induction ds with
  | nil => exact trivial
  | cons d ds ih => exact ⟨h d List.mem_cons_self, ih fun c hc => h c (List.mem_cons_of_mem d hc)⟩

theorem literalEntries_of_forall {es : List (Data × Data)} (hkeys : ∀ e ∈ es, ∃ a : Atom, a.IsScalar ∧ e.1 = .atom a)
    (h : ∀ e ∈ es, e.2.Literal) : LiteralEntries es := by
  induction es with
  | nil => exact trivial
  | cons e es ih =>
    obtain ⟨hkey, hkeys⟩ := List.forall_mem_cons.mp hkeys
    obtain ⟨hd, h⟩ := List.forall_mem_cons.mp h
    exact ⟨⟨hkey, hd⟩, ih hkeys h⟩

/-- A document can spell what a line can. -/
theorem Low.literal {n : Nat} {d : Data} (h : d.Low n) : d.Literal := by
  induction h with
  | atom ha => exact ha.isLiteral
  | list _ ih => exact literalAll_of_forall ih
  | mapping hkeys _ ih => exact literalEntries_of_forall hkeys ih

theorem literalAll_of_low {m : Nat} {ds : List Data} (h : ∀ d ∈ ds, ∃ n < m, d.Low n) : LiteralAll ds :=
  literalAll_of_forall fun d hd => by
    obtain ⟨n, -, hlow⟩ := h d hd
    exact hlow.literal

/-- Two texts are the same key if and only if they are equal. -/
@[simp] theorem alike_texts (s t : String) : (Data.atom (.text s)).alike (.atom (.text t)) = (s == t) := by
  rw [Bool.eq_iff_iff]
  simp [Data.alike, Data.sameNaN, Data.equal, Atom.equal, Atom.numeral?, Atom.integer?]

theorem build_literal {a : Atom} {s : Store} (h : a.IsLiteral) : Store.build (.atom a) s = (.atom a, s) := by
  rcases h with h | ⟨o, rfl, -⟩
  · cases a with
    | nan m => exact if_pos h
    | null | bool | int | float | text | bytes => rfl
    | _ => exact h.elim
  · rfl

mutual

/-- What a document spells is built as a value that stands for it. -/
theorem stored_build : ∀ {d : Data} {s : Store}, d.Literal →
    s.Grows (Store.build d s).2 ∧ d.Stored (Store.build d s).2 (Store.build d s).1
  | .atom a, s, hl => by
    rw [build_literal hl]
    exact ⟨.refl s, rfl⟩
  | .list ds, s, hl => by
    obtain ⟨hgrows, hstored⟩ := storedAll_build (s := s) hl
    have hnew := Store.Grows.alloc (Store.buildAll ds s).2 (.list (Store.buildAll ds s).1)
    exact ⟨hgrows.trans hnew, _, _, rfl, Store.get?_alloc_new, hstored.grow hnew⟩
  | .mapping es, s, hl => by
    obtain ⟨hgrows, hstored⟩ := storedEntries_build (s := s) hl
    have hnew := Store.Grows.alloc (Store.buildEntries es s).2 (.mapping (Store.buildEntries es s).1)
    exact ⟨hgrows.trans hnew, _, _, rfl, Store.get?_alloc_new, hstored.grow hnew⟩
  | .tuple _ ds, s, hl | .set ds, s, hl => by
    obtain ⟨hgrows, hstored⟩ := storedAll_build (s := s) hl
    exact ⟨hgrows, _, rfl, hstored⟩
  | .record _ _, _, hl | .elided _, _, hl => hl.elim

theorem storedAll_build : ∀ {ds : List Data} {s : Store}, LiteralAll ds →
    s.Grows (Store.buildAll ds s).2 ∧ StoredAll (Store.buildAll ds s).2 ds (Store.buildAll ds s).1
  | [], s, _ => ⟨.refl s, trivial⟩
  | d :: ds, s, hl => by
    obtain ⟨hgrows, hstored⟩ := stored_build (s := s) hl.1
    obtain ⟨hrest, hstored'⟩ := storedAll_build (s := (Store.build d s).2) hl.2
    exact ⟨hgrows.trans hrest, hstored.grow hrest, hstored'⟩

theorem storedEntries_build : ∀ {es : List (Data × Data)} {s : Store}, LiteralEntries es →
    s.Grows (Store.buildEntries es s).2 ∧ StoredEntries (Store.buildEntries es s).2 es (Store.buildEntries es s).1
  | [], s, _ => ⟨.refl s, trivial⟩
  | (k, d) :: es, s, hl => by
    obtain ⟨⟨⟨a, ha, rfl⟩, hd⟩, hes⟩ := hl
    obtain ⟨hgrows, hstored⟩ := stored_build (s := s) hd
    obtain ⟨hrest, hstored'⟩ := storedEntries_build (s := (Store.build d s).2) hes
    simp only [Store.buildEntries, build_literal ha.isLiteral]
    exact ⟨hgrows.trans hrest, ⟨rfl, hstored.grow hrest⟩, hstored'⟩

end

/-- Whether the keys of some mapping in a tree cannot be sorted, since two of them have no order. -/
inductive Mixed : Data → Prop
  | keys {es : List (Data × Data)} {ks : List Data} :
    ks.Sublist (es.map (·.1)) → sorted? ks = none → Mixed (.mapping es)
  | item {ds : List Data} {d : Data} : d ∈ ds → Mixed d → Mixed (.list ds)
  | entry {es : List (Data × Data)} {k d : Data} : (k, d) ∈ es → Mixed d → Mixed (.mapping es)

end Data

namespace Node

/-! ## Nodes and arguments -/

/-- What a mapping has under a key that is a text. -/
def under (es : List (Data × Data)) (name : String) : Option Data := find? es (.atom (.text name))

/-- Whether a mapping has exactly one key beside the label, that of the constructor, with the argument. -/
def Heads (es : List (Data × Data)) (k : Constructor) (arg : Data) : Prop :=
  es.filter (fun e => !isLabel e.1) = [(.atom (.text k.key), arg)]

/-- Whether all keys of a mapping are among some. -/
def OnlyKeys (es : List (Data × Data)) (names : List String) : Prop :=
  ∀ e ∈ es, ∃ name ∈ names, e.1 = .atom (.text name)

/-- Whether a mapping gives no label, or a text as its label. -/
def Labels (es : List (Data × Data)) : Prop :=
  ∀ d, under es "label" = some d → d = .atom .null ∨ ∃ name : String, name ≠ "" ∧ d = .atom (.text name)

/-- Whether a tree is an end of a range: nothing, or a number that is no truth value. -/
def IsBound (d : Data) : Prop :=
  d = .atom .null ∨ (∃ n, d = .atom (.int n)) ∨ (∃ x, d = .atom (.float x)) ∨ ∃ m, d = .atom (.nan m)

/-- Whether a tree is a length: an integer that is no truth value and not negative. -/
def IsLength (d : Data) : Prop := ∃ n : Int, 0 ≤ n ∧ d = .atom (.int n)

/-- The constructors that take any argument. -/
def Constructor.IsFree : Constructor → Prop
  | .always | .never | .eq | .ne | .distinct | .same | .different => True
  | _ => False

mutual

/-- Whether a node has a constructor of stateful facts somewhere. -/
inductive Advances : Data → Prop
  | node {es : List (Data × Data)} {k : Constructor} {arg : Data} :
    Heads es k arg → AdvancesIn k arg → Advances (.mapping es)

/-- Whether a constructor with its argument is one of stateful facts, or has one inside. -/
inductive AdvancesIn : Constructor → Data → Prop
  | counter {arg : Data} : AdvancesIn .consecutiveInt arg
  | distinct {arg : Data} : AdvancesIn .distinct arg
  | member {k : Constructor} {ds : List Data} {d : Data} :
    k = .and ∨ k = .or → d ∈ ds → Advances d → AdvancesIn k (.list ds)
  | whole {k : Constructor} {d : Data} : k = .not ∨ k = .seq → Advances d → AdvancesIn k d
  | part {k : Constructor} {es : List (Data × Data)} {d : Data} :
    k = .attr ∨ k = .item → under es "fact" = some d → Advances d → AdvancesIn k (.mapping es)

end

mutual

/-- Whether a tree is the node of a fact. -/
inductive Accepted : Data → Prop
  | node {es : List (Data × Data)} {k : Constructor} {arg : Data} :
    Heads es k arg → Argument k arg → Labels es → Accepted (.mapping es)

/-- Whether a tree is an argument of a constructor. -/
inductive Argument : Constructor → Data → Prop
  | free {k : Constructor} {arg : Data} : k.IsFree → Argument k arg
  | options {ds : List Data} : Argument .inSet (.list ds)
  | ends {low high : Data} : IsBound low → IsBound high → Argument .inRange (.list [low, high])
  | range {es : List (Data × Data)} : OnlyKeys es ["high", "low"] →
    IsBound ((under es "low").getD (.atom .null)) → IsBound ((under es "high").getD (.atom .null)) →
    Argument .inRange (.mapping es)
  | length {d : Data} : IsLength d → Argument .vecLen d
  | sized {es : List (Data × Data)} {d : Data} : OnlyKeys es ["length", "like"] →
    under es "length" = some d → IsLength d → Argument .vecLen (.mapping es)
  | first : Argument .consecutiveInt (.atom .null)
  | initial {n : Int} : Argument .consecutiveInt (.atom (.int n))
  | members {ds : List Data} : (∀ d ∈ ds, Accepted d) → Argument .and (.list ds)
  | sides {a b : Data} : Accepted a → Accepted b → Argument .or (.list [a, b])
  | elements {d : Data} : Accepted d → Argument .seq d
  | attr {es : List (Data × Data)} {name : String} {d : Data} : OnlyKeys es ["fact", "name", "optional"] →
    under es "name" = some (.atom (.text name)) → name ≠ "" → under es "fact" = some d → Accepted d →
    Argument .attr (.mapping es)
  | item {es : List (Data × Data)} {key d : Data} : OnlyKeys es ["fact", "key"] →
    under es "key" = some key → under es "fact" = some d → Accepted d → Argument .item (.mapping es)
  | negated {d : Data} : Accepted d → ¬ Advances d → Argument .not d

end

/-- What a fault may say of a tree that is found at a path: where in it something is malformed, or that the
message cannot be made, because an integer has too many digits or the keys of a mapping have no order. -/
def Located (d : Data) (path : String) : Fault → Prop
  | .schema q _ => ∃ rest, q = path ++ rest
  | .misuse .invalid => d.isWritable = false
  | .misuse .unsupported => d.Mixed
  | _ => False

/-- Whether a fault rejects a tree that is found at a path: it says what it may, and the tree is not as it should
be, unless it is only that an integer cannot be written. -/
structure Rejects (d : Data) (path : String) (good : Prop) (e : Fault) : Prop where
  located : Located d path e
  bad : e ≠ .misuse .invalid → ¬ good

/-! ## Parts of trees -/

/-- Whether what cannot be written or sorted about a tree cannot about another one either. -/
structure Inside (c d : Data) : Prop where
  writable : d.isWritable = true → c.isWritable = true
  mixed : c.Mixed → d.Mixed

section

variable {c d : Data} {ds : List Data} {es : List (Data × Data)} {path : String} {good : Prop} {e : Fault}
  {k : Constructor} {name : String}

theorem isWritableAll_iff : isWritableAll ds = true ↔ ∀ d ∈ ds, d.isWritable = true := by
  induction ds with
  | nil => simp [isWritableAll]
  | cons d ds ih => simp [isWritableAll, ih]

theorem isWritableEntries_iff :
    isWritableEntries es = true ↔ ∀ e ∈ es, e.1.isWritable = true ∧ e.2.isWritable = true := by
  induction es with
  | nil => simp [isWritableEntries]
  | cons e es ih => simp [isWritableEntries, ih]

theorem Inside.refl (d : Data) : Inside d d := ⟨fun h => h, fun h => h⟩

theorem Inside.item (h : d ∈ ds) : Inside d (.list ds) :=
  ⟨fun hw => isWritableAll_iff.mp hw d h, .item h⟩

theorem Inside.entry {key : Data} (h : (key, d) ∈ es) : Inside d (.mapping es) :=
  ⟨fun hw => (isWritableEntries_iff.mp hw _ h).2, .entry h⟩

theorem mem_of_find? {key : Data} (h : find? es key = some d) : ∃ key', (key', d) ∈ es := by
  obtain ⟨e, he, rfl⟩ := Option.map_eq_some_iff.mp h
  exact ⟨e.1, List.mem_of_find?_eq_some he⟩

theorem Inside.under (h : under es name = some d) : Inside d (.mapping es) := by
  obtain ⟨key, hmem⟩ := mem_of_find? h
  exact .entry hmem

/-- The argument of a constructor is inside its node. -/
theorem Heads.mem (h : Heads es k d) : (.atom (.text k.key), d) ∈ es := by
  have hmem : (.atom (.text k.key), d) ∈ es.filter (fun e => !isLabel e.1) := by
    rw [h]
    exact List.mem_singleton_self _
  exact (List.mem_filter.mp hmem).1

theorem Heads.inside (h : Heads es k d) : Inside d (.mapping es) := .entry h.mem

/-- What a fault says of a part, it says of the whole. -/
theorem Located.up {q seg : String} (h : Located c q e) (hq : q = path ++ seg) (hin : Inside c d) :
    Located d path e := by
  cases e with
  | schema p m =>
    obtain ⟨rest, rfl⟩ := h
    exact ⟨seg ++ rest, by rw [hq, String.append_assoc]⟩
  | misuse m =>
    cases m with
    | invalid =>
      refine Bool.eq_false_iff.mpr fun hd => ?_
      exact Bool.eq_false_iff.mp h (hin.writable hd)
    | unsupported => exact hin.mixed h
    | _ => exact h.elim
  | _ => exact h.elim

theorem Rejects.up {bad : Prop} {q seg : String} (h : Rejects c q bad e) (hq : q = path ++ seg)
    (hin : Inside c d) (hgood : good → bad) : Rejects d path good e where
  located := h.located.up hq hin
  bad := fun he hg => h.bad he (hgood hg)

/-- The same tree at the same path may be rejected for more. -/
theorem Rejects.imp {bad : Prop} (h : Rejects d path bad e) (hgood : good → bad) : Rejects d path good e :=
  ⟨h.located, fun he hg => h.bad he (hgood hg)⟩

theorem Rejects.schema {message : String} (h : ¬ good) : Rejects d path good (.schema path message) :=
  ⟨⟨"", (String.append_empty).symm⟩, fun _ => h⟩

theorem Rejects.unwritable (h : d.isWritable = false) : Rejects d path good (.misuse .invalid) :=
  ⟨h, fun he => absurd rfl he⟩

theorem literal_under (h : LiteralEntries es) (hd : under es name = some d) : d.Literal := by
  obtain ⟨key, hmem⟩ := mem_of_find? hd
  exact h.mem hmem

/-! ## Constructors -/

theorem key_of_mem : ∀ e ∈ constructors, e.2.key = e.1 := by decide

theorem constructor?_key (k : Constructor) : constructor? (.atom (.text k.key)) = some k := by
  cases k <;> decide

/-- Only the text that is its key stands for a constructor. -/
theorem eq_key_of_constructor? (h : constructor? d = some k) : d = .atom (.text k.key) := by
  unfold constructor? at h
  split at h
  · next t =>
    obtain ⟨before, after, heq, -⟩ := List.lookup_eq_some_iff.mp h
    have hmem : (t, k) ∈ constructors := by
      rw [heq]
      exact List.mem_append_right before List.mem_cons_self
    rw [key_of_mem _ hmem]
  · cases h

theorem Heads.unique {k k' : Constructor} {arg arg' : Data} (h : Heads es k arg) (h' : Heads es k' arg') :
    k = k' ∧ arg = arg' := by
  have heq := List.cons.inj (h.symm.trans h')
  obtain ⟨hkey, harg⟩ := Prod.mk.inj heq.1
  have hk : constructor? (.atom (.text k.key)) = constructor? (.atom (.text k'.key)) := by rw [hkey]
  rw [constructor?_key, constructor?_key] at hk
  exact ⟨Option.some.inj hk, harg⟩

theorem accepted_iff (h : Heads es k d) : Accepted (.mapping es) ↔ Argument k d ∧ Labels es := by
  constructor
  · intro hd
    cases hd with
    | node hheads harg hlabels =>
      obtain ⟨rfl, rfl⟩ := hheads.unique h
      exact ⟨harg, hlabels⟩
  · rintro ⟨harg, hlabels⟩
    exact .node h harg hlabels

theorem advances_iff (h : Heads es k d) : Advances (.mapping es) ↔ AdvancesIn k d := by
  constructor
  · intro hd
    cases hd with
    | node hheads hin =>
      obtain ⟨rfl, rfl⟩ := hheads.unique h
      exact hin
  · exact .node h

/-- A constructor of stateless facts that takes no node has none inside. -/
theorem not_advancesIn (h : k = .inSet ∨ k = .inRange ∨ k = .vecLen ∨ k = .always ∨ k = .never ∨ k = .eq ∨
    k = .ne ∨ k = .same ∨ k = .different) : ¬ AdvancesIn k d := by
  intro hd
  cases hd with
  | counter | distinct => simp at h
  | member hk | whole hk | part hk => rcases hk with rfl | rfl <;> simp at h

theorem advancesIn_whole (hk : k = .not ∨ k = .seq) : AdvancesIn k d ↔ Advances d := by
  constructor
  · intro h
    cases h with
    | whole _ hd => exact hd
    | counter | distinct => simp at hk
    | member hk' | part hk' => rcases hk' with rfl | rfl <;> simp at hk
  · exact .whole hk

theorem advancesIn_members (hk : k = .and ∨ k = .or) : AdvancesIn k (.list ds) ↔ ∃ d ∈ ds, Advances d := by
  constructor
  · intro h
    cases h with
    | member _ hmem hd => exact ⟨_, hmem, hd⟩
    | counter | distinct => simp at hk
    | whole hk' => rcases hk' with rfl | rfl <;> simp at hk
  · rintro ⟨d, hmem, hd⟩
    exact .member hk hmem hd

theorem advancesIn_part (hk : k = .attr ∨ k = .item) (h : under es "fact" = some d) :
    AdvancesIn k (.mapping es) ↔ Advances d := by
  constructor
  · intro hin
    cases hin with
    | part _ hunder hd =>
      cases h.symm.trans hunder
      exact hd
    | counter | distinct => simp at hk
    | whole hk' => rcases hk' with rfl | rfl <;> simp at hk
  · exact .part hk h

end

end Node

end Conform
