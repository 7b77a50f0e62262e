import Conform.Proofs.Forming
import Conform.Proofs.Grammar
import Conform.Proofs.Rounds

/-!
# Reading the arguments of nodes

Loading a node only adds new objects to the store, so the node stands for the same tree all along. `Act.Makes`
is the judgement for such actions, with one rule for each way of putting actions together.

What the functions that make facts make is `Fact.Loaded`. The readers of arguments that hold no node answer exactly
for the arguments that the grammar has, and reject all others.
-/

namespace Conform

open Act Data

namespace Act

variable {α β : Type} {s : Store} {P : α → Prop} {Q : β → Prop} {E : Fault → Prop}

/-- Whether an action, wherever a store has grown to, only adds to it and ends with an answer or a fault as
described. -/
def Makes (s : Store) (a : Act α) (P : α → Prop) (E : Fault → Prop) : Prop :=
  ∀ w, s.Grows w.store →
    (∀ x u, exec a w = (.ok x, u) → s.Grows u.store ∧ P x) ∧
      ∀ e u, exec a w = (.error e, u) → s.Grows u.store ∧ E e

theorem makes_pure {x : α} (h : P x) : Makes s (pure x) P E := by
  intro w hw
  refine ⟨?_, nofun⟩
  rintro y u ⟨⟩
  exact ⟨hw, h⟩

theorem makes_throw {e : Fault} (h : E e) : Makes s (throw e : Act α) P E := by
  intro w hw
  refine ⟨nofun, ?_⟩
  rintro e' u ⟨⟩
  exact ⟨hw, h⟩

theorem Makes.bind {a : Act α} {f : α → Act β} (ha : Makes s a P E) (hf : ∀ x, P x → Makes s (f x) Q E) :
    Makes s (a >>= f) Q E := by
  intro w hw
  obtain ⟨hok, herr⟩ := ha w hw
  rw [exec_bind]
  rcases hrun : exec a w with ⟨e | x, u⟩
  · refine ⟨nofun, ?_⟩
    rintro e' u' ⟨⟩
    exact herr e u hrun
  · obtain ⟨hu, hx⟩ := hok x u hrun
    exact hf x hx u hu

theorem Makes.mono {a : Act α} {P' : α → Prop} {E' : Fault → Prop} (ha : Makes s a P E)
    (hP : ∀ x, P x → P' x) (hE : ∀ e, E e → E' e) : Makes s a P' E' := by
  intro w hw
  obtain ⟨hok, herr⟩ := ha w hw
  exact ⟨fun x u hx => ⟨(hok x u hx).1, hP x (hok x u hx).2⟩,
    fun e u he => ⟨(herr e u he).1, hE e (herr e u he).2⟩⟩

/-- A fault is taken up where the store has grown to. -/
theorem Makes.tryCatch {a : Act α} {h : Fault → Act α} {C : Fault → Prop} (ha : Makes s a P C)
    (hh : ∀ e, C e → Makes s (h e) P E) : Makes s (tryCatch a h) P E := by
  intro w hw
  obtain ⟨hok, herr⟩ := ha w hw
  rw [exec_tryCatch]
  rcases hrun : exec a w with ⟨e | x, u⟩
  · obtain ⟨hu, he⟩ := herr e u hrun
    exact hh e he u hu
  · refine ⟨?_, nofun⟩
    rintro y t ⟨⟩
    exact hok x u hrun

theorem makes_ask {f : Store → α} (h : ∀ t, s.Grows t → P (f t)) : Makes s (ask f) P E := by
  intro w hw
  refine ⟨?_, nofun⟩
  rintro x u ⟨⟩
  exact ⟨hw, h _ hw⟩

theorem makes_get {l : Loc} {o : Object} (h : s.get? l = some o) : Makes s (ask (·.get? l)) (· = some o) E :=
  makes_ask fun _ ht => ht l o h

theorem makes_view {d : Data} {v : Value} (h : d.Stored s v) : Makes s (view v) (· = d) E :=
  makes_ask fun _ ht => (h.grow ht).view

theorem makes_alloc {o : Object} : Makes s (alloc o) (fun _ => True) E := by
  intro w hw
  refine ⟨?_, nofun⟩
  rintro x u ⟨⟩
  exact ⟨hw.trans (.alloc _ o), trivial⟩

theorem makes_written {o : Option String} (h : o = none → E (.misuse .invalid)) :
    Makes s (written o) (fun _ => True) E := by
  cases o with
  | none => exact makes_throw (h rfl)
  | some t => exact makes_pure trivial

/-- A value can be shown unless it cannot be written. -/
theorem makes_render {d : Data} {v : Value} (hd : d.Stored s v)
    (h : d.isWritable = false → E (.misuse .invalid)) : Makes s (render v) (fun _ => True) E := by
  refine (makes_view hd).bind fun c hc => makes_written fun hnone => ?_
  subst hc
  refine h (Bool.eq_false_iff.mpr fun hw => ?_)
  rw [text?, if_pos hw] at hnone
  cases hnone

theorem makes_display {d : Data} {v : Value} (hd : d.Stored s v)
    (h : d.isWritable = false → E (.misuse .invalid)) : Makes s (display v) (fun _ => True) E := by
  refine (makes_view hd).bind fun c hc => makes_written fun hnone => ?_
  subst hc
  refine h (Bool.eq_false_iff.mpr fun hw => ?_)
  rw [spliced?, if_pos hw] at hnone
  cases hnone

theorem makes_mapM {f : α → Act β} : ∀ {xs : List α}, (∀ x ∈ xs, Makes s (f x) Q E) →
    Makes s (xs.mapM f) (fun ys => ∀ y ∈ ys, Q y) E := by
  intro xs
  induction xs with
  | nil => exact fun _ => makes_pure nofun
  | cons x xs ih =>
    intro h
    rw [List.mapM_cons]
    refine (h x List.mem_cons_self).bind fun y hy => ?_
    refine (ih fun z hz => h z (List.mem_cons_of_mem x hz)).bind fun ys hys => makes_pure ?_
    intro z hz
    rcases List.mem_cons.mp hz with rfl | hz
    · exact hy
    · exact hys z hz

end Act

/-! ## Making facts -/

/-- Whether a fact is formed, and stateful exactly if something holds. -/
def Fact.Loaded (f : Fact) (advances : Prop) : Prop := f.Formed ∧ (f.stateful = true ↔ advances)

namespace Fact

variable {s : Store} {E : Fault → Prop} {f g : Fact} {p q : Prop}

theorem makes_newCell {vs : List Value} : Makes s (newCell vs) (fun _ => True) E := makes_alloc

theorem makes_emptyCell : Makes s emptyCell (fun _ => True) E := makes_alloc

theorem Loaded.congr (h : f.Loaded p) (hpq : p ↔ q) : f.Loaded q := ⟨h.1, h.2.trans hpq⟩

/-- A fact that is made of no other is stateful or not by its kind. -/
theorem loaded_leaf (hf : f.Formed) (hs : f.stateful = false) : f.Loaded False := by
  refine ⟨hf, ?_⟩
  rw [hs]
  exact iff_of_false Bool.false_ne_true id

theorem makes_mkEither (hf : f.Loaded p) (hg : g.Loaded q) :
    Makes s (mkEither f g) (fun h => h.Loaded (p ∨ q)) E := by
  refine makes_emptyCell.bind fun c _ => makes_pure ⟨⟨rfl, hf.1, hg.1⟩, ?_⟩
  show (f.stateful || g.stateful) = true ↔ _
  rw [Bool.or_eq_true, hf.2, hg.2]

theorem makes_mkEach (hf : f.Loaded p) : Makes s (mkEach f) (fun h => h.Loaded p) E :=
  makes_emptyCell.bind fun _ _ => makes_pure ⟨⟨rfl, hf.1⟩, hf.2⟩

theorem makes_mkLens {a : Accessor} (hf : f.Loaded p) : Makes s (mkLens a f) (fun h => h.Loaded p) E :=
  makes_emptyCell.bind fun _ _ => makes_pure ⟨⟨rfl, hf.1⟩, hf.2⟩

theorem makes_mkPrism {a : Accessor} (hf : f.Loaded p) : Makes s (mkPrism a f) (fun h => h.Loaded p) E :=
  makes_emptyCell.bind fun _ _ => makes_pure ⟨⟨rfl, hf.1⟩, hf.2⟩

/-- A label leaves a fact as stateful as it is. -/
theorem makes_mkLabeled {name : String} (hname : name ≠ "") (hf : f.Loaded p) :
    Makes s (mkLabeled f name) (fun h => h.Loaded p) E := by
  unfold mkLabeled
  rw [if_neg hname]
  refine makes_emptyCell.bind fun c _ => ?_
  split
  · next inner b =>
    obtain ⟨⟨hb, hinner⟩, hstateful⟩ := hf
    exact makes_pure ⟨⟨rfl, hinner⟩, by rw [← hstateful]; exact hb ▸ Iff.rfl⟩
  · exact makes_pure ⟨⟨rfl, hf.1⟩, hf.2⟩

theorem makes_described (h : E (.misuse .invalid)) : Makes s f.described (fun _ => True) E :=
  (makes_ask fun _ _ => trivial).bind fun _ (_ : True) => makes_written fun _ => h

/-- A stateless fact is negated. A stateful one is refused, or else its description cannot be written. -/
theorem makes_mkNot (hf : f.Loaded p) : Makes s (mkNot f) (fun h => ¬ p ∧ h.Loaded False)
    fun e => p ∧ ((∃ cause, e = .refused cause) ∨ e = .misuse .invalid) := by
  unfold mkNot
  by_cases hb : f.stateful = true
  · have hp : p := hf.2.mp hb
    have hcomplement : Makes s f.complement (· = none)
        fun e => p ∧ ((∃ cause, e = .refused cause) ∨ e = .misuse .invalid) := by
      intro w hw
      rw [exec_complement_of_stateful f hf.1 hb]
      refine ⟨?_, nofun⟩
      rintro x u ⟨⟩
      exact ⟨hw, rfl⟩
    simp only [if_pos hb]
    refine hcomplement.bind fun o ho => ?_
    subst ho
    simp only [Option.isNone_none, if_true]
    refine (makes_described ⟨hp, .inr rfl⟩).bind fun t _ => ?_
    exact (makes_throw (P := fun _ => False) ⟨hp, .inl ⟨_, rfl⟩⟩).bind fun _ h => h.elim
  · have hp : ¬ p := fun hp => hb (hf.2.mpr hp)
    have hstateless : f.stateful = false := Bool.eq_false_iff.mpr hb
    simp only [if_neg hb]
    refine makes_emptyCell.bind fun c _ => makes_pure ⟨hp, loaded_leaf ⟨⟨hstateless, hstateless⟩, hf.1⟩ hstateless⟩

end Fact

namespace Node

/-! ## Readers of arguments -/

section

variable {s : Store} {E : Fault → Prop} {d : Data} {ds : List Data} {es : List (Data × Data)} {v : Value}
  {xs : List Value} {fs : List (Value × Value)} {path name : String} {k : Constructor}

/-- An action whose faults reject a tree for one thing rejects it for more. -/
theorem makes_rejected {α : Type} {P : α → Prop} {a : Act α} {good bad : Prop} (h : good → bad)
    (ha : Makes s a P (Rejects d path bad)) : Makes s a P (Rejects d path good) :=
  ha.mono (fun _ hx => hx) fun _ he => he.imp h

theorem makes_malformed {α : Type} {P : α → Prop} {message : String} (h : E (.schema path message)) :
    Makes s (malformed path message : Act α) P E := makes_throw h

/-- A value that is no reference to an object of the wanted kind is refused by the name of its class. -/
theorem makes_wrong {α : Type} {P : α → Prop} {good : Prop} {message : Data → String} (hd : d.Stored s v)
    (h : ¬ good) : Makes s (do malformed path (message (← Act.view v)) : Act α) P (Rejects d path good) :=
  (makes_view hd).bind fun _ _ => makes_malformed (.schema h)

theorem makes_mapping (hd : d.Stored s v) :
    Makes s (mapping v path) (fun fs => ∃ es, d = .mapping es ∧ StoredEntries s es fs)
      (Rejects d path (∃ es, d = .mapping es)) := by
  unfold mapping
  cases d with
  | atom a =>
    cases hd
    exact makes_wrong (d := .atom a) rfl (by rintro ⟨es, ⟨⟩⟩)
  | list ds =>
    have hstored := hd
    obtain ⟨l, xs, rfl, hget, hxs⟩ := hd
    refine (makes_get hget).bind fun o ho => ?_
    subst ho
    exact makes_wrong hstored (by rintro ⟨es, ⟨⟩⟩)
  | mapping es =>
    obtain ⟨l, fs, rfl, hget, hfs⟩ := hd
    refine (makes_get hget).bind fun o ho => ?_
    subst ho
    exact makes_pure ⟨es, rfl, hfs⟩
  | tuple cls ds | set ds =>
    have hstored := hd
    obtain ⟨xs, rfl, -⟩ := hd
    exact makes_wrong hstored (by rintro ⟨es, ⟨⟩⟩)
  | _ => exact hd.elim

theorem makes_items (hd : d.Stored s v) :
    Makes s (items v path) (fun xs => ∃ ds, d = .list ds ∧ StoredAll s ds xs)
      (Rejects d path (∃ ds, d = .list ds)) := by
  unfold items
  cases d with
  | atom a =>
    cases hd
    exact makes_wrong (d := .atom a) rfl (by rintro ⟨es, ⟨⟩⟩)
  | list ds =>
    obtain ⟨l, xs, rfl, hget, hxs⟩ := hd
    refine (makes_get hget).bind fun o ho => ?_
    subst ho
    exact makes_pure ⟨ds, rfl, hxs⟩
  | mapping es =>
    have hstored := hd
    obtain ⟨l, fs, rfl, hget, hfs⟩ := hd
    refine (makes_get hget).bind fun o ho => ?_
    subst ho
    exact makes_wrong hstored (by rintro ⟨es, ⟨⟩⟩)
  | tuple cls ds | set ds =>
    have hstored := hd
    obtain ⟨xs, rfl, -⟩ := hd
    exact makes_wrong hstored (by rintro ⟨es, ⟨⟩⟩)
  | _ => exact hd.elim

/-- A value that is shown as what was found instead is refused, or cannot be written. -/
theorem makes_shown {α : Type} {P : α → Prop} {good : Prop} {before after : String} (hd : d.Stored s v)
    (h : ¬ good) :
    Makes s (do malformed path (before ++ (← Act.render v) ++ after) : Act α) P (Rejects d path good) :=
  (makes_render hd fun hw => .unwritable hw).bind fun _ _ => makes_malformed (.schema h)

theorem makes_integer (hd : d.Stored s v) (hl : d.Literal) :
    Makes s (integer v path) (fun n => d = .atom (.int n)) (Rejects d path (∃ n, d = .atom (.int n))) := by
  refine (makes_view hd).bind fun c hc => ?_
  subst hc
  have hwrong : (¬ ∃ n, c = .atom (.int n)) →
      Makes s (do malformed path ("expected an integer, got " ++ (← Act.render v) ++ ".") : Act Int)
        (fun n => c = .atom (.int n)) (Rejects c path (∃ n, c = .atom (.int n))) := fun h => makes_shown hd h
  cases c with
  | atom a =>
    cases a with
    | int n => exact makes_pure rfl
    | member cls i => exact absurd hl Atom.IsLiteral.ne_member
    | _ => exact hwrong (by rintro ⟨n, ⟨⟩⟩)
  | _ => exact hwrong (by rintro ⟨n, ⟨⟩⟩)

theorem makes_requireNumber (hd : d.Stored s v) (hl : d.Literal) :
    Makes s (requireNumber v path) (fun _ => IsBound d) (Rejects d path (IsBound d)) := by
  refine (makes_view hd).bind fun c hc => ?_
  subst hc
  have hwrong : ¬ IsBound c →
      Makes s (do malformed path ("expected a number or null, got " ++ (← Act.render v) ++ ".") : Act Unit)
        (fun _ => IsBound c) (Rejects c path (IsBound c)) := fun h => makes_shown hd h
  have hnone : ∀ {p : Prop}, (c = .atom .null → p) → (∀ n, c = .atom (.int n) → p) →
      (∀ x, c = .atom (.float x) → p) → (∀ m, c = .atom (.nan m) → p) → IsBound c → p := by
    rintro p h1 h2 h3 h4 (h | ⟨n, h⟩ | ⟨x, h⟩ | ⟨m, h⟩)
    · exact h1 h
    · exact h2 n h
    · exact h3 x h
    · exact h4 m h
  cases c with
  | atom a =>
    cases hd
    cases a with
    | null => exact makes_pure (.inl rfl)
    | int n => exact makes_pure (.inr (.inl ⟨n, rfl⟩))
    | float x => exact makes_pure (.inr (.inr (.inl ⟨x, rfl⟩)))
    | nan m => exact makes_pure (.inr (.inr (.inr ⟨m, rfl⟩)))
    | member cls i => exact absurd hl Atom.IsLiteral.ne_member
    | _ => exact hwrong (hnone nofun nofun nofun nofun)
  | list ds | mapping es =>
    obtain ⟨l, xs, rfl, -⟩ := hd
    exact hwrong (hnone nofun nofun nofun nofun)
  | tuple cls ds | set ds =>
    obtain ⟨xs, rfl, -⟩ := hd
    exact hwrong (hnone nofun nofun nofun nofun)
  | _ => exact hd.elim

/-- Nothing is sorted only from nothing. -/
theorem eq_nil_of_sorted? {ks : List Data} (h : sorted? ks = some []) : ks = [] := by
  unfold sorted? sortedBy? at h
  split at h
  · have hlength := congrArg List.length (Option.some.inj h)
    rw [List.length_mergeSort] at hlength
    exact List.length_eq_zero_iff.mp hlength
  · cases h

/-- Whether a key is one of those that are allowed. -/
def isAllowed (allowed : List String) (d : Data) : Bool :=
  match d with
  | .atom (.text k) => allowed.contains k
  | _ => false

theorem isAllowed_iff {allowed : List String} :
    isAllowed allowed d = true ↔ ∃ name ∈ allowed, d = .atom (.text name) := by
  constructor
  · intro hd
    unfold isAllowed at hd
    split at hd
    · next k => exact ⟨k, List.contains_iff_mem.mp hd, rfl⟩
    · cases hd
  · rintro ⟨name, hname, rfl⟩
    exact List.contains_iff_mem.mpr hname

theorem requireKeys_eq (allowed : List String) : requireKeys fs allowed path = (do
    let keys ← Act.viewAll (fs.map (·.1))
    match sorted? (keys.filter fun d => !isAllowed allowed d) with
    | none => Act.misuse .unsupported
    | some [] => return ()
    | some unknown =>
      let given ← Act.written (Data.list unknown).text?
      malformed path ("unknown key(s) " ++ given ++ ". Allowed keys: " ++ keysText allowed ++ ".")) := rfl

/-- Keys other than the allowed ones are refused. -/
theorem makes_requireKeys (h : StoredEntries s es fs) (allowed : List String) :
    Makes s (requireKeys fs allowed path) (fun _ => OnlyKeys es allowed)
      (Rejects (.mapping es) path (OnlyKeys es allowed)) := by
  have hkeys : Makes s (Act.viewAll (fs.map (·.1))) (· = es.map (·.1))
      (Rejects (.mapping es) path (OnlyKeys es allowed)) :=
    makes_ask fun t ht => (h.grow ht).viewKeys
  rw [requireKeys_eq]
  refine hkeys.bind fun keys hk => ?_
  subst hk
  have hbad : ∀ d ∈ (es.map (·.1)).filter (fun d => !isAllowed allowed d), ¬ OnlyKeys es allowed := by
    intro d hd honly
    obtain ⟨hmem, hnot⟩ := List.mem_filter.mp hd
    obtain ⟨e, he, rfl⟩ := List.mem_map.mp hmem
    rw [isAllowed_iff.mpr (honly e he)] at hnot
    cases hnot
  have hsub : ((es.map (·.1)).filter fun d => !isAllowed allowed d).Sublist (es.map (·.1)) := List.filter_sublist
  generalize hks : (es.map (·.1)).filter (fun d => !isAllowed allowed d) = ks at hbad hsub
  split
  · next hnone =>
    -- the unknown keys cannot be compared with each other, so there are some
    refine makes_throw ⟨.keys hsub hnone, fun _ honly => ?_⟩
    cases ks with
    | nil => cases hnone
    | cons d ks => exact hbad d List.mem_cons_self honly
  · next hnil =>
    refine makes_pure fun e he => isAllowed_iff.mp ?_
    have hempty : ks = [] := eq_nil_of_sorted? hnil
    by_contra hnot
    have hmem : e.1 ∈ ks := by
      rw [← hks]
      exact List.mem_filter.mpr ⟨List.mem_map_of_mem he, by rw [Bool.eq_false_iff.mpr hnot]; rfl⟩
    rw [hempty] at hmem
    cases hmem
  · next unknown hne hsome =>
    -- they are named in ascending order, if they can be written at all
    have hmem : ∀ d ∈ unknown, d ∈ ks := fun d hd => Store.mem_sortedBy? hsome hd
    have hnot : ¬ OnlyKeys es allowed := by
      cases unknown with
      | nil => exact absurd rfl hne
      | cons d ds => exact hbad d (hmem d List.mem_cons_self)
    refine (makes_written fun hnone => .unwritable ?_).bind fun _ _ => makes_malformed (.schema hnot)
    refine Bool.eq_false_iff.mpr fun hw => ?_
    have hall : (Data.list unknown).isWritable = true := by
      refine isWritableAll_iff.mpr fun d hd => ?_
      obtain ⟨e, he, rfl⟩ := List.mem_map.mp (hsub.subset (hmem d hd))
      exact (isWritableEntries_iff.mp hw e he).1
    rw [text?, if_pos hall] at hnone
    cases hnone

/-- What a mapping has under a key. -/
theorem makes_found (h : StoredEntries s es fs) (name : String) :
    Makes s ( entry? fs name) (fun o => (under es name = none ∧ o = none) ∨
      ∃ d v, under es name = some d ∧ o = some v ∧ d.Stored s v) E := by
  refine makes_ask fun t ht => ?_
  rw [h.lookup_grow ht]
  exact h.lookup _

theorem makes_entry (h : StoredEntries s es fs) (name : String) :
    Makes s (entry fs name) (fun v => ((under es name).getD (.atom .null)).Stored s v) E := by
  refine (makes_found h name).bind fun o ho => makes_pure ?_
  rcases ho with ⟨hnone, rfl⟩ | ⟨d, v, hsome, rfl, hd⟩
  · rw [hnone]
    rfl
  · rw [hsome]
    exact hd

/-! ## Arguments that hold no node -/

/-- Both ends of a range are checked, the lower one first. -/
theorem makes_rangeOf {good : Prop} {low high : Data} {x y : Value} (hlow : low.Stored s x)
    (hhigh : high.Stored s y) (hl : low.Literal) (hh : high.Literal) (hin : Inside low d) (hin' : Inside high d)
    (hgood : good → IsBound low ∧ IsBound high) :
    Makes s (rangeOf x y path) (fun f => (IsBound low ∧ IsBound high) ∧ f.Loaded False)
      (Rejects d path good) := by
  have hfirst : Makes s (requireNumber x (path ++ ".low")) (fun _ => IsBound low) (Rejects d path good) :=
    (makes_requireNumber hlow hl).mono (fun _ h => h) fun _ h => h.up rfl hin fun hg => (hgood hg).1
  have hsecond : Makes s (requireNumber y (path ++ ".high")) (fun _ => IsBound high) (Rejects d path good) :=
    (makes_requireNumber hhigh hh).mono (fun _ h => h) fun _ h => h.up rfl hin' fun hg => (hgood hg).2
  refine hfirst.bind fun _ h1 => hsecond.bind fun _ h2 => ?_
  exact Fact.makes_newCell.bind fun c _ => makes_pure ⟨⟨h1, h2⟩, Fact.loaded_leaf trivial rfl⟩

theorem argument_range_mapping : Argument .inRange (.mapping es) ↔ OnlyKeys es ["high", "low"] ∧
    IsBound ((under es "low").getD (.atom .null)) ∧ IsBound ((under es "high").getD (.atom .null)) := by
  constructor
  · intro h
    cases h with
    | free hk => exact hk.elim
    | range h1 h2 h3 => exact ⟨h1, h2, h3⟩
  · rintro ⟨h1, h2, h3⟩
    exact .range h1 h2 h3

theorem argument_range_list : Argument .inRange (.list ds) ↔
    ∃ low high, ds = [low, high] ∧ IsBound low ∧ IsBound high := by
  constructor
  · intro h
    cases h with
    | free hk => exact hk.elim
    | ends h1 h2 => exact ⟨_, _, rfl, h1, h2⟩
  · rintro ⟨low, high, rfl, h1, h2⟩
    exact .ends h1 h2

theorem inside_entry (es : List (Data × Data)) (name : String) :
    Inside ((under es name).getD (.atom .null)) (.mapping es) := by
  cases h : under es name with
  | none => exact ⟨fun _ => rfl, nofun⟩
  | some d => exact .under h

theorem literal_entry (hl : LiteralEntries es) (name : String) :
    ((under es name).getD (.atom .null)).Literal := by
  cases h : under es name with
  | none => exact .inl trivial
  | some d => exact literal_under hl h

theorem makes_loadRange (hd : d.Stored s v) (hl : d.Literal) :
    Makes s (loadRange v path) (fun f => Argument .inRange d ∧ f.Loaded (AdvancesIn .inRange d))
      (Rejects d path (Argument .inRange d)) := by
  have hflat : ∀ {f : Fact}, f.Loaded False → f.Loaded (AdvancesIn .inRange d) := fun hf =>
    hf.congr (iff_of_false id (not_advancesIn (by simp)))
  unfold loadRange
  cases d with
  | atom a =>
    cases hd
    exact makes_malformed (.schema nofun)
  | list ds =>
    obtain ⟨l, xs, rfl, hget, hxs⟩ := hd
    refine (makes_get hget).bind fun o ho => ?_
    subst ho
    rw [argument_range_list]
    rw [storedAll_iff] at hxs
    match hxs, hl with
    | .cons h1 (.cons h2 .nil), hl =>
      refine (makes_rangeOf h1 h2 hl.1 hl.2.1 (.item (by simp)) (.item (by simp)) ?_).mono
        (fun f hf => ⟨⟨_, _, rfl, hf.1⟩, hflat hf.2⟩) fun _ h => h
      rintro ⟨low, high, heq, hb⟩
      cases heq
      exact hb
    | .nil, _ | .cons _ .nil, _ | .cons _ (.cons _ (.cons _ _)), _ =>
      refine makes_malformed (.schema ?_)
      rintro ⟨low, high, ⟨⟩, -⟩
  | mapping es =>
    obtain ⟨l, fs, rfl, hget, hfs⟩ := hd
    refine (makes_get hget).bind fun o ho => ?_
    subst ho
    rw [argument_range_mapping]
    refine Makes.bind (makes_rejected And.left (makes_requireKeys hfs ["high", "low"])) fun _ honly => ?_
    refine (makes_entry hfs "low").bind fun x hx => (makes_entry hfs "high").bind fun y hy => ?_
    refine (makes_rangeOf hx hy (literal_entry hl _) (literal_entry hl _) (inside_entry _ _)
      (inside_entry _ _) And.right).mono (fun f hf => ⟨⟨honly, hf.1⟩, hflat hf.2⟩) fun _ h => h
  | tuple cls ds | set ds =>
    obtain ⟨xs, rfl, -⟩ := hd
    exact makes_malformed (.schema nofun)
  | _ => exact hd.elim

theorem makes_lengthOf {good : Prop} {c : Data} {x like : Value} {q seg : String} (hx : c.Stored s x)
    (hl : c.Literal) (hin : Inside c d) (hq : q = path ++ seg) (hgood : good → IsLength c) :
    Makes s (lengthOf x like q) (fun f => IsLength c ∧ f.Loaded False) (Rejects d path good) := by
  have hint : Makes s (integer x q) (fun n => c = .atom (.int n)) (Rejects d path good) := by
    refine (makes_integer hx hl).mono (fun _ h => h) fun _ h => h.up hq hin fun hg => ?_
    obtain ⟨n, -, hn⟩ := hgood hg
    exact ⟨n, hn⟩
  refine hint.bind fun n hn => ?_
  subst hn
  by_cases hneg : n < 0
  · have hbad : ¬ IsLength (.atom (.int n)) := by
      rintro ⟨m, hm, heq⟩
      cases heq
      omega
    have hself : (Data.atom (.int n)).Stored s (.int n) := rfl
    have hrejects : ∀ e, Rejects (.atom (.int n)) q (IsLength (.atom (.int n))) e → Rejects d path good e :=
      fun _ h => h.up hq hin hgood
    rw [if_pos hneg]
    refine (makes_display hself fun hw => hrejects _ (.unwritable hw)).bind fun t _ => ?_
    exact (makes_malformed (P := fun _ => False) (hrejects _ (.schema hbad))).bind fun _ h => h.elim
  · have hlength : IsLength (.atom (.int n)) := ⟨n, Int.not_lt.mp hneg, rfl⟩
    unfold Fact.mkLength
    simp only [if_neg hneg]
    exact Fact.makes_newCell.bind fun c _ => makes_pure ⟨hlength, Fact.loaded_leaf trivial rfl⟩

theorem makes_loadLength (hd : d.Stored s v) (hl : d.Literal) :
    Makes s (loadLength v path) (fun f => Argument .vecLen d ∧ f.Loaded (AdvancesIn .vecLen d))
      (Rejects d path (Argument .vecLen d)) := by
  have hflat : ∀ {f : Fact}, f.Loaded False → f.Loaded (AdvancesIn .vecLen d) := fun hf =>
    hf.congr (iff_of_false id (not_advancesIn (by simp)))
  -- whatever is not a mapping is taken as the length itself
  have hplain : (∀ es, d ≠ .mapping es) →
      Makes s (lengthOf v .null path) (fun f => Argument .vecLen d ∧ f.Loaded (AdvancesIn .vecLen d))
        (Rejects d path (Argument .vecLen d)) := by
    intro hne
    refine (makes_lengthOf hd hl (.refl d) (String.append_empty).symm ?_).mono
      (fun f hf => ⟨.length hf.1, hflat hf.2⟩) fun _ h => h
    intro h
    cases h with
    | free hk => exact hk.elim
    | length h => exact h
    | sized => exact absurd rfl (hne _)
  unfold loadLength
  cases d with
  | atom a =>
    cases hd
    exact hplain nofun
  | list ds =>
    obtain ⟨l, xs, rfl, hget, hxs⟩ := hd
    refine (makes_get hget).bind fun o ho => ?_
    subst ho
    exact hplain nofun
  | mapping es =>
    obtain ⟨l, fs, rfl, hget, hfs⟩ := hd
    refine (makes_get hget).bind fun o ho => ?_
    subst ho
    have hsized : Argument .vecLen (.mapping es) →
        OnlyKeys es ["length", "like"] ∧ ∃ c, under es "length" = some c ∧ IsLength c := by
      intro h
      cases h with
      | free hk => exact hk.elim
      | length h =>
        obtain ⟨n, -, ⟨⟩⟩ := h
      | sized h1 h2 h3 => exact ⟨h1, _, h2, h3⟩
    have hkeys : Makes s (requireKeys fs ["length", "like"] path) (fun _ => OnlyKeys es ["length", "like"])
        (Rejects (.mapping es) path (Argument .vecLen (.mapping es))) :=
      makes_rejected (fun hg => (hsized hg).1) (makes_requireKeys hfs _)
    refine hkeys.bind fun _ honly => (makes_found hfs "length").bind fun o ho => ?_
    rcases ho with ⟨hnone, rfl⟩ | ⟨c, x, hsome, rfl, hc⟩
    · refine makes_malformed (.schema fun hg => ?_)
      obtain ⟨c, hc, -⟩ := (hsized hg).2
      cases hnone.symm.trans hc
    · refine (makes_entry hfs "like").bind fun like _ => ?_
      refine (makes_lengthOf hc (literal_under hl hsome) (.under hsome) rfl ?_).mono
        (fun f hf => ⟨.sized honly hsome hf.1, hflat hf.2⟩) fun _ h => h
      intro hg
      obtain ⟨c', hc', hlength⟩ := (hsized hg).2
      cases hsome.symm.trans hc'
      exact hlength
  | tuple cls ds | set ds =>
    obtain ⟨xs, rfl, -⟩ := hd
    exact hplain nofun
  | _ => exact hd.elim

end

end Node

end Conform
