import Conform.Proofs.Nesting

/-!
# Where a schema error is located

`Node.Encloses w n v rest` says that a value has a node somewhere inside, nested through conjunctions, alternatives,
negations, sequences and projections, with the path `rest` from the one to the other. Each mapping on the way has one
constructor key and none that is unknown, each projection has the keys it must have and no others, and earlier
members of lists are nodes that are loaded. Nothing is said of what comes later: further members, labels, names of
attributes, and how many members an alternative has.

The loader looks at all of this in order. So if the inner node is refused, the outer one is, with the same path and
message (`load_enclosing`).
-/

namespace Conform

open Act Data

namespace Node

/-! ## Nodes inside nodes -/

/-- Whether a value is a node that is loaded, at whatever path. -/
def IsLoaded (w : World) (v : Value) : Prop := ∃ path f u, exec (load v path) w = (.ok f, u)

/-- Whether the argument of a constructor is or has a node, at the end of a segment of the path. All that the loader
looks at before the node is as it should be. -/
inductive Holds (w : World) : Constructor → Value → Value → String → Prop
  | member {k : Constructor} {l : Loc} {before after : List Value} {n : Value} : k = .and ∨ k = .or →
    w.store.get? l = some (.list (before ++ n :: after)) → (∀ x ∈ before, IsLoaded w x) →
    Holds w k (.ref l) n (Fact.elementTag before.length)
  | whole {k : Constructor} {n : Value} : k = .not ∨ k = .seq → Holds w k n n ""
  | part {k : Constructor} {keyField : String} {allowed : List String} {l : Loc} {es : List (Value × Value)}
    {key n : Value} :
    k = .attr ∧ keyField = "name" ∧ allowed = ["fact", "name", "optional"] ∨
      k = .item ∧ keyField = "key" ∧ allowed = ["fact", "key"] →
    w.store.get? l = some (.mapping es) → (∀ e ∈ es, ∃ name ∈ allowed, w.store.view e.1 = .atom (.text name)) →
    w.store.lookup es (.atom (.text keyField)) = some key → w.store.lookup es (.atom (.text "fact")) = some n →
    Holds w k (.ref l) n ".fact"

/-- Whether a node is another one or somewhere inside it, at the end of the rest of a path. -/
inductive Encloses (w : World) (n : Value) : Value → String → Prop
  | hole : Encloses w n n ""
  | within {l : Loc} {es : List (Value × Value)} {k : Constructor} {arg inner : Value} {segment rest : String} :
    w.store.get? l = some (.mapping es) →
    (viewed es w.store).filter (fun e => !isLabel e.1) = [(.atom (.text k.key), arg)] →
    Holds w k arg inner segment → Encloses w n inner rest →
    Encloses w n (.ref l) ("." ++ k.key ++ segment ++ rest)

variable {w w' : World} {v n arg inner : Value} {k : Constructor} {p q segment rest message : String} {l : Loc}
  {es : List (Value × Value)}

/-- What a whole store has is bounded. -/
theorem Holds.bound (h : Holds w k arg inner segment) (hs : w.store.Whole) (harg : arg.bound ≤ w.store.size) :
    inner.bound ≤ w.store.size := by
  cases h with
  | member _ hl _ => exact Value.boundAll_le.mp (hs.object hl) inner (List.mem_append_right _ List.mem_cons_self)
  | whole => exact harg
  | part _ hl _ _ hn => exact Store.bound_of_lookup (hs.object hl) hn

theorem bound_of_heads (hs : w.store.Whole) (hl : w.store.get? l = some (.mapping es)) {key : Data}
    (h : (viewed es w.store).filter (fun e => !isLabel e.1) = [(key, arg)]) : arg.bound ≤ w.store.size := by
  have hmem : (key, arg) ∈ (viewed es w.store).filter fun e => !isLabel e.1 := h ▸ List.mem_singleton_self _
  obtain ⟨e, he, heq⟩ := List.mem_map.mp (List.mem_filter.mp hmem).1
  cases heq
  exact (Store.bound_of_entry (hs.object hl) he).2

/-! ## Running what comes first -/

/-- Whether a loader refuses a node at a path wherever a store has grown to. -/
def Refuses (s : Store) (load : Value → String → Act Fact) (v : Value) (p : String) (e : Fault) : Prop :=
  ∀ w, s.Extends w.store → ∃ u, exec (load v p) w = (.error e, u)

theorem exec_mapping (hl : w.store.get? l = some (.mapping es)) (p : String) :
    exec (mapping (.ref l) p) w = (.ok es, w) := by
  simp [mapping, exec_bind, hl]

theorem exec_items {xs : List Value} (hl : w.store.get? l = some (.list xs)) (p : String) :
    exec (items (.ref l) p) w = (.ok xs, w) := by
  simp [items, exec_bind, hl]

/-- A constructor key without others beside the label is found. -/
theorem exec_constructorOf (h : (viewed es w.store).filter (fun e => !isLabel e.1) = [(.atom (.text k.key), arg)])
    (p : String) : exec (constructorOf es p) w = (.ok (k, arg), w) := by
  unfold constructorOf
  rw [mapM_view, exec_bind, exec_ask]
  simp only [h, List.filter_cons, constructor?_key, Option.isNone_some, Bool.false_eq_true, if_false, List.filter_nil,
    List.isEmpty_nil, Bool.not_true, List.filterMap_cons, Option.map_some, List.filterMap_nil]
  rfl

/-- Keys that are all allowed are let pass. -/
theorem exec_requireKeys {allowed : List String}
    (h : ∀ e ∈ es, ∃ name ∈ allowed, w.store.view e.1 = .atom (.text name)) (p : String) :
    exec (requireKeys es allowed p) w = (.ok (), w) := by
  have hnone : (w.store.viewAll (es.map (·.1))).filter (fun d => !isAllowed allowed d) = [] := by
    refine List.filter_eq_nil_iff.mpr fun d hd => ?_
    obtain ⟨key, hkey, rfl⟩ := List.mem_map.mp hd
    obtain ⟨e, he, rfl⟩ := List.mem_map.mp hkey
    obtain ⟨name, hname, hview⟩ := h e he
    rw [hview, isAllowed_iff.mpr ⟨name, hname, rfl⟩]
    exact Bool.false_ne_true
  rw [requireKeys_eq, exec_bind, exec_viewAll]
  have hsorted : sorted? [] = some [] := by simp [sorted?, sortedBy?]
  simp only [hnone, hsorted]
  rfl

/-- The parts of a projection are read once its keys have been looked at. -/
theorem exec_projection {keyField : String} {allowed : List String} {key : Value}
    (hl : w.store.get? l = some (.mapping es))
    (hallowed : ∀ e ∈ es, ∃ name ∈ allowed, w.store.view e.1 = .atom (.text name))
    (hkey : w.store.lookup es (.atom (.text keyField)) = some key)
    (hn : w.store.lookup es (.atom (.text "fact")) = some n) (p : String) :
    exec (projection (.ref l) keyField allowed p) w = (.ok (es, key, n), w) := by
  simp only [projection, exec_bind, exec_mapping hl, exec_requireKeys hallowed, entry?, exec_ask, hkey, hn, exec_pure]

section

variable {s : Store} {load : Value → String → Act Fact} {e : Fault}

/-- The members of a list are loaded up to the one that is refused. -/
theorem exec_loadParts {before : List Value} (after : List Value) {i : Nat}
    (hbefore : ∀ x ∈ before, ∀ w p, s.Extends w.store → ∃ f u, exec (load x p) w = (.ok f, u) ∧ w.store.Extends u.store)
    (hn : Refuses s load n (p ++ Fact.elementTag (i + before.length)) e) (hw : s.Extends w.store) :
    ∃ u, exec (loadParts load p i (before ++ n :: after)) w = (.error e, u) := by
  induction before generalizing i w with
  | nil =>
    obtain ⟨u, hu⟩ := hn w hw
    rw [List.length_nil, Nat.add_zero] at hu
    exact ⟨u, by rw [List.nil_append, loadParts, exec_bind, hu]⟩
  | cons x before ih =>
    obtain ⟨f, u, hu, hgrow⟩ := hbefore x List.mem_cons_self w (p ++ Fact.elementTag i) hw
    rw [List.length_cons, ← Nat.add_assoc, Nat.add_right_comm] at hn
    obtain ⟨u', hu'⟩ := ih (fun y hy => hbefore y (List.mem_cons_of_mem x hy)) hn (hw.trans hgrow)
    refine ⟨u', ?_⟩
    rw [List.cons_append, loadParts, exec_bind, hu]
    dsimp only
    rw [exec_bind, hu']

/-- What a constructor's argument holds is loaded before anything else is made of it. -/
theorem Holds.refused (h : Holds w k arg inner segment)
    (hloaded : ∀ x, x.bound ≤ w.store.size → IsLoaded w x → ∀ w' p, w.store.Extends w'.store →
      ∃ f u, exec (load x p) w' = (.ok f, u) ∧ w'.store.Extends u.store)
    (hs : w.store.Whole) (hn : Refuses w.store load inner (p ++ segment) e) :
    Refuses w.store (loadConstructor load k) arg p e := by
  intro w' hw
  cases h with
  | @member l before after _ hk hl hbefore =>
    have hbounds := Value.boundAll_le.mp (hs.object hl)
    rw [← Nat.zero_add before.length] at hn
    have hloads := fun x hx => hloaded x (hbounds x (List.mem_append_left _ hx)) (hbefore x hx)
    obtain ⟨u, hu⟩ := exec_loadParts after hloads hn hw
    have hitems := exec_items (hw.grows _ _ hl) p
    refine ⟨u, ?_⟩
    rcases hk with rfl | rfl
    · simp only [loadConstructor, exec_bind, hitems, hu]
    · simp only [loadConstructor, loadEither, exec_bind, hitems, hu]
  | whole hk =>
    rw [String.append_empty] at hn
    obtain ⟨u, hu⟩ := hn w' hw
    refine ⟨u, ?_⟩
    rcases hk with rfl | rfl
    · simp only [loadConstructor, loadNegation, exec_bind, hu]
    · simp only [loadConstructor, exec_bind, hu]
  | @part keyField allowed l es key _ hk hl hallowed hkey hnode =>
    have hes := hs.object hl
    have hallowed' : ∀ e ∈ es, ∃ name ∈ allowed, w'.store.view e.1 = .atom (.text name) := by
      intro e he
      rw [Store.view_extends hs hw (Store.bound_of_entry hes he).1]
      exact hallowed e he
    rw [← Store.lookup_extends hs hw hes] at hkey hnode
    have hprojection := exec_projection (hw.grows _ _ hl) hallowed' hkey hnode p
    obtain ⟨u, hu⟩ := hn w' hw
    refine ⟨u, ?_⟩
    rcases hk with ⟨rfl, rfl, rfl⟩ | ⟨rfl, rfl, rfl⟩
    · simp only [loadConstructor, loadAttr, exec_bind, hprojection, hu]
    · simp only [loadConstructor, loadItem, exec_bind, hprojection, hu]

end

/-- What is loaded at its place is so wherever the store has grown to. -/
theorem isLoaded_extends {m : Nat} (hs : w.store.Whole) (hm : w.store.size < m) (x : Value)
    (hx : x.bound ≤ w.store.size) (h : IsLoaded w x) (w' : World) (p : String) (hw : w.store.Extends w'.store) :
    ∃ f u, exec (loadWithin m x p) w' = (.ok f, u) ∧ w'.store.Extends u.store := by
  obtain ⟨path, f, u, hrun⟩ := h
  exact exec_loadWithin_of_ok hs hx hrun hm hw p

/-- A mapping around what is refused is refused alike, with a level more. -/
theorem Holds.refused_within {m : Nat} {e : Fault} (h : Holds w k arg inner segment) (hs : w.store.Whole)
    (hl : w.store.get? l = some (.mapping es))
    (hheads : (viewed es w.store).filter (fun e => !isLabel e.1) = [(.atom (.text k.key), arg)])
    (hm : w.store.size < m) (hn : Refuses w.store (loadWithin m) inner (p ++ "." ++ k.key ++ segment) e) :
    Refuses w.store (loadWithin (m + 1)) (.ref l) p e := by
  intro w' hw
  obtain ⟨u, hu⟩ := h.refused (isLoaded_extends hs hm) hs hn w' hw
  rw [← viewed_extends hs hw (hs.object hl)] at hheads
  refine ⟨u, ?_⟩
  simp only [loadWithin, exec_bind, exec_mapping (hw.grows _ _ hl), exec_constructorOf hheads, hu]

/-- What encloses a node that is refused is refused alike, with as many more levels as there are mappings between. -/
theorem Encloses.refused {m : Nat} {e : Fault} (h : Encloses w n v rest) (hs : w.store.Whole)
    (hm : w.store.size < m) (hn : Refuses w.store (loadWithin m) n (p ++ rest) e) :
    ∃ m', w.store.size < m' ∧ Refuses w.store (loadWithin m') v p e := by
  induction h generalizing p with
  | hole =>
    rw [String.append_empty] at hn
    exact ⟨m, hm, hn⟩
  | @within l es k arg inner segment rest hl hheads hholds _ ih =>
    have hpath : p ++ ("." ++ k.key ++ segment ++ rest) = p ++ "." ++ k.key ++ segment ++ rest := by
      simp only [String.append_assoc]
    rw [hpath] at hn
    obtain ⟨m', hm', hinner⟩ := ih hn
    exact ⟨m' + 1, Nat.lt_succ_of_lt hm', hholds.refused_within hs hl hheads hm' hinner⟩

theorem Encloses.bound (h : Encloses w n v rest) (hs : w.store.Whole) (hv : v.bound ≤ w.store.size) :
    n.bound ≤ w.store.size := by
  induction h with
  | hole => exact hv
  | within hl hheads hholds _ ih => exact ih (hholds.bound hs (bound_of_heads hs hl hheads))

end Node

variable {w u : World} {v n : Value} {path rest q message : String}

/-- Schema errors are located compositionally: if a node is refused, then what it is nested in is refused with the
same path and message. -/
theorem load_enclosing (hs : w.store.Whole) (hv : v.bound ≤ w.store.size) (hk : Node.Encloses w n v rest)
    (hn : exec (Node.load n (path ++ rest)) w = (.error (.schema q message), u)) :
    ∃ u', exec (Node.load v path) w = (.error (.schema q message), u') := by
  have hbound := hk.bound hs hv
  have hrefuses : Node.Refuses w.store (Node.loadWithin (w.store.size + 1)) n (path ++ rest) (.schema q message) :=
    fun w' hw => Node.exec_loadWithin_of_schema hs hbound hn (Nat.lt_succ_self _) hw
  obtain ⟨m, hm, hv'⟩ := hk.refused hs (Nat.lt_succ_self _) hrefuses
  obtain ⟨u', hu'⟩ := hv' w (.refl _)
  exact Node.exec_load_of_schema hs hv hm hu'

/-- A node with an unknown constructor, nested in all six ways. Around it are a label that is no text, a name that is
none either, an alternative with one member, and a member that is no node, all of which come later. -/
def nestedDocument : World where
  store := ⟨#[.mapping [(.text "eqq", .int 3)],
    .mapping [(.text "key", .int 0), (.text "fact", .ref 0)],
    .mapping [(.text "item", .ref 1)],
    .mapping [(.text "name", .int 5), (.text "fact", .ref 2)],
    .mapping [(.text "attr", .ref 3)],
    .mapping [(.text "seq", .ref 4)],
    .mapping [(.text "not", .ref 5)],
    .list [.ref 6],
    .mapping [(.text "label", .int 7), (.text "or", .ref 7)],
    .mapping [(.text "same", .null)],
    .list [.ref 9, .ref 8, .int 3],
    .mapping [(.text "and", .ref 10)]], spelledMarks, []⟩
  source := .tape [0] 0
  log := #[]

/-- What is said of the unknown constructor. -/
def unknownFault : Fault :=
  .schema "fact.and[1].or[0].not.seq.attr.fact.item.fact"
    ("unknown constructor(s) ['eqq']. Fix: use one of " ++ Node.keysText (Node.constructors.map (·.1)) ++ ".")

/-- The fault that loading has ended with, if it has. -/
def faultOf (r : Except Fault Fact × World) : Option Fault :=
  match r.1 with
  | .ok _ => none
  | .error e => some e

theorem exists_of_faultOf {r : Except Fault Fact × World} {e : Fault} (h : faultOf r = some e) :
    ∃ u, r = (.error e, u) := by
  obtain ⟨f | e', u⟩ := r
  · cases h
    exact ⟨u, rfl⟩
  · cases h

theorem isLoaded_same : Node.IsLoaded nestedDocument (.ref 9) := by
  have hnone : faultOf (exec (Node.load (.ref 9) "fact") nestedDocument) = none := by decide +kernel
  rcases hrun : exec (Node.load (.ref 9) "fact") nestedDocument with ⟨e | f, u⟩
  · rw [hrun] at hnone
    cases hnone
  · exact ⟨"fact", f, u, hrun⟩

theorem encloses_nestedDocument :
    Node.Encloses nestedDocument (.ref 0) (.ref 11) ".and[1].or[0].not.seq.attr.fact.item.fact" := by
  have hview (t : String) : nestedDocument.store.view (.text t) = .atom (.text t) := rfl
  have hheads (k : Node.Constructor) (arg : Value) :
      (Node.viewed [(.text k.key, arg)] nestedDocument.store).filter (fun e => !Node.isLabel e.1) =
        [(.atom (.text k.key), arg)] := by
    have hk : Node.isLabel (.atom (.text k.key)) = false := by cases k <;> decide +kernel
    simp [Node.viewed, hview, hk]
  have hor : (Node.viewed [(.text "label", .int 7), (.text "or", .ref 7)] nestedDocument.store).filter
      (fun e => !Node.isLabel e.1) = [(.atom (.text "or"), .ref 7)] := by
    simp [Node.viewed, hview, Node.isLabel]
  have hkey : Node.Holds nestedDocument .item (.ref 1) (.ref 0) ".fact" := by
    refine @Node.Holds.part _ .item "key" ["fact", "key"] 1 _ (.int 0) _ (.inr ⟨rfl, rfl, rfl⟩) rfl ?_ ?_ ?_
    · simp [hview]
    · simp [Store.lookup_cons, hview]
    · simp [Store.lookup_cons, hview]
  have hname : Node.Holds nestedDocument .attr (.ref 3) (.ref 2) ".fact" := by
    refine @Node.Holds.part _ .attr "name" ["fact", "name", "optional"] 3 _ (.int 5) _ (.inl ⟨rfl, rfl, rfl⟩) rfl
      ?_ ?_ ?_
    · simp [hview]
    · simp [Store.lookup_cons, hview]
    · simp [Store.lookup_cons, hview]
  have hside : Node.Holds nestedDocument .or (.ref 7) (.ref 6) "[0]" :=
    @Node.Holds.member _ .or 7 [] [] (.ref 6) (.inr rfl) rfl (by simp)
  have hmember : Node.Holds nestedDocument .and (.ref 10) (.ref 8) "[1]" :=
    @Node.Holds.member _ .and 10 [.ref 9] [.int 3] (.ref 8) (.inl rfl) rfl (by simpa using isLoaded_same)
  have hinner : Node.Encloses nestedDocument (.ref 0) (.ref 4) ".attr.fact.item.fact" :=
    .within rfl (hheads .attr (.ref 3)) hname (.within rfl (hheads .item (.ref 1)) hkey .hole)
  have hmiddle : Node.Encloses nestedDocument (.ref 0) (.ref 6) ".not.seq.attr.fact.item.fact" :=
    .within rfl (hheads .not (.ref 5)) (.whole (.inl rfl))
      (.within rfl (hheads .seq (.ref 4)) (.whole (.inr rfl)) hinner)
  exact .within rfl (hheads .and (.ref 10)) hmember (.within (k := .or) rfl hor hside hmiddle)

/-- The unknown constructor is told of where it is. -/
theorem load_enclosing_nested :
    (∃ u, exec (Node.load (.ref 0) ("fact" ++ ".and[1].or[0].not.seq.attr.fact.item.fact")) nestedDocument =
      (.error unknownFault, u)) ∧
    ∃ u, exec (Node.load (.ref 11) "fact") nestedDocument = (.error unknownFault, u) := by
  have hfault : faultOf (exec (Node.load (.ref 0) ("fact" ++ ".and[1].or[0].not.seq.attr.fact.item.fact"))
      nestedDocument) = some unknownFault := by
    decide +kernel
  obtain ⟨u, hu⟩ := exists_of_faultOf hfault
  exact ⟨⟨u, hu⟩, load_enclosing (.of_bound (by decide) rfl) (by decide) encloses_nestedDocument hu⟩

end Conform
