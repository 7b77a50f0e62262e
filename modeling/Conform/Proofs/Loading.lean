import Conform.Proofs.Making

/-!
# Loading declarative nodes

By induction on the number of levels, the loader answers exactly for the trees that the grammar accepts, with a
fact that is stateful if and only if a constructor of stateful facts occurs in the tree, and every fault of it says
where the tree is malformed (`makes_loadWithin`). The main results are `load_iff_accepted` and `load_outcome`.
-/

namespace Conform

open Act Data

namespace Node

section

variable {s : Store} {E : Fault → Prop} {d : Data} {ds : List Data} {es : List (Data × Data)} {v : Value}
  {xs : List Value} {fs : List (Value × Value)} {path name : String} {k : Constructor}

/-! ## Arguments that hold nodes -/

/-- Whether a loader answers for the trees up to a height as the grammar has it. -/
def LoadsBelow (s : Store) (load : Value → String → Act Fact) (n : Nat) : Prop :=
  ∀ {d : Data} {v : Value} {path : String}, d.Stored s v → d.Literal → d.height < n →
    Makes s (load v path) (fun f => Accepted d ∧ f.Loaded (Advances d)) (Rejects d path (Accepted d))

variable {load : Value → String → Act Fact} {n : Nat}

/-- The parts of a projection are there, or the argument is refused. -/
theorem makes_projection (good : Prop) {keyField : String} {allowed : List String} (hd : d.Stored s v)
    (hgood : good → ∃ es key node, d = .mapping es ∧ OnlyKeys es allowed ∧ under es keyField = some key ∧
      under es "fact" = some node) :
    Makes s (projection v keyField allowed path)
      (fun r => ∃ es key node, (d = .mapping es ∧ StoredEntries s es r.1 ∧ OnlyKeys es allowed) ∧
        (under es keyField = some key ∧ key.Stored s r.2.1) ∧ under es "fact" = some node ∧ node.Stored s r.2.2)
      (Rejects d path good) := by
  have hmapping : good → ∃ es, d = .mapping es := by
    intro hg
    obtain ⟨es, -, -, h, -⟩ := hgood hg
    exact ⟨es, h⟩
  refine Makes.bind (makes_rejected hmapping (makes_mapping hd)) fun fs hfs => ?_
  obtain ⟨es, rfl, hfs⟩ := hfs
  have hparts : good → OnlyKeys es allowed ∧ ∃ key node, under es keyField = some key ∧
      under es "fact" = some node := by
    intro hg
    obtain ⟨es', key, node, heq, honly, hkey, hnode⟩ := hgood hg
    cases heq
    exact ⟨honly, key, node, hkey, hnode⟩
  have hkeys : good → OnlyKeys es allowed := fun hg => (hparts hg).1
  refine Makes.bind (makes_rejected hkeys (makes_requireKeys hfs allowed)) fun _ honly => ?_
  refine (makes_found hfs keyField).bind fun o ho => (makes_found hfs "fact").bind fun o' ho' => ?_
  rcases ho with ⟨hnone, rfl⟩ | ⟨key, x, hkey, rfl, hx⟩
  · refine makes_malformed (.schema fun hg => ?_)
    obtain ⟨-, key, node, hkey, -⟩ := hparts hg
    cases hnone.symm.trans hkey
  · rcases ho' with ⟨hnone, rfl⟩ | ⟨node, y, hnode, rfl, hy⟩
    · refine makes_malformed (.schema fun hg => ?_)
      obtain ⟨-, key, node, -, hnode⟩ := hparts hg
      cases hnone.symm.trans hnode
    · exact makes_pure ⟨es, key, node, ⟨rfl, hfs, honly⟩, ⟨hkey, hx⟩, hnode, hy⟩

/-- The node of a projection's fact is loaded. -/
theorem makes_projected {good : Prop} {node : Data} {y : Value} (hload : LoadsBelow s load n)
    (hl : (Data.mapping es).Literal) (hn : (Data.mapping es).height ≤ n) (hnode : under es "fact" = some node)
    (hy : node.Stored s y) (hgood : good → Accepted node) :
    Makes s (load y (path ++ ".fact")) (fun f => Accepted node ∧ f.Loaded (Advances node))
      (Rejects (.mapping es) path good) := by
  obtain ⟨key, hmem⟩ := mem_of_find? hnode
  have hheight : node.height < n := Nat.lt_of_lt_of_le (Nat.lt_succ_of_le (height_le_heightEntries hmem)) hn
  exact (hload hy (literal_under hl hnode) hheight).mono (fun _ h => h)
    fun _ h => h.up rfl (.under hnode) hgood

theorem makes_loadAttr (hload : LoadsBelow s load n) (hd : d.Stored s v) (hl : d.Literal) (hn : d.height ≤ n) :
    Makes s (loadAttr load v path) (fun f => Argument .attr d ∧ f.Loaded (AdvancesIn .attr d))
      (Rejects d path (Argument .attr d)) := by
  have hattr : Argument .attr d → ∃ es name node, d = .mapping es ∧ OnlyKeys es ["fact", "name", "optional"] ∧
      (under es "name" = some (.atom (.text name)) ∧ name ≠ "") ∧ under es "fact" = some node ∧ Accepted node := by
    intro h
    cases h with
    | free hk => exact hk.elim
    | attr h1 h2 h3 h4 h5 => exact ⟨_, _, _, rfl, h1, ⟨h2, h3⟩, h4, h5⟩
  refine (makes_projection (Argument .attr d) hd ?_).bind fun r hr => ?_
  · intro hg
    obtain ⟨es, name, node, h1, h2, h3, h4, -⟩ := hattr hg
    exact ⟨es, _, node, h1, h2, h3.1, h4⟩
  obtain ⟨fs, x, y⟩ := r
  obtain ⟨es, key, node, ⟨rfl, hfs, honly⟩, ⟨hkey, hx⟩, hnode, hy⟩ := hr
  have hparts : Argument .attr (.mapping es) → (∃ name, key = .atom (.text name) ∧ name ≠ "") ∧ Accepted node := by
    intro hg
    obtain ⟨es', name, node', heq, -, ⟨hname, hne⟩, hnode', haccepted⟩ := hattr hg
    cases heq
    cases hkey.symm.trans hname
    cases hnode.symm.trans hnode'
    exact ⟨⟨name, rfl, hne⟩, haccepted⟩
  refine (makes_projected hload hl hn hnode hy fun hg => (hparts hg).2).bind fun f hf => ?_
  -- the name is looked at only after the node
  have hwrong : ∀ {P : Fact → Prop}, (¬ ∃ name, key = .atom (.text name) ∧ name ≠ "") →
      Makes s (malformed (path ++ ".name") "expected a non-empty attribute name." : Act Fact) P
        (Rejects (.mapping es) path (Argument .attr (.mapping es))) := by
    intro P hnot
    refine makes_malformed ⟨⟨".name", rfl⟩, fun _ hg => hnot (hparts hg).1⟩
  split
  · next name =>
    split
    · next hempty =>
      subst hempty
      refine hwrong ?_
      rintro ⟨name, rfl, hne⟩
      cases hx
      exact hne rfl
    · next hne =>
      obtain rfl : key = .atom (.text name) := hx.eq_atom
      have hin := hf.2.congr (advancesIn_part (.inl rfl) hnode).symm
      have hargument : Argument .attr (.mapping es) := .attr honly hkey hne hnode hf.1
      refine (makes_entry hfs "optional").bind fun o ho => (makes_view ho).bind fun c _ => ?_
      show Makes s (if c.truthy then _ else _) _ _
      split
      · exact (Fact.makes_mkPrism hin).mono (fun _ h => ⟨hargument, h⟩) fun _ h => h
      · exact (Fact.makes_mkLens hin).mono (fun _ h => ⟨hargument, h⟩) fun _ h => h
  · next hne =>
    refine hwrong ?_
    rintro ⟨name, rfl, -⟩
    exact hne name hx

theorem makes_loadItem (hload : LoadsBelow s load n) (hd : d.Stored s v) (hl : d.Literal) (hn : d.height ≤ n) :
    Makes s (loadItem load v path) (fun f => Argument .item d ∧ f.Loaded (AdvancesIn .item d))
      (Rejects d path (Argument .item d)) := by
  have hitem : Argument .item d → ∃ es key node, d = .mapping es ∧ OnlyKeys es ["fact", "key"] ∧
      under es "key" = some key ∧ under es "fact" = some node ∧ Accepted node := by
    intro h
    cases h with
    | free hk => exact hk.elim
    | item h1 h2 h3 h4 => exact ⟨_, _, _, rfl, h1, h2, h3, h4⟩
  refine (makes_projection (Argument .item d) hd ?_).bind fun r hr => ?_
  · intro hg
    obtain ⟨es, key, node, h1, h2, h3, h4, -⟩ := hitem hg
    exact ⟨es, key, node, h1, h2, h3, h4⟩
  obtain ⟨fs, x, y⟩ := r
  obtain ⟨es, key, node, ⟨rfl, hfs, honly⟩, ⟨hkey, hx⟩, hnode, hy⟩ := hr
  have haccepted : Argument .item (.mapping es) → Accepted node := by
    intro hg
    obtain ⟨es', key', node', heq, -, -, hnode', h⟩ := hitem hg
    cases heq
    cases hnode.symm.trans hnode'
    exact h
  refine (makes_projected hload hl hn hnode hy haccepted).bind fun f hf => ?_
  have hin : f.Loaded (AdvancesIn .item (.mapping es)) := hf.2.congr (advancesIn_part (.inr rfl) hnode).symm
  have hrejects : key.isWritable = false →
      Rejects (.mapping es) path (Argument .item (.mapping es)) (.misuse .invalid) := fun hw =>
    .unwritable (Bool.eq_false_iff.mpr fun h => Bool.eq_false_iff.mp hw ((Inside.under hkey).writable h))
  have hkeyed : Makes s (Accessor.ofKey x) (fun _ => True)
      (Rejects (.mapping es) path (Argument .item (.mapping es))) := by
    unfold Accessor.ofKey
    split
    · exact makes_pure trivial
    · exact (makes_render hx hrejects).bind fun _ _ => makes_pure trivial
  refine hkeyed.bind fun a _ => ?_
  exact (Fact.makes_mkLens hin).mono (fun _ h => ⟨.item honly hkey hnode hf.1, h⟩) fun _ h => h

/-- The members of a list are loaded one after the other, up to the first that is refused. -/
theorem makes_loadParts {good : Prop} (hload : LoadsBelow s load n) :
    ∀ {ds : List Data} {xs : List Value} {i : Nat}, StoredAll s ds xs →
      (∀ c ∈ ds, c.Literal ∧ c.height < n ∧ Inside c d) → (good → ∀ c ∈ ds, Accepted c) →
      Makes s (loadParts load path i xs)
        (List.Forall₂ (fun c f => Accepted c ∧ f.Loaded (Advances c)) ds) (Rejects d path good)
  | [], [], _, _, _, _ => makes_pure .nil
  | c :: ds, x :: xs, i, hd, hc, hgood => by
    obtain ⟨hl, hn, hin⟩ := hc c List.mem_cons_self
    have hhead : Makes s (load x (path ++ Fact.elementTag i)) (fun f => Accepted c ∧ f.Loaded (Advances c))
        (Rejects d path good) :=
      (hload hd.1 hl hn).mono (fun _ h => h) fun _ h => h.up rfl hin fun hg => hgood hg c List.mem_cons_self
    have htail := makes_loadParts (i := i + 1) hload hd.2 (fun e he => hc e (List.mem_cons_of_mem c he))
      fun hg e he => hgood hg e (List.mem_cons_of_mem c he)
    exact hhead.bind fun f hf => htail.bind fun fs hfs => makes_pure (.cons hf hfs)
  | [], _ :: _, _, hd, _, _ | _ :: _, [], _, hd, _, _ => hd.elim

/-- What holds of the members of a list one by one. -/
theorem loaded_members {fs : List Fact}
    (h : List.Forall₂ (fun c f => Accepted c ∧ f.Loaded (Advances c)) ds fs) :
    (∀ c ∈ ds, Accepted c) ∧ Fact.FormedAll fs ∧ (fs.any Fact.stateful = true ↔ ∃ c ∈ ds, Advances c) := by
  induction h with
  | nil => exact ⟨nofun, trivial, by simp⟩
  | cons hd _ ih =>
    obtain ⟨haccepted, hformed, hany⟩ := ih
    refine ⟨List.forall_mem_cons.mpr ⟨hd.1, haccepted⟩, ⟨hd.2.1, hformed⟩, ?_⟩
    rw [List.any_cons, Bool.or_eq_true, hd.2.2, hany]
    simp

/-- The members of a list as a node has them. -/
theorem members_inside (hl : (Data.list ds).Literal) (hn : (Data.list ds).height ≤ n) :
    ∀ c ∈ ds, c.Literal ∧ c.height < n ∧ Inside c (.list ds) := fun _ hc =>
  ⟨LiteralAll.mem hl hc, Nat.lt_of_lt_of_le (Nat.lt_succ_of_le (height_le_heightAll hc)) hn, .item hc⟩

theorem makes_loadAll (hload : LoadsBelow s load n) (hd : d.Stored s v) (hl : d.Literal) (hn : d.height ≤ n) :
    Makes s (do Fact.mkAll (← loadParts load path 0 (← items v path)))
      (fun f => Argument .and d ∧ f.Loaded (AdvancesIn .and d)) (Rejects d path (Argument .and d)) := by
  have hand : Argument .and d → ∃ ds, d = .list ds ∧ ∀ c ∈ ds, Accepted c := by
    intro h
    cases h with
    | free hk => exact hk.elim
    | members h => exact ⟨_, rfl, h⟩
  have hlist : Argument .and d → ∃ ds, d = .list ds := fun hg => (hand hg).imp fun _ h => h.1
  refine Makes.bind (makes_rejected hlist (makes_items hd)) fun xs hxs => ?_
  obtain ⟨ds, rfl, hxs⟩ := hxs
  have hall : Argument .and (.list ds) → ∀ c ∈ ds, Accepted c := by
    intro hg
    obtain ⟨ds', heq, h⟩ := hand hg
    cases heq
    exact h
  refine (makes_loadParts hload hxs (members_inside hl hn) hall).bind fun fs hfs => ?_
  obtain ⟨haccepted, hformed, hany⟩ := loaded_members hfs
  refine Fact.makes_emptyCell.bind fun c _ => makes_pure ⟨.members haccepted, ⟨rfl, hformed⟩, ?_⟩
  exact hany.trans (advancesIn_members (.inl rfl)).symm

theorem makes_loadEither (hload : LoadsBelow s load n) (hd : d.Stored s v) (hl : d.Literal)
    (hn : d.height ≤ n) :
    Makes s (loadEither load v path) (fun f => Argument .or d ∧ f.Loaded (AdvancesIn .or d))
      (Rejects d path (Argument .or d)) := by
  have hor : Argument .or d → ∃ a b, d = .list [a, b] ∧ Accepted a ∧ Accepted b := by
    intro h
    cases h with
    | free hk => exact hk.elim
    | sides h1 h2 => exact ⟨_, _, rfl, h1, h2⟩
  have hlist : Argument .or d → ∃ ds, d = .list ds := by
    intro hg
    obtain ⟨a, b, h, -⟩ := hor hg
    exact ⟨_, h⟩
  refine Makes.bind (makes_rejected hlist (makes_items hd)) fun xs hxs => ?_
  obtain ⟨ds, rfl, hxs⟩ := hxs
  have hall : Argument .or (.list ds) → ∀ c ∈ ds, Accepted c := by
    intro hg
    obtain ⟨a, b, heq, ha, hb⟩ := hor hg
    cases heq
    simp [ha, hb]
  refine (makes_loadParts hload hxs (members_inside hl hn) hall).bind fun fs hfs => ?_
  have hcount : fs.length ≠ 2 → ¬ Argument .or (.list ds) := by
    intro hne hg
    obtain ⟨a, b, heq, -⟩ := hor hg
    cases heq
    exact hne hfs.length_eq.symm
  split
  · next f g =>
    match hfs with
    | .cons hf (.cons hg .nil) =>
      refine (Fact.makes_mkEither hf.2 hg.2).mono (fun h hh => ⟨.sides hf.1 hg.1, hh.congr ?_⟩) fun _ h => h
      rw [advancesIn_members (.inr rfl)]
      simp
  · next hne =>
    refine makes_malformed (.schema (hcount fun hlength => ?_))
    match fs, hlength with
    | [a, b], _ => exact hne a b rfl

theorem makes_loadNegation (hload : LoadsBelow s load n) (hd : d.Stored s v) (hl : d.Literal)
    (hn : d.height < n) :
    Makes s (loadNegation load v path) (fun f => Argument .not d ∧ f.Loaded (AdvancesIn .not d))
      (Rejects d path (Argument .not d)) := by
  have hnot : Argument .not d → Accepted d ∧ ¬ Advances d := by
    intro h
    cases h with
    | free hk => exact hk.elim
    | negated h1 h2 => exact ⟨h1, h2⟩
  have hinner : Argument .not d → Accepted d := fun hg => (hnot hg).1
  refine Makes.bind (makes_rejected hinner (hload hd hl hn)) fun f hf => ?_
  have hmake : Makes s (Fact.mkNot f) (fun g => Argument .not d ∧ g.Loaded (AdvancesIn .not d))
      fun e => Advances d ∧ ((∃ cause, e = .refused cause) ∨ e = .misuse .invalid) :=
    (Fact.makes_mkNot hf.2).mono (fun g hg => ⟨.negated hf.1 hg.1, hg.2.congr
      (iff_of_false id fun h => hg.1 ((advancesIn_whole (.inl rfl)).mp h))⟩) fun _ h => h
  refine hmake.tryCatch fun e he => ?_
  obtain ⟨hadvances, ⟨cause, rfl⟩ | rfl⟩ := he
  · exact makes_malformed (.schema fun hg => (hnot hg).2 hadvances)
  · exact makes_malformed (.schema fun hg => (hnot hg).2 hadvances)

theorem makes_loadEach (hload : LoadsBelow s load n) (hd : d.Stored s v) (hl : d.Literal) (hn : d.height < n) :
    Makes s (do Fact.mkEach (← load v path)) (fun f => Argument .seq d ∧ f.Loaded (AdvancesIn .seq d))
      (Rejects d path (Argument .seq d)) := by
  have hseq : Argument .seq d → Accepted d := by
    intro h
    cases h with
    | free hk => exact hk.elim
    | elements h => exact h
  refine Makes.bind (makes_rejected hseq (hload hd hl hn)) fun f hf => ?_
  exact (Fact.makes_mkEach hf.2).mono
    (fun g hg => ⟨.elements hf.1, hg.congr (advancesIn_whole (.inr rfl)).symm⟩) fun _ h => h

/-- The options of a set are the items of a list. -/
theorem makes_loadMembership (hd : d.Stored s v) :
    Makes s (do
        let _ ← items v path
        Fact.mkInSet v)
      (fun f => Argument .inSet d ∧ f.Loaded (AdvancesIn .inSet d)) (Rejects d path (Argument .inSet d)) := by
  have hset : Argument .inSet d → ∃ ds, d = .list ds := by
    intro h
    cases h with
    | free hk => exact hk.elim
    | options => exact ⟨_, rfl⟩
  refine Makes.bind (makes_rejected hset (makes_items hd)) fun xs hxs => ?_
  obtain ⟨ds, rfl, -⟩ := hxs
  obtain ⟨l, xs, rfl, hget, -⟩ := hd
  have hoptions : Makes s (ask (Fact.orderOptions · (.ref l))) (· = .ok xs)
      (Rejects (.list ds) path (Argument .inSet (.list ds))) := by
    refine makes_ask fun t ht => ?_
    have helements : t.elements? (.ref l) = some xs := by
      rw [Store.elements?]
      simp only [ht l _ hget]
    simp only [Fact.orderOptions, helements]
  refine hoptions.bind fun o ho => ?_
  subst ho
  have hflat : ¬ AdvancesIn .inSet (.list ds) := not_advancesIn (by simp)
  exact Fact.makes_newCell.bind fun c _ =>
    makes_pure ⟨.options, (Fact.loaded_leaf (f := .membership c) trivial rfl).congr (iff_of_false id hflat)⟩

/-- A reason is shown as it would stand in a sentence. -/
theorem makes_loadNever (hd : d.Stored s v) :
    Makes s (if v.isNull then Fact.mkNever "declared never" else do Fact.mkNever (← Act.display v))
      (fun f => Argument .never d ∧ f.Loaded (AdvancesIn .never d)) (Rejects d path (Argument .never d)) := by
  have hflat : ∀ {f : Fact}, f.Loaded False → Argument .never d ∧ f.Loaded (AdvancesIn .never d) := fun hf =>
    ⟨.free trivial, hf.congr (iff_of_false id (not_advancesIn (by simp)))⟩
  have hnever : ∀ reason, Makes s (Fact.mkNever reason)
      (fun f => Argument .never d ∧ f.Loaded (AdvancesIn .never d)) (Rejects d path (Argument .never d)) := by
    intro reason
    refine Fact.makes_emptyCell.bind fun c _ => makes_pure (hflat ?_)
    exact Fact.loaded_leaf trivial rfl
  split
  · exact hnever _
  · exact (makes_display hd fun hw => .unwritable hw).bind fun t _ => hnever t

/-- The first integer is an integer, or nothing. -/
theorem makes_loadCounter (hd : d.Stored s v) (hl : d.Literal) :
    Makes s (if v.isNull then Fact.mkConsecutive (.int 0) else do
        let _ ← integer v path
        Fact.mkConsecutive v)
      (fun f => Argument .consecutiveInt d ∧ f.Loaded (AdvancesIn .consecutiveInt d))
      (Rejects d path (Argument .consecutiveInt d)) := by
  have hcounter : ∀ {w : Value}, Argument .consecutiveInt d → Makes s (Fact.mkConsecutive w)
      (fun f => Argument .consecutiveInt d ∧ f.Loaded (AdvancesIn .consecutiveInt d))
      (Rejects d path (Argument .consecutiveInt d)) := fun ha =>
    Fact.makes_newCell.bind fun c _ => makes_pure ⟨ha, trivial, iff_of_true rfl .counter⟩
  split
  · next hnull =>
    obtain rfl : d = .atom .null := by
      unfold Value.isNull at hnull
      split at hnull
      · exact hd.eq_atom
      · cases hnull
    exact hcounter .first
  · next hnull =>
    have hint : Argument .consecutiveInt d → ∃ n, d = .atom (.int n) := by
      intro h
      cases h with
      | free hk => exact hk.elim
      | first =>
        cases hd
        exact absurd rfl hnull
      | initial => exact ⟨_, rfl⟩
    refine Makes.bind (makes_rejected hint (makes_integer hd hl)) fun n hn => ?_
    subst hn
    exact hcounter .initial

/-! ## Nodes -/

/-- The fact of a constructor with its argument. -/
theorem makes_loadConstructor (hload : LoadsBelow s load n) (hd : d.Stored s v) (hl : d.Literal)
    (hn : d.height < n) :
    Makes s (loadConstructor load k v path) (fun f => Argument k d ∧ f.Loaded (AdvancesIn k d))
      (Rejects d path (Argument k d)) := by
  have hflat : ∀ {f : Fact}, k.IsFree → ¬ AdvancesIn k d → f.Loaded False →
      Argument k d ∧ f.Loaded (AdvancesIn k d) := fun hk hnot hf =>
    ⟨.free hk, hf.congr (iff_of_false id hnot)⟩
  have hle : d.height ≤ n := Nat.le_of_lt hn
  cases k with
  | always | same | different =>
    refine Fact.makes_emptyCell.bind fun c _ => makes_pure (hflat trivial (not_advancesIn (by simp)) ?_)
    exact Fact.loaded_leaf trivial rfl
  | eq | ne =>
    refine Fact.makes_newCell.bind fun c _ => makes_pure (hflat trivial (not_advancesIn (by simp)) ?_)
    exact Fact.loaded_leaf trivial rfl
  | distinct =>
    exact makes_alloc.bind fun l _ => Fact.makes_newCell.bind fun c _ =>
      makes_pure ⟨.free trivial, trivial, iff_of_true rfl .distinct⟩
  | never => exact makes_loadNever hd
  | inSet => exact makes_loadMembership hd
  | inRange => exact makes_loadRange hd hl
  | vecLen => exact makes_loadLength hd hl
  | consecutiveInt => exact makes_loadCounter hd hl
  | not => exact makes_loadNegation hload hd hl hn
  | and => exact makes_loadAll hload hd hl hle
  | or => exact makes_loadEither hload hd hl hle
  | attr => exact makes_loadAttr hload hd hl hle
  | item => exact makes_loadItem hload hd hl hle
  | seq => exact makes_loadEach hload hd hl hn

/-- The keys of a mapping with what stands under them. -/
theorem makes_viewed (h : StoredEntries s es fs) :
    Makes s (fs.mapM fun e => return (← Act.view e.1, e.2))
      (List.Forall₂ (fun e f => e.1 = f.1 ∧ e.2.Stored s f.2) es) E := by
  rw [storedEntries_iff] at h
  induction h with
  | nil => exact makes_pure .nil
  | @cons e f es fs hd _ ih =>
    rw [List.mapM_cons]
    have hhead : Makes s (do return (← Act.view f.1, f.2)) (· = (e.1, f.2)) E :=
      (makes_view hd.1).bind fun c hc => makes_pure (by rw [hc])
    refine hhead.bind fun r hr => ih.bind fun vs hvs => makes_pure (.cons ?_ hvs)
    rw [hr]
    exact ⟨rfl, hd.2⟩

/-- Of keys that all are those of constructors, there must be one. -/
theorem makes_single {others : List (Data × Data)} {keys : List (Data × Value)}
    (hothers : es.filter (fun e => !isLabel e.1) = others)
    (hkeys : List.Forall₂ (fun e f => e.1 = f.1 ∧ e.2.Stored s f.2) others keys)
    (hsome : ∀ f ∈ keys, ∃ k, constructor? f.1 = some k) :
    Makes s
      (match keys.filterMap fun e => (constructor? e.1).map fun k => (k, e.2) with
      | [one] => return one
      | found =>
        malformed path ("expected exactly one constructor key, got " ++ toString found.length ++
          ". Fix: nest additional constraints under 'and'."))
      (fun r => ∃ arg, Heads es r.1 arg ∧ arg.Stored s r.2)
      (Rejects (.mapping es) path (∃ k arg, Heads es k arg)) := by
  have hcount : others.length ≠ 1 → ¬ ∃ k arg, Heads es k arg := by
    rintro hne ⟨k, arg, hhead⟩
    rw [← hothers, show es.filter (fun e => !isLabel e.1) = _ from hhead] at hne
    exact hne rfl
  cases hkeys with
  | nil => exact makes_malformed (.schema (hcount nofun))
  | @cons e f others keys hef htail =>
    obtain ⟨k, hk⟩ := hsome f List.mem_cons_self
    cases htail with
    | nil =>
      simp only [List.filterMap_cons, hk, Option.map_some, List.filterMap_nil]
      refine makes_pure ⟨e.2, ?_, hef.2⟩
      show es.filter (fun e => !isLabel e.1) = _
      rw [hothers, ← eq_key_of_constructor? hk, ← hef.1]
    | @cons _ g =>
      obtain ⟨k', hk'⟩ := hsome g (List.mem_cons_of_mem _ List.mem_cons_self)
      simp only [List.filterMap_cons, hk, hk', Option.map_some]
      exact makes_malformed (.schema (hcount (by simp)))

/-- Keys that are neither the label's nor those of constructors are looked for first. -/
theorem makes_constructorOf (h : StoredEntries s es fs) :
    Makes s (constructorOf fs path) (fun r => ∃ arg, Heads es r.1 arg ∧ arg.Stored s r.2)
      (Rejects (.mapping es) path (∃ k arg, Heads es k arg)) := by
  refine (makes_viewed h).bind fun vs hvs => ?_
  have hkeys : List.Forall₂ (fun e f => e.1 = f.1 ∧ e.2.Stored s f.2) (es.filter fun e => !isLabel e.1)
      (vs.filter fun f => !isLabel f.1) :=
    List.rel_filter (fun _ _ hef => by simp only [hef.1]) hvs
  have hfirst : ∀ f ∈ vs.filter (fun f => !isLabel f.1), ∃ e ∈ es.filter (fun e => !isLabel e.1), e.1 = f.1 := by
    intro f hf
    have heq : (es.filter fun e => !isLabel e.1).map (·.1) = (vs.filter fun f => !isLabel f.1).map (·.1) := by
      rw [← List.forall₂_eq_eq_eq, List.forall₂_map_left_iff, List.forall₂_map_right_iff]
      exact hkeys.imp fun _ _ hef => hef.1
    exact List.mem_map.mp (heq ▸ List.mem_map_of_mem hf)
  dsimp only
  generalize vs.filter (fun f => !isLabel f.1) = keys at hkeys hfirst
  by_cases hempty : keys.filter (fun e => (constructor? e.1).isNone) = []
  · -- all keys beside the label name constructors, and it remains to count them
    simp only [hempty, List.isEmpty_nil, Bool.not_true, Bool.false_eq_true, if_false]
    refine makes_single rfl hkeys fun f hf => ?_
    have hnot := List.filter_eq_nil_iff.mp hempty f hf
    exact Option.ne_none_iff_exists'.mp fun hnone => hnot (by rw [hnone]; rfl)
  · -- some key names none, so that it is not the only one of a head
    have hnot : ¬ ∃ k arg, Heads es k arg := by
      rintro ⟨k, arg, hhead⟩
      refine hempty (List.filter_eq_nil_iff.mpr fun f hf => ?_)
      obtain ⟨e, he, heq⟩ := hfirst f hf
      rw [show es.filter (fun e => !isLabel e.1) = _ from hhead] at he
      rw [← heq, List.mem_singleton.mp he, constructor?_key]
      exact Bool.false_ne_true
    have hnames : Makes s ((keys.filter fun e => (constructor? e.1).isNone).mapM fun e => Act.written e.1.spliced?)
        (fun names => ∀ t ∈ names, True) (Rejects (.mapping es) path (∃ k arg, Heads es k arg)) := by
      refine makes_mapM fun f hf => makes_written fun hnone => .unwritable ?_
      obtain ⟨e, he, heq⟩ := hfirst f (List.mem_filter.mp hf).1
      refine Bool.eq_false_iff.mpr fun hw => ?_
      have hwritable : f.1.isWritable = true :=
        heq ▸ (isWritableEntries_iff.mp hw e (List.mem_filter.mp he).1).1
      rw [spliced?, if_pos hwritable] at hnone
      cases hnone
    have hunknown : (!(keys.filter fun e => (constructor? e.1).isNone).isEmpty) = true := by
      rw [Bool.not_eq_true', Bool.eq_false_iff]
      exact fun h => hempty (List.isEmpty_iff.mp h)
    rw [if_pos hunknown]
    refine hnames.bind fun names _ => ?_
    exact (makes_malformed (P := fun _ => False) (.schema hnot)).bind fun _ h => h.elim

/-- A label is put on the fact of a node that gives one. -/
theorem makes_withLabel {f : Fact} {p : Prop} (h : StoredEntries s es fs) (hf : f.Loaded p) :
    Makes s (withLabel fs f path) (fun g => Labels es ∧ g.Loaded p) (Rejects (.mapping es) path (Labels es)) := by
  refine (makes_entry h "label").bind fun x hx => ?_
  have hwrong : (∀ a, x = .atom a → a ≠ .null ∧ ∀ name : String, a = .text name → name = "") →
      Makes s (malformed (path ++ ".label") "expected a non-empty string." : Act Fact)
        (fun g => Labels es ∧ g.Loaded p) (Rejects (.mapping es) path (Labels es)) := by
    intro hx'
    refine makes_malformed ⟨⟨".label", rfl⟩, fun _ hlabels => ?_⟩
    cases hunder : under es "label" with
    | none =>
      rw [hunder] at hx
      exact (hx' _ hx).1 rfl
    | some d =>
      rw [hunder] at hx
      obtain rfl | ⟨name, hne, rfl⟩ := hlabels d hunder
      · exact (hx' _ hx).1 rfl
      · exact hne ((hx' _ hx).2 name rfl)
  have hlabels : ∀ {a : Atom}, x = .atom a → (a = .null ∨ ∃ name : String, name ≠ "" ∧ a = .text name) →
      Labels es := by
    rintro a rfl ha d hunder
    rw [hunder] at hx
    obtain rfl : d = .atom a := hx.eq_atom
    rcases ha with rfl | ⟨name, hne, rfl⟩
    · exact .inl rfl
    · exact .inr ⟨name, hne, rfl⟩
  split
  · exact makes_pure ⟨hlabels rfl (.inl rfl), hf⟩
  · next name =>
    split
    · next hempty =>
      refine hwrong ?_
      rintro a ⟨⟩
      refine ⟨nofun, ?_⟩
      rintro name' ⟨⟩
      exact hempty
    · next hne =>
      exact (Fact.makes_mkLabeled hne hf).mono (fun g hg => ⟨hlabels rfl (.inr ⟨name, hne, rfl⟩), hg⟩)
        fun _ h => h
  · next hnull htext =>
    -- neither the empty value nor a text
    refine hwrong fun a ha => ⟨?_, ?_⟩
    · rintro rfl
      exact hnull ha
    · rintro name rfl
      exact absurd ha (htext name)

/-- The loader answers for the nodes that are not nested too deep for it as the grammar has it. -/
theorem makes_loadWithin (n : Nat) : LoadsBelow s (loadWithin n) n := by
  induction n with
  | zero => exact fun _ _ hn => absurd hn (Nat.not_lt_zero _)
  | succ n ih =>
    intro d v path hd hl hn
    have hmapping : Accepted d → ∃ es, d = .mapping es := by
      rintro ⟨-, -, -⟩
      exact ⟨_, rfl⟩
    refine Makes.bind (makes_rejected hmapping (makes_mapping hd)) fun fs hfs => ?_
    obtain ⟨es, rfl, hfs⟩ := hfs
    have hheads : Accepted (.mapping es) → ∃ k arg, Heads es k arg := by
      rintro ⟨h, -, -⟩
      exact ⟨_, _, h⟩
    refine Makes.bind (makes_rejected hheads (makes_constructorOf hfs)) fun r hr => ?_
    obtain ⟨k, x⟩ := r
    obtain ⟨arg, hhead, hx⟩ := hr
    have haccepted := accepted_iff hhead
    have hheight : arg.height < n :=
      Nat.lt_of_le_of_lt (height_le_heightEntries hhead.mem) (Nat.lt_of_succ_lt_succ hn)
    have harg : Makes s (loadConstructor (loadWithin n) k x (path ++ "." ++ k.key))
        (fun f => Argument k arg ∧ f.Loaded (AdvancesIn k arg))
        (Rejects (.mapping es) path (Accepted (.mapping es))) :=
      (makes_loadConstructor ih hx (LiteralEntries.mem hl hhead.mem) hheight).mono
        (fun _ h => h) fun _ h => h.up (String.append_assoc ..) hhead.inside fun hg => (haccepted.mp hg).1
    refine harg.bind fun f hf => ?_
    have hlabels : Accepted (.mapping es) → Labels es := fun hg => (haccepted.mp hg).2
    refine (makes_rejected hlabels (makes_withLabel hfs hf.2)).mono (fun g hg => ?_) fun _ h => h
    exact ⟨haccepted.mpr ⟨hf.1, hg.1⟩, hg.2.congr (advances_iff hhead).symm⟩

end

end Node

/-! ## Loading -/

section

variable {d : Data} {v : Value} {path : String} {w : World}

/-- A tree that a value stands for is nested no deeper than the loader goes. -/
theorem exec_load (hd : d.Stored w.store v) (hl : d.Literal) (path : String) :
    (∃ f u, exec (Node.load v path) w = (.ok f, u) ∧ Node.Accepted d ∧ f.Loaded (Node.Advances d)) ∨
      ∃ e u, exec (Node.load v path) w = (.error e, u) ∧ Node.Rejects d path (Node.Accepted d) e := by
  have hlevels : d.height < w.store.objects.size + 1 := Nat.lt_succ_of_le hd.height_le
  have hmakes : Makes w.store (Node.loadWithin (w.store.objects.size + 1) v path)
      (fun f => Node.Accepted d ∧ f.Loaded (Node.Advances d)) (Node.Rejects d path (Node.Accepted d)) :=
    Node.makes_loadWithin _ hd hl hlevels
  obtain ⟨hok, herr⟩ := hmakes w (.refl _)
  have hload : exec (Node.load v path) w = exec (Node.loadWithin (w.store.objects.size + 1) v path) w := rfl
  rw [hload]
  rcases hrun : exec (Node.loadWithin (w.store.objects.size + 1) v path) w with ⟨e | f, u⟩
  · exact .inr ⟨e, u, rfl, (herr e u hrun).2⟩
  · exact .inl ⟨f, u, rfl, (hok f u hrun).2⟩

/-- The loader accepts exactly its grammar, as long as the integers in the tree can be written. A tree that is not
in it is refused in any case, with a fault that says no more than it may. -/
theorem load_iff_accepted (hd : d.Stored w.store v) (hl : d.Literal) (path : String) :
    (d.isWritable = true → ((∃ f u, exec (Node.load v path) w = (.ok f, u)) ↔ Node.Accepted d)) ∧
      (¬ Node.Accepted d → ∃ e u, exec (Node.load v path) w = (.error e, u) ∧ Node.Located d path e) := by
  rcases exec_load hd hl path with ⟨f, u, hrun, haccepted, -⟩ | ⟨e, u, hrun, hrejects⟩
  · exact ⟨fun _ => iff_of_true ⟨f, u, hrun⟩ haccepted, fun hnot => absurd haccepted hnot⟩
  · refine ⟨fun hw => ?_, fun _ => ⟨e, u, hrun, hrejects.located⟩⟩
    have hwritten : e ≠ .misuse .invalid := by
      rintro rfl
      exact Bool.eq_false_iff.mp hrejects.located hw
    refine iff_of_false ?_ (hrejects.bad hwritten)
    rintro ⟨f, u', hok⟩
    cases hrun.symm.trans hok

/-- Loading a tree that a document spells ends with a fact or with a fault of the schema, the path of which starts
with that of the node. What is left are integers and keys for which no message can be made. -/
theorem load_outcome (hd : d.Stored w.store v) (hl : d.Literal) (path : String) :
    (∃ f u, exec (Node.load v path) w = (.ok f, u)) ∨
      (∃ rest message u, exec (Node.load v path) w = (.error (.schema (path ++ rest) message), u)) ∨
      (d.isWritable = false ∧ ∃ u, exec (Node.load v path) w = (.error (.misuse .invalid), u)) ∨
      ((d.Mixed ∧ ¬ Node.Accepted d) ∧ ∃ u, exec (Node.load v path) w = (.error (.misuse .unsupported), u)) := by
  rcases exec_load hd hl path with ⟨f, u, hrun, -⟩ | ⟨e, u, hrun, hrejects⟩
  · exact .inl ⟨f, u, hrun⟩
  · have hlocated : Node.Located d path e := hrejects.located
    cases e with
    | schema q message =>
      obtain ⟨rest, rfl⟩ := hlocated
      exact .inr (.inl ⟨rest, message, u, hrun⟩)
    | misuse m =>
      cases m with
      | invalid => exact .inr (.inr (.inl ⟨hlocated, u, hrun⟩))
      | unsupported => exact .inr (.inr (.inr ⟨⟨hlocated, hrejects.bad nofun⟩, u, hrun⟩))
      | _ => exact hlocated.elim
    | _ => exact hlocated.elim

end

/-- The node of whatever has not one item, under a label. -/
def pluralNode : Data :=
  .mapping [(.atom (.text "label"), .atom (.text "plural")),
    (.atom (.text "not"), .mapping [(.atom (.text "vec_len"), .atom (.int 1))])]

/-- A list of nodes, of which the second has no key that is known. -/
def misspeltNode : Data :=
  .mapping [(.atom (.text "and"), .list [.mapping [(.atom (.text "same"), .atom .null)],
    .mapping [(.atom (.text "eqq"), .atom (.int 3))]])]

/-- The world in which a tree has just been built. -/
def freshWorld (d : Data) : World where
  store := (Store.build d .empty).2
  source := .tape [0] 0
  log := #[]

theorem accepted_pluralNode : Node.Accepted pluralNode := by
  have hlength : Node.Heads [(.atom (.text "vec_len"), .atom (.int 1))] .vecLen (.atom (.int 1)) := by
    simp [Node.Heads, Node.isLabel]
    rfl
  have hinner : Node.Accepted (.mapping [(.atom (.text "vec_len"), .atom (.int 1))]) :=
    .node hlength (.length ⟨1, by decide, rfl⟩) (by simp [Node.Labels, Node.under, find?])
  have hflat : ¬ Node.Advances (.mapping [(.atom (.text "vec_len"), .atom (.int 1))]) := by
    rw [Node.advances_iff hlength]
    exact Node.not_advancesIn (by simp)
  refine .node ?_ (.negated hinner hflat) (by simp [Node.Labels, Node.under, find?])
  simp [Node.Heads, Node.isLabel]
  rfl

/-- A node in the grammar is loaded, where it has been built. -/
theorem load_iff_accepted_plural :
    ∃ f u, exec (Node.load (Store.build pluralNode .empty).1 "fact") (freshWorld pluralNode) = (.ok f, u) := by
  have hl : pluralNode.Literal := by simp [pluralNode, Literal, LiteralEntries, Atom.IsLiteral, Atom.IsScalar]
  have hd : pluralNode.Stored (freshWorld pluralNode).store (Store.build pluralNode .empty).1 :=
    (stored_build hl).2
  have hw : pluralNode.isWritable = true := by decide +kernel
  exact ((load_iff_accepted hd hl "fact").1 hw).mpr accepted_pluralNode

/-- Whether loading has ended with a node that is refused. -/
def isRefused : Except Fault Fact → Bool
  | .error (.schema _ _) => true
  | _ => false

/-- A node that is not in the grammar is refused where it is malformed. -/
theorem load_outcome_misspelt :
    ∃ rest message u, exec (Node.load (Store.build misspeltNode .empty).1 "fact") (freshWorld misspeltNode) =
      (.error (.schema ("fact" ++ rest) message), u) := by
  have hl : misspeltNode.Literal := by
    simp [misspeltNode, Literal, LiteralAll, LiteralEntries, Atom.IsLiteral, Atom.IsScalar]
  have hd : misspeltNode.Stored (freshWorld misspeltNode).store (Store.build misspeltNode .empty).1 :=
    (stored_build hl).2
  have hschema : isRefused (exec (Node.load (Store.build misspeltNode .empty).1 "fact") (freshWorld misspeltNode)).1 =
      true := by
    decide +kernel
  rcases load_outcome hd hl "fact" with ⟨f, u, hrun⟩ | hrun | ⟨-, u, hrun⟩ | ⟨-, u, hrun⟩
  · rw [hrun] at hschema
    cases hschema
  · exact hrun
  · rw [hrun] at hschema
    cases hschema
  · rw [hrun] at hschema
    cases hschema

end Conform
