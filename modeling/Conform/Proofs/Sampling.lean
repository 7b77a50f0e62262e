import Mathlib
import Conform.Proofs.Founding
import Conform.Proofs.Lines
import Conform.Proofs.Sound

/-!
# Runs of the sampler

A run that checks the values of its input prints all violations, or nothing at all (`run_check`), as long as its output
takes every line. The values of the input are built after the document has been loaded, so that they are apart from
what the fact notes, and `Fact.safe_check` says that no check of theirs raises a fault for which the run is not
prepared.
-/

namespace Conform

open Act Data

/-! ## Values beside a fact -/

/-- The places of the objects from one number on and before another one, among them all that attributes are given
to. -/
def between (m n : Nat) : Set Place := {p | ∀ l, p = .object l → m ≤ l ∧ l < n}

theorem between_mono {m n k : Nat} (h : n ≤ k) : between m n ⊆ between m k :=
  fun _ hp l hl => ⟨(hp l hl).1, Nat.lt_of_lt_of_le (hp l hl).2 h⟩

namespace Store

variable {s t : Store} {m : Nat}

/-- The first objects of a store still lead to each other only when others have been added. -/
theorem Extends.closed (h : s.Extends t) (hs : s.Closed (upTo s.size)) : t.Closed (upTo s.size) := by
  intro p hp q hq
  cases p with
  | object l =>
    obtain ⟨o, ho, hq⟩ := hq
    obtain ⟨o', ho'⟩ := exists_get? (hp l rfl)
    rw [h.grows l o' ho'] at ho
    cases ho
    exact hs _ hp q ⟨o, ho', hq⟩
  | attributes w =>
    obtain ⟨a, name, x, ha, hmem, hq⟩ := hq
    exact hs _ hp q ⟨a, name, x, ha, h.given ▸ hmem, hq⟩

/-- Where nothing is new and nothing is given to classes, nothing leads anywhere. -/
theorem closed_between (h : s.given = []) : s.Closed (between s.size s.size) := by
  intro p hp q hq
  cases p with
  | object l => exact absurd (hp l rfl).2 (Nat.not_lt.mpr (hp l rfl).1)
  | attributes w =>
    obtain ⟨a, name, x, -, hmem, -⟩ := hq
    rw [h] at hmem
    cases hmem

/-- A new object that leads to new ones only keeps them apart from all others. -/
theorem Closed.alloc_between (h : s.Closed (between m s.size)) {o : Object} (ho : o.Within (between m s.size)) :
    (s.alloc o).2.Closed (between m (s.alloc o).2.size) := by
  have hmono : between m s.size ⊆ between m (s.alloc o).2.size := between_mono (by simp)
  intro p hp q hq
  cases p with
  | object l =>
    obtain ⟨o', ho', hq⟩ := hq
    rw [get?_alloc] at ho'
    split at ho'
    · cases ho'
      exact hmono (ho q hq)
    · have hl : Place.object l ∈ between m s.size := by
        rintro k ⟨⟩
        exact ⟨(hp l rfl).1, lt_size_of_get? ho'⟩
      exact hmono (h _ hl q ⟨o', ho', hq⟩)
  | attributes w =>
    have hw : Place.attributes w ∈ between m s.size := nofun
    exact hmono (h _ hw q hq)

end Store

namespace Data

variable {m : Nat}

mutual

/-- What a tree is built of is new, and leads to what is new only. -/
theorem build_between : ∀ {d : Data} {s : Store}, d.Literal → m ≤ s.size → s.Closed (between m s.size) →
    s.Extends (Store.build d s).2 ∧ (Store.build d s).2.Closed (between m (Store.build d s).2.size) ∧
      (Store.build d s).1.Within (between m (Store.build d s).2.size)
  | .atom a, s, hl, _, hs => by
    rw [build_literal hl]
    exact ⟨.refl s, hs, Value.within_plain (owner?_of_isLiteral hl)⟩
  | .list ds, s, hl, hm, hs => by
    obtain ⟨hext, hclosed, hxs⟩ := buildAll_between hl hm hs
    refine ⟨hext.trans (.alloc _ _), hclosed.alloc_between (Object.within_list.mpr hxs), ?_⟩
    rw [Store.build, Value.within_ref]
    rintro l ⟨⟩
    exact ⟨Nat.le_trans hm hext.size_le, by simp [Store.alloc, Store.size]⟩
  | .mapping es, s, hl, hm, hs => by
    obtain ⟨hext, hclosed, hes⟩ := buildEntries_between hl hm hs
    refine ⟨hext.trans (.alloc _ _), hclosed.alloc_between (Object.within_mapping.mpr hes), ?_⟩
    rw [Store.build, Value.within_ref]
    rintro l ⟨⟩
    exact ⟨Nat.le_trans hm hext.size_le, by simp [Store.alloc, Store.size]⟩
  | .tuple _ ds, s, hl, hm, hs => by
    obtain ⟨hext, hclosed, hxs⟩ := buildAll_between hl hm hs
    exact ⟨hext, hclosed, Value.within_tuple.mpr hxs⟩
  | .set ds, s, hl, hm, hs => by
    obtain ⟨hext, hclosed, hxs⟩ := buildAll_between hl hm hs
    exact ⟨hext, hclosed, Value.within_set.mpr hxs⟩
  | .record _ _, _, hl, _, _ | .elided _, _, hl, _, _ => hl.elim

theorem buildAll_between : ∀ {ds : List Data} {s : Store}, LiteralAll ds → m ≤ s.size →
    s.Closed (between m s.size) →
    s.Extends (Store.buildAll ds s).2 ∧ (Store.buildAll ds s).2.Closed (between m (Store.buildAll ds s).2.size) ∧
      ∀ v ∈ (Store.buildAll ds s).1, v.Within (between m (Store.buildAll ds s).2.size)
  | [], s, _, _, hs => ⟨.refl s, hs, nofun⟩
  | d :: ds, s, hl, hm, hs => by
    obtain ⟨hext, hclosed, hv⟩ := build_between hl.1 hm hs
    obtain ⟨hext', hclosed', hvs⟩ := buildAll_between hl.2 (Nat.le_trans hm hext.size_le) hclosed
    refine ⟨hext.trans hext', hclosed', List.forall_mem_cons.mpr ⟨hv.mono (between_mono hext'.size_le), hvs⟩⟩

theorem buildEntries_between : ∀ {es : List (Data × Data)} {s : Store}, LiteralEntries es → m ≤ s.size →
    s.Closed (between m s.size) →
    s.Extends (Store.buildEntries es s).2 ∧
      (Store.buildEntries es s).2.Closed (between m (Store.buildEntries es s).2.size) ∧
      ∀ e ∈ (Store.buildEntries es s).1, e.1.Within (between m (Store.buildEntries es s).2.size) ∧
        e.2.Within (between m (Store.buildEntries es s).2.size)
  | [], s, _, _, hs => ⟨.refl s, hs, nofun⟩
  | (k, d) :: es, s, hl, hm, hs => by
    obtain ⟨⟨⟨a, ha, rfl⟩, hd⟩, hes⟩ := hl
    obtain ⟨hext, hclosed, hv⟩ := build_between hd hm hs
    obtain ⟨hext', hclosed', hvs⟩ := buildEntries_between hes (Nat.le_trans hm hext.size_le) hclosed
    simp only [Store.buildEntries, build_literal ha.isLiteral]
    refine ⟨hext.trans hext', hclosed', List.forall_mem_cons.mpr ⟨⟨?_, ?_⟩, hvs⟩⟩
    · exact Value.within_plain (owner?_of_isScalar ha)
    · exact hv.mono (between_mono hext'.size_le)

end

end Data

namespace Fact

variable {s t : Store} {f : Fact} {ds : List Data}

/-- What a founded fact notes is neither among the objects that were there before, nor among later ones. -/
theorem Founded.progress (hf : f.Founded s.size t) {u : Store} (htu : t.Extends u) {l : Loc}
    (hl : l ∈ progress u f.nodes) : s.size ≤ l ∧ l < t.size := by
  obtain ⟨n, hn, ⟨hk, rfl⟩ | ⟨hk, hslots⟩⟩ := hl
  · obtain ⟨hle, a, b, k, -, hget⟩ := (hf.2 n hn).counter hk
    exact ⟨hle, Store.lt_size_of_get? hget⟩
  · obtain ⟨l', hle, hget, hlist⟩ := (hf.2 n hn).memory hk
    rw [Store.slots_of_get? (htu.grows _ _ hget)] at hslots
    cases hslots
    exact ⟨hle, Store.lt_size_of_get? hlist⟩

/-- The cells of a founded fact hold what they should. -/
theorem Founded.primed (hf : f.Founded s.size t) {u : Store} (htu : t.Extends u) : Primed u f.nodes where
  counters := by
    intro n hn hk
    obtain ⟨-, a, b, k, hb, hget⟩ := (hf.2 n hn).counter hk
    exact ⟨a, b, k, hb, htu.grows _ _ hget⟩
  memories := by
    intro n hn hk
    obtain ⟨l, -, hget, hlist⟩ := (hf.2 n hn).memory hk
    exact ⟨l, [], htu.grows _ _ hget, htu.grows _ _ hlist⟩

/-- The region of the values that are built after a fact has been founded, with those that the fact refers to. -/
def besides (s t u : Store) : Set Place := upTo s.size ∪ between t.size u.size

/-- A founded fact can be used on what is built after it. -/
theorem Founded.usable (hf : f.Founded s.size t) {u : Store} : ∀ n ∈ f.nodes, n.Usable (besides s t u) f.nodes := by
  intro n hn
  refine ⟨hn, (hf.2 n hn).direct, fun a ha => ?_⟩
  obtain ⟨hnative, hreads⟩ := (hf.2 n hn).accessor a ha
  refine ⟨hnative, ?_⟩
  cases a with
  | item shown key => exact hreads.mono Set.subset_union_left
  | custom m get set => exact hnative.elim
  | _ => trivial

/-- Values that are built after a fact has been founded are in place for it. -/
theorem Founded.placed (hf : f.Founded s.size t) (hs : s.Whole) (hgiven : s.given = []) (hst : s.Extends t)
    (hlow : ∀ d ∈ ds, ∃ n < Store.deepest, d.Low n) :
    Sheltered (besides s t (Store.buildAll ds t).2) f.nodes (Store.buildAll ds t).2 ∧
      ∀ v ∈ (Store.buildAll ds t).1,
        Placed (besides s t (Store.buildAll ds t).2) f.nodes (Store.buildAll ds t).2 v := by
  have hl : LiteralAll ds := literalAll_of_low hlow
  have hnothing : t.Closed (between t.size t.size) := Store.closed_between (hst.given.trans hgiven)
  obtain ⟨htu, hclosed, hvs⟩ := buildAll_between hl (Nat.le_refl _) hnothing
  have hstored := (storedAll_build (s := t) hl).2
  generalize Store.buildAll ds t = r at htu hclosed hvs hstored
  obtain ⟨vs, u⟩ := r
  have hbefore : u.Closed (upTo s.size) := (hst.trans htu).closed hs.closed
  have hu : u.given = [] := (hst.trans htu).given.trans hgiven
  have hsheltered : Sheltered (besides s t u) f.nodes u := by
    refine ⟨⟨?_, ?_⟩, ?_, hf.primed htu, ?_⟩
    · rintro p (hp | hp) q hq
      · exact .inl (hbefore p hp q hq)
      · exact .inr (hclosed p hp q hq)
    · rintro l (hl | hl)
      · exact Nat.lt_of_lt_of_le (hl l rfl) (hst.trans htu).size_le
      · exact (hl l rfl).2
    · rw [Store.Owned, hu]
      exact List.forall_mem_nil _
    · -- what the fact notes was made after what it refers to, and before the values
      intro l hl
      obtain ⟨hle, hlt⟩ := hf.progress htu hl
      rintro (hl | hl)
      · exact absurd (hl l rfl) (Nat.not_lt.mpr hle)
      · exact absurd (hl l rfl).1 (Nat.not_le.mpr hlt)
  refine ⟨hsheltered, fun v hv => ⟨hsheltered, (hvs v hv).mono Set.subset_union_right, ?_⟩⟩
  obtain ⟨d, hd, hv⟩ := exists_of_forall₂_right (storedAll_iff.mp hstored) v hv
  obtain ⟨n, hn, hlow⟩ := hlow d hd
  exact (hlow.shallow hv).mono hn

/-! ## Checks one after the other -/

section

variable {R : Set Place} {ns : List Fact} {vs : List Value} {w u : World} {rs : List Report}

theorem safe_checks (hf : f.Formed) (hn : ∀ n ∈ f.nodes, n.Usable R ns) (h : ∀ v ∈ vs, Placed R ns w.store v) :
    Safe w (vs.mapM f.check) := by
  induction vs generalizing w with
  | nil => exact safe_pure
  | cons v vs ih =>
    rw [List.mapM_cons]
    refine (safe_check hf hn (h v (by simp))).bind fun r u hrun => ?_
    refine (ih fun x hx => ?_).map _
    exact (h x (by simp [hx])).after_check hf hn (h v (by simp)).within hrun

/-- Checks note the visits of all values, in the order of the values. -/
theorem notes_checks (hs : Sheltered R ns s) (hf : f.Formed) (hn : ∀ n ∈ f.nodes, n.Usable R ns)
    (hvs : ∀ v ∈ vs, v.Within R) : Notes R ns s (vs.mapM f.check) (vs.flatMap (f.visits s)) := by
  have hmem : ∀ n ∈ f.nodes, n ∈ ns := fun n h => (hn n h).mem
  have hreads : f.ReadsIn R := fun n h a ha => ((hn n h).accessor a ha).2
  induction vs with
  | nil => exact notes_quiet quiet_pure
  | cons v vs ih =>
    rw [List.mapM_cons, List.flatMap_cons]
    refine (notes_check hs hf hmem hreads (hvs v (by simp))).bind (visitsOf_visits hmem) fun _ => ?_
    exact (ih fun x hx => hvs x (by simp [hx])).then fun _ => quiet_pure

end

end Fact

/-- Reports, each under the number of the value that it is about. -/
def numbered (i : Nat) (rs : List Report) : List Report :=
  (rs.zipIdx i).map fun e => e.1.under ("item " ++ toString e.2)

/-- Checks of values in order are checks of the values, with numbers put on the reports. -/
theorem exec_checkFrom {f : Fact} {vs : List Value} {i : Nat} {w : World} : exec (checkFrom f i vs) w =
    ((exec (vs.mapM f.check) w).1.map (numbered i), (exec (vs.mapM f.check) w).2) := by
  induction vs generalizing i w with
  | nil => rfl
  | cons v vs ih =>
    rw [checkFrom, List.mapM_cons, exec_bind, exec_bind]
    rcases exec (f.check v) w with ⟨e | r, u⟩
    · rfl
    · dsimp only
      rw [exec_bind, exec_bind, ih]
      rcases exec (vs.mapM f.check) u with ⟨e | rs, u'⟩ <;> rfl

theorem exec_checkSeq {f : Fact} {vs : List Value} {w : World} : exec (checkSeq f vs) w =
    ((exec (vs.mapM f.check) w).1.map fun rs => .combine (numbered 0 rs), (exec (vs.mapM f.check) w).2) := by
  rw [checkSeq, exec_bind, exec_checkFrom]
  rcases exec (vs.mapM f.check) w with ⟨e | rs, u⟩ <;> rfl

theorem exec_builds (ds : List Data) (w : World) : exec (ds.mapM Act.build) w =
    (.ok (Store.buildAll ds w.store).1, { w with store := (Store.buildAll ds w.store).2 }) := by
  induction ds generalizing w with
  | nil => rfl
  | cons d ds ih =>
    rw [List.mapM_cons, exec_bind, Act.build, exec_onStore]
    dsimp only
    rw [exec_bind, ih]
    rfl

/-! ## Loading documents -/

namespace Document

open Sampler

variable {s : Store} {d : Data} {v : Value}

theorem isAnticipated_of_rejects {path : String} {good : Prop} {e : Fault} (h : Node.Rejects d path good e) :
    isAnticipated e = true := by
  have hlocated : Node.Located d path e := h.located
  cases e with
  | schema q m => rfl
  | misuse m =>
    cases m with
    | unsupported | invalid => rfl
    | _ => exact hlocated.elim
  | _ => exact hlocated.elim

theorem makes_descriptionOf (hd : d.Stored s v) :
    Makes s (descriptionOf v) (fun _ => True) fun e => isAnticipated e = true := by
  refine (makes_view hd).bind fun c _ => ?_
  split
  · exact makes_pure trivial
  · split
    · exact makes_pure trivial
    · exact Node.makes_malformed rfl

theorem makes_load {path : String} (hd : d.Stored s v) (hl : d.Literal) :
    Makes s (Node.load v path) (fun _ => True) fun e => isAnticipated e = true := by
  intro w hw
  have hlevels : d.height < w.store.objects.size + 1 := Nat.lt_succ_of_le (hd.grow hw).height_le
  have hmakes : Makes s (Node.loadWithin _ v path) _ _ := Node.makes_loadWithin _ hd hl hlevels
  have hload : exec (Node.load v path) w = exec (Node.loadWithin (w.store.objects.size + 1) v path) w := rfl
  rw [hload]
  exact (hmakes.mono (fun _ _ => trivial) fun _ he => isAnticipated_of_rejects he) w hw

/-- A run is prepared for every fault that loading a document may raise. -/
theorem makes_ofValue (hd : d.Stored s v) (hl : d.Literal) :
    Makes s (ofValue v) (fun _ => True) fun e => isAnticipated e = true := by
  have hrejects : ∀ {c : Data} {path : String} {good : Prop} (e : Fault), Node.Rejects c path good e →
      isAnticipated e = true := fun _ => isAnticipated_of_rejects
  refine ((Node.makes_mapping hd).mono (fun _ h => h) hrejects).bind fun fs hfs => ?_
  obtain ⟨es, rfl, hfs⟩ := hfs
  refine ((Node.makes_requireKeys hfs _).mono (fun _ h => h) hrejects).bind fun _ _ => ?_
  refine (Node.makes_found hfs "fact").bind fun o ho => ?_
  rcases ho with ⟨-, rfl⟩ | ⟨c, x, hc, rfl, hx⟩
  · exact Node.makes_malformed rfl
  · refine (Node.makes_entry hfs "description").bind fun y hy => (makes_descriptionOf hy).bind fun _ _ => ?_
    refine (makes_load hx (Node.literal_under hl hc)).bind fun f _ => ?_
    exact (Node.makes_entry hfs "like").bind fun _ _ => makes_pure trivial

end Document

namespace Sampler

/-! ## Reading -/

/-- Whether a document is read as a value that stands for a tree, in a store that holds nothing else, or is refused
with a fault that a run is prepared for. -/
def ReadsTree (x : Act Value) : Prop := ∀ w : World, w.store = Store.empty →
  (∃ e t, exec x w = (.error e, t) ∧ isAnticipated e = true) ∨
    ∃ (d : Data) (v : Value) (t : World), exec x w = (.ok v, t) ∧ d.Literal ∧ d.Stored t.store v ∧
      t.store.Whole ∧ t.store.given = []

/-- Whether the document of a run is read as a tree or refused, and every line of its input that is not blank is
read as data or is no value. -/
structure Readers.Faithful (r : Readers) (content : Option String) (input : String) : Prop where
  document : ∀ text ∈ content, ReadsTree (r.document text)
  line : ∀ l ∈ givenLines input, ReadsData (r.line l)

/-! ## Runs -/

/-- Whether a run prints some lines and ends with a notice of a status. -/
def Outcome.EndsWith (out : Outcome) (lines : List String) (status : Nat) : Prop :=
  out.lines = lines ∧ ∃ notice, out.ending = .ok notice ∧ notice.status = status

/-- The lines for reports on values in order. -/
def violationLines (rs : List Report) : List String := (numbered 0 rs).flatMap Report.messages

/-- Whether a run reports violations. It prints all lines, and its status tells whether there are any. But it ends with
status 2 at the first line that the output does not take. -/
structure Outcome.Reports (out : Outcome) (takes : String → Bool) (lines : List String) : Prop where
  all : (∀ l ∈ lines, takes l = true) → out.EndsWith lines (if lines = [] then 0 else 1)
  before : ∀ before l after, lines = before ++ l :: after → (∀ l ∈ before, takes l = true) → takes l = false →
    out.EndsWith before 2

/-- How a run that checks may go. If the document is not loaded, a line is no value, or a check finds that a value does
not fit the fact, the run prints nothing and has status 2, whether values before have violations or not. Otherwise it
reports the violations of all values, each checked in the world that the one before has left. -/
inductive CheckRun (r : Readers) (takes : String → Bool) (o : Options) (content : Option String) (input : String)
    (start : World) (out : Outcome) : Prop
  | unloaded {e : Fault} {t : World} : exec (loadDocument r o content) start = (.error e, t) →
    isAnticipated e = true → out.EndsWith [] 2 → CheckRun r takes o content input start out
  | unread {document : Document} {t : World} {l : String} :
    exec (loadDocument r o content) start = (.ok document, t) →
    l ∈ givenLines input → (∃ flaw, r.line l = .error flaw) → out.EndsWith [] 2 →
    CheckRun r takes o content input start out
  | misfit {document : Document} {t u u' : World} {ds : List Data} {vs : List Value} {e : Fault} :
    exec (loadDocument r o content) start = (.ok document, t) →
    List.Forall₂ (fun l d => r.line l = .ok d) (givenLines input) ds →
    exec (ds.mapM Act.build) t = (.ok vs, u) → StoredAll u.store ds vs →
    exec (vs.mapM document.fact.check) u = (.error e, u') → e.IsMisfit → out.EndsWith [] 2 →
    CheckRun r takes o content input start out
  | checked {document : Document} {t u u' : World} {ds : List Data} {vs : List Value} {rs : List Report} :
    exec (loadDocument r o content) start = (.ok document, t) →
    List.Forall₂ (fun l d => r.line l = .ok d) (givenLines input) ds →
    exec (ds.mapM Act.build) t = (.ok vs, u) → StoredAll u.store ds vs →
    exec (vs.mapM document.fact.check) u = (.ok rs, u') →
    u' = { u with store := (vs.flatMap (document.fact.visits u.store)).foldl Store.advance u.store } →
    out.Reports takes (violationLines rs) → CheckRun r takes o content input start out

section

variable {r : Readers} {o : Options} {content : Option String} {w : World}

/-- The world that a run starts in. -/
def startWorld (seed : Int) : World := ⟨Store.empty, .ofSeed seed, #[]⟩

/-- A document is loaded, with a founded fact, or a fault is raised for which the run is prepared. -/
theorem loads (hr : ∀ text ∈ content, ReadsTree (r.document text)) (hw : w.store = Store.empty) :
    (∃ e t, exec (loadDocument r o content) w = (.error e, t) ∧ isAnticipated e = true) ∨
      ∃ document t, exec (loadDocument r o content) w = (.ok document, t) ∧ ∃ s : Store, (s.Whole ∧ s.given = []) ∧
        s.Extends t.store ∧ document.fact.Founded s.size t.store := by
  cases content with
  | none => exact .inl ⟨_, _, rfl, rfl⟩
  | some text =>
    have hload : exec (loadDocument r o (some text)) w = exec (r.document text >>= Document.ofValue) w := rfl
    rw [hload, exec_bind]
    rcases hr text rfl w hw with ⟨e, t, hread, he⟩ | ⟨d, v, t, hread, hl, hstored, hwhole, hgiven⟩
    · rw [hread]
      exact .inl ⟨e, t, rfl, he⟩
    · rw [hread]
      dsimp only
      obtain ⟨-, herr⟩ := Document.makes_ofValue hstored hl t (.refl _)
      rcases hrun : exec (Document.ofValue v) t with ⟨e | document, t'⟩
      · exact .inl ⟨e, t', rfl, (herr e t' hrun).2⟩
      · obtain ⟨hext, hfounded⟩ := Node.founds_ofValue hstored hl _ document t' rfl hrun
        exact .inr ⟨document, t', rfl, t.store, ⟨hwhole, hgiven⟩, hext, hfounded⟩

theorem endsWith_of_fault {e : Fault} {log : Array LogEntry} (he : isAnticipated e = true) :
    Outcome.EndsWith ⟨[], log, endOf e⟩ [] 2 := by
  refine ⟨rfl, .failed e, ?_, rfl⟩
  rw [endOf, if_pos he]

theorem isAnticipated_of_isMisfit {e : Fault} (h : e.IsMisfit) : isAnticipated e = true := by
  rcases h with rfl | rfl <;> rfl

theorem messages_combine (rs : List Report) : (Report.combine rs).messages = rs.flatMap Report.messages := by
  rw [Report.combine, Report.messages, List.map_flatMap]
  rfl

/-- A run reports all violations of values that have been checked. -/
theorem reports_reported {takes : String → Bool} {path : String} {log : Array LogEntry} {rs : List Report} :
    (reported takes path log (.combine (numbered 0 rs))).Reports takes (violationLines rs) := by
  have hmessages : (Report.combine (numbered 0 rs)).messages = violationLines rs := messages_combine _
  have hempty : (Report.combine (numbered 0 rs)).size = 0 ↔ violationLines rs = [] := by
    rw [← hmessages, Report.messages, List.map_eq_nil_iff, Report.size, List.length_eq_zero_iff]
  rw [reported, hmessages]
  refine ⟨fun hall => ?_, fun before l after heq hbefore hl => ?_⟩
  · rw [if_pos (List.all_eq_true.mpr hall)]
    refine ⟨rfl, _, rfl, ?_⟩
    simp only [Notice.status, hempty]
  · have hrefused : ¬ (violationLines rs).all takes = true := fun h => by
      rw [List.all_eq_true.mp h l (by simp [heq])] at hl
      cases hl
    rw [if_neg hrefused]
    refine ⟨?_, .failed untakenFault, rfl, rfl⟩
    show (violationLines rs).takeWhile takes = before
    rw [heq, List.takeWhile_append_of_pos hbefore, List.takeWhile_cons_of_neg (by simp [hl]), List.append_nil]

/-- A run is prepared for lines that are no values, whatever is wrong with them. -/
theorem isAnticipated_lineFault {flaw : Json.Flaw} {k : Nat} (h : flaw ≠ .tooDeep) :
    isAnticipated (lineFault k flaw) = true := by
  cases flaw with
  | malformed | tooLong => rfl
  | tooDeep => exact absurd rfl h

/-- The data of lines, if all of them are read, can be compared. -/
theorem low_of_read {line : String → Except Json.Flaw Data} {ls : List String} {ds : List Data}
    (hr : ∀ l ∈ ls, ReadsData (line l)) (h : List.Forall₂ (fun l d => line l = .ok d) ls ds) :
    ∀ d ∈ ds, ∃ n < Store.deepest, d.Low n := by
  intro d hd
  obtain ⟨l, hl, hline⟩ := exists_of_forall₂_right h d hd
  rcases hr l hl with ⟨flaw, hflaw, -⟩ | ⟨d', n, hd', hlow, hn⟩
  · cases hflaw.symm.trans hline
  · cases hd'.symm.trans hline
    exact ⟨n, hn, hlow⟩

/-- Values are built and checked only after all lines have been read. -/
theorem exec_check_unread {document : Document} {t : World} {e : Fault} {input : String}
    (hload : exec (loadDocument r o content) w = (.ok document, t))
    (hread : readLines r.line 1 (linesOf input) = .error e) :
    exec (check r o content input) w = (.error e, t) := by
  rw [check, exec_bind, hload]
  dsimp only
  rw [exec_bind, hread]
  rfl

/-- The report of a run that checks, once a document has been loaded and the lines have been read. -/
theorem exec_check {document : Document} {t : World} {ds : List Data} {input : String}
    (hload : exec (loadDocument r o content) w = (.ok document, t))
    (hread : readLines r.line 1 (linesOf input) = .ok ds) :
    exec (check r o content input) w =
      exec (checkSeq document.fact (Store.buildAll ds t.store).1)
        { t with store := (Store.buildAll ds t.store).2 } := by
  rw [check, exec_bind, hload]
  dsimp only
  rw [exec_bind, hread]
  show exec (ds.mapM Act.build >>= checkSeq document.fact) t = _
  rw [exec_bind, exec_builds]

theorem run_of_check (takes : String → Bool) (ho : o.check = true) (seed : Int) (input : String) :
    run r takes o seed content input =
    match exec (check r o content input) (startWorld (o.seed.getD seed)) with
    | (.ok report, w) => reported takes o.document w.log report
    | (.error fault, w) => ⟨[], w.log, endOf fault⟩ := by
  rw [run, if_pos ho]
  rfl

/-- A run that checks is one of these: it prints the violations of all values of the input, or it prints nothing
and its status is 2, since the document or a line is malformed or a value does not fit the fact. The document is a
tree or is refused, and the lines are no deeper than comparisons go; only an output that does not take a line of
the report keeps the rest of it from being printed. -/
theorem run_check {input : String} (hr : r.Faithful content input) (takes : String → Bool) (ho : o.check = true)
    (seed : Int) :
    CheckRun r takes o content input (startWorld (o.seed.getD seed)) (run r takes o seed content input) := by
  rw [run_of_check takes ho]
  generalize hw : startWorld (o.seed.getD seed) = w
  have hloads := loads (o := o) hr.document (w := w) (hw ▸ rfl)
  rcases hloads with ⟨e, t, hload, he⟩ | ⟨document, t, hload, s, ⟨hs, hgiven⟩, hst, hf⟩
  · -- nothing else is looked at when the document is not loaded
    have hrun : exec (check r o content input) w = (.error e, t) := by
      rw [check, exec_bind, hload]
    rw [hrun]
    exact .unloaded hload he (endsWith_of_fault he)
  · cases hread : readLines r.line 1 (linesOf input) with
    | error e =>
      obtain ⟨l, hl, flaw, k, hline, rfl⟩ := readLines_error hread
      have he := isAnticipated_lineFault (k := k) ((hr.line l hl).ne_tooDeep hline)
      rw [exec_check_unread hload hread]
      exact .unread hload hl ⟨flaw, hline⟩ (endsWith_of_fault he)
    | ok ds =>
      have hlines := readLines_ok hread
      have hlow := low_of_read hr.line hlines
      have hbuilds := exec_builds ds t
      have hstored := (storedAll_build (s := t.store) (literalAll_of_low hlow)).2
      have hplaced := hf.placed hs hgiven hst hlow
      rw [exec_check hload hread]
      generalize Store.buildAll ds t.store = b at hbuilds hstored hplaced
      obtain ⟨vs, u⟩ := b
      dsimp only at hstored hplaced hbuilds ⊢
      have husable := hf.usable (u := u)
      rw [exec_checkSeq]
      rcases hrun : exec (vs.mapM document.fact.check) { t with store := u } with ⟨e | rs, u'⟩
      · -- a check that ends otherwise has met a value that does not fit, whatever it has found before
        have he := Fact.safe_checks hf.1 husable hplaced.2 e u' hrun
        exact .misfit hload hlines hbuilds hstored hrun he (endsWith_of_fault (isAnticipated_of_isMisfit he))
      · have hnotes := Fact.notes_checks hplaced.1 hf.1 husable fun v hv => (hplaced.2 v hv).within
        have hmoved := hnotes _ u' rs hplaced.1 .refl hrun
        exact .checked hload hlines hbuilds hstored hrun hmoved reports_reported

end

/-- A document that counts. -/
def countingText : String := "fact: \x7bconsecutive_int: 0\x7d"

def countingNode : Yaml.Node :=
  .mapping none [(.scalar none "fact" true,
    .mapping none [(.scalar none "consecutive_int" true, .scalar none "0" true)])]

theorem ofText_countingText : Yaml.Node.ofText countingText = .ok countingNode := by
  have hscan : Yaml.scan countingText = [.blockMappingStart, .key, .scalar "fact" true, .value, .flowMappingStart, .key,
      .scalar "consecutive_int" true, .value, .scalar "0" true, .flowMappingEnd, .blockEnd] := by
    decide +kernel
  rw [Yaml.Node.ofText, hscan]
  rfl

/-- What the document is read as. -/
def countingTree : Data :=
  .mapping [(.atom (.text "fact"), .mapping [(.atom (.text "consecutive_int"), .atom (.int 0))])]

def countingStore : Store :=
  ⟨#[.mapping [(.text "fact", .ref 1)], .mapping [(.text "consecutive_int", .int 0)]], spelledMarks, []⟩

theorem exec_load_countingText (source : Source) (log : Array LogEntry) :
    exec (Yaml.load countingText) ⟨.empty, source, log⟩ = (.ok (.ref 0), ⟨countingStore, source, log⟩) := by
  rw [Yaml.load, ofText_countingText]
  rfl

theorem readsTree_countingText : ReadsTree (Yaml.load countingText) := by
  rintro ⟨s, source, log⟩ rfl
  have hl : countingTree.Literal := by simp [countingTree, Literal, LiteralEntries, Atom.IsLiteral, Atom.IsScalar]
  have hstored : countingTree.Stored countingStore (.ref 0) :=
    ⟨0, _, rfl, rfl, ⟨rfl, 1, _, rfl, rfl, ⟨rfl, rfl⟩, trivial⟩, trivial⟩
  have hwhole : countingStore.Whole := .of_bound (by decide) rfl
  exact .inr ⟨countingTree, .ref 0, _, exec_load_countingText source log, hl, hstored, hwhole, rfl⟩

def countingOptions : Options := ⟨"counting.yaml", 1, none, 10, true⟩

def countingInput : String := "0\n\n7"

theorem readsData_countingInput : ∀ l ∈ givenLines countingInput, ReadsData (Json.read l) := by
  have hgiven : givenLines countingInput = ["0", "7"] := by decide +kernel
  rw [hgiven]
  refine List.forall_mem_cons.mpr ⟨?_, List.forall_mem_singleton.mpr ?_⟩
  · refine readsData_read ?_
    rw [show Json.read "0" = .ok (.atom (.int 0)) from rfl]
    nofun
  · refine readsData_read ?_
    rw [show Json.read "7" = .ok (.atom (.int 7)) from rfl]
    nofun

theorem standard_document : Readers.standard.document = Yaml.load := rfl

theorem faithful_counting : Readers.standard.Faithful (some countingText) countingInput where
  document := by
    intro text htext
    rw [standard_document, ← Option.mem_some_iff.mp htext]
    exact readsTree_countingText
  line := readsData_countingInput

/-- A run that checks, once the text of the document has been taken apart. -/
theorem check_standard {text input : String} {node : Yaml.Node} (hnode : Yaml.Node.ofText text = .ok node) :
    check .standard o (some text) input = (do
      let v ← (do return (← (Yaml.Making.wholeValue node).run ⟨[], []⟩).1)
      let document ← Document.ofValue v
      let data ← Act.ofExcept (readLines Json.read 1 (linesOf input))
      let values ← data.mapM Act.build
      checkSeq document.fact values) := by
  have hload : loadDocument .standard o (some text) = Yaml.load text >>= Document.ofValue := by
    rw [← standard_document]
    rfl
  rw [check, hload, Yaml.load, hnode, bind_assoc]
  rfl

/-- The value on the third line of the input is the second one to be counted. -/
theorem run_check_counting :
    CheckRun .standard isEncodable countingOptions (some countingText) countingInput (startWorld 0)
        (run .standard isEncodable countingOptions 0 (some countingText) countingInput) ∧
      (run .standard isEncodable countingOptions 0 (some countingText) countingInput).EndsWith
        ["item 1 > expected 1 (consecutive from 0), got 7"] 1 := by
  refine ⟨run_check faithful_counting isEncodable rfl 0, ?_⟩
  rw [run_of_check isEncodable rfl, check_standard ofText_countingText]
  refine ⟨?_, .checked "counting.yaml" 1, ?_, rfl⟩
  · decide +kernel
  · decide +kernel

/-- A document that counts the elements of lists. -/
def elementsText : String := "fact: \x7bseq: \x7bconsecutive_int: 0\x7d\x7d"

theorem ofText_elementsText : Yaml.Node.ofText elementsText = .ok (.mapping none [(.scalar none "fact" true,
    .mapping none [(.scalar none "seq" true,
      .mapping none [(.scalar none "consecutive_int" true, .scalar none "0" true)])])]) := by
  have hscan : Yaml.scan elementsText = [.blockMappingStart, .key, .scalar "fact" true, .value, .flowMappingStart, .key,
      .scalar "seq" true, .value, .flowMappingStart, .key, .scalar "consecutive_int" true, .value, .scalar "0" true,
      .flowMappingEnd, .flowMappingEnd, .blockEnd] := by
    decide +kernel
  rw [Yaml.Node.ofText, hscan]
  rfl

/-- A document of one fact under a label that is half of a surrogate pair, after another under a plain label. -/
def halvedText : String :=
  "fact: \x7band: [\x7beq: 1, label: ok\x7d, \x7beq: 1, label: \"\\ud800\"\x7d]\x7d"

def halfText : String := .singleton (Text.charOf 0xd800)

theorem ofText_halvedText : Yaml.Node.ofText halvedText = .ok (.mapping none [(.scalar none "fact" true,
    .mapping none [(.scalar none "and" true, .sequence none
      [.mapping none [(.scalar none "eq" true, .scalar none "1" true),
        (.scalar none "label" true, .scalar none "ok" true)],
      .mapping none [(.scalar none "eq" true, .scalar none "1" true),
        (.scalar none "label" true, .scalar none halfText false)]])])]) := by
  have hscan : Yaml.scan halvedText = [.blockMappingStart, .key, .scalar "fact" true, .value, .flowMappingStart, .key,
      .scalar "and" true, .value, .flowSequenceStart, .flowMappingStart, .key, .scalar "eq" true, .value,
      .scalar "1" true, .flowEntry, .key, .scalar "label" true, .value, .scalar "ok" true, .flowMappingEnd, .flowEntry,
      .flowMappingStart, .key, .scalar "eq" true, .value, .scalar "1" true, .flowEntry, .key, .scalar "label" true,
      .value, .scalar halfText false, .flowMappingEnd, .flowSequenceEnd, .flowMappingEnd, .blockEnd] := by
    decide +kernel
  rw [Yaml.Node.ofText, hscan]
  rfl

/-- Counting is by the parts that a check meets, not by the lines: an empty list has no element, and the next one begins
with the first integer. And an output that does not take the second line of a report has the first one already. -/
theorem run_check_by_parts :
    (run .standard isEncodable countingOptions 0 (some elementsText) "[]\n[0]").EndsWith [] 0 ∧
      (run .standard isEncodable countingOptions 0 (some halvedText) "2").EndsWith
        ["item 0 > ok > expected 2 == 1"] 2 := by
  rw [run_of_check isEncodable rfl, check_standard ofText_elementsText, run_of_check isEncodable rfl,
    check_standard ofText_halvedText]
  refine ⟨⟨?_, .checked "counting.yaml" 0, ?_, rfl⟩, ?_, .failed untakenFault, ?_, rfl⟩
  · decide +kernel
  · decide +kernel
  · decide +kernel
  · decide +kernel

end Sampler

end Conform
