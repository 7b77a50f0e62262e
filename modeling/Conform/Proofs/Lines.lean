import Conform.Proofs.Grammar
import Conform.Sampler.Run
import Conform.Value.Comparison

/-!
# What lines of input are read as

A line is read as scalars, lists and mappings, on no more levels than the reader goes down (`Json.read_low`). These are
fewer than a comparison goes down, so that whatever is read can be compared.

Several lines are read if each that is not blank is (`Sampler.readLines_ok`), and otherwise the fault is that of one
of them (`Sampler.readLines_error`).
-/

namespace Conform

open Data

namespace Json

/-- Of equal keys one is kept, with a value that was read. -/
theorem mem_withEntry {key k : String} {value v : Data} {es : List (String × Data)}
    (h : (k, v) ∈ withEntry key value es) : v = value ∨ ∃ e ∈ es, v = e.2 := by
  induction es with
  | nil =>
    cases List.mem_singleton.mp h
    exact .inl rfl
  | cons e es ih =>
    rw [withEntry] at h
    split at h
    · rcases List.mem_cons.mp h with heq | h
      · cases heq
        exact .inl rfl
      · exact .inr ⟨_, List.mem_cons_of_mem e h, rfl⟩
    · rcases List.mem_cons.mp h with heq | h
      · cases heq
        exact .inr ⟨_, List.mem_cons_self, rfl⟩
      · exact (ih h).imp_right fun ⟨e', he, hv⟩ => ⟨e', List.mem_cons_of_mem e he, hv⟩

/-- Entries are put in one by one, and those put in before may only be replaced. -/
theorem low_foldl_withEntry {n : Nat} {es kept : List (String × Data)} (hes : ∀ e ∈ es, Low n e.2)
    (hkept : ∀ e ∈ kept, Low n e.2) : ∀ e ∈ es.foldl (fun kept e => withEntry e.1 e.2 kept) kept, Low n e.2 := by
  induction es generalizing kept with
  | nil => exact hkept
  | cons e es ih =>
    refine ih (fun e' he => hes e' (List.mem_cons_of_mem e he)) fun e' he => ?_
    rcases mem_withEntry (k := e'.1) (v := e'.2) he with heq | ⟨e'', he'', heq⟩
    · rw [heq]
      exact hes e List.mem_cons_self
    · rw [heq]
      exact hkept e'' he''

theorem low_entries {n : Nat} {es : List (String × Data)} (h : ∀ e ∈ es, Low n e.2) :
    Low (n + 1) (.mapping (es.map fun e => (.atom (.text e.1), e.2))) := by
  refine .mapping (fun e he => ?_) fun e he => ?_
  · obtain ⟨e', -, rfl⟩ := List.mem_map.mp he
    exact ⟨.text e'.1, trivial, rfl⟩
  · obtain ⟨e', he', rfl⟩ := List.mem_map.mp he
    exact h e' he'

theorem low_mapping {n : Nat} {es : List (String × Data)} (h : ∀ e ∈ es, Low n e.2) :
    Low (n + 1) (mapping es) :=
  low_entries (low_foldl_withEntry h (List.forall_mem_nil _))

/-- Whether whatever is read at the front of a text has a property. -/
def Yields {α : Type} (x : Except Flaw (α × List Char)) (P : α → Prop) : Prop := ∀ r, x = .ok r → P r.1

section

variable {α β : Type} {x : Except Flaw (α × List Char)} {P : α → Prop} {Q : β → Prop}

theorem yields_ok {a : α} {cs : List Char} (h : P a) : Yields (.ok (a, cs)) P := by
  rintro r ⟨⟩
  exact h

theorem yields_error {flaw : Flaw} : Yields (.error flaw) P := nofun

theorem yields_any : Yields x fun _ => True := fun _ _ => trivial

theorem Yields.bind {k : α × List Char → Except Flaw (β × List Char)} (h : Yields x P)
    (hk : ∀ a cs, P a → Yields (k (a, cs)) Q) : Yields (x >>= k) Q := by
  intro r hr
  cases x with
  | error flaw => cases hr
  | ok a => exact hk a.1 a.2 (h a rfl) r hr

theorem Yields.map {f : α → β} (h : Yields x P) (hf : ∀ a, P a → Q (f a)) :
    Yields (x.map fun r => (f r.1, r.2)) Q := by
  intro r hr
  cases x with
  | error flaw => cases hr
  | ok a =>
    cases hr
    exact hf a.1 (h a rfl)

end

theorem isScalar_int (n : Int) : Atom.IsScalar (.int n) := trivial

theorem isScalar_float (x : Binary64) : Atom.IsScalar (.float x) := trivial

theorem isScalar_spelledNaN : Atom.IsScalar spelledNaN := by
  show 1 < spelledMarks
  decide

theorem isScalar_of_mem_words {w : List Char × Atom} (h : w ∈ words) : w.2.IsScalar := by
  simp only [words, List.mem_cons, List.not_mem_nil, or_false] at h
  rcases h with rfl | rfl | rfl | rfl | rfl | rfl
  case inr.inr.inr.inl => exact isScalar_spelledNaN
  all_goals exact trivial

theorem yields_number (cs : List Char) : Yields (number cs) Atom.IsScalar := by
  unfold number
  split
  next negative rest _ =>
  refine yields_any.bind fun ds rest _ => ?_
  dsimp only
  split
  · exact yields_ok (isScalar_float _)
  · split
    · split
      · exact yields_ok (isScalar_int _)
      · exact yields_error
    · exact yields_ok (isScalar_float _)

/-- Words and numbers are scalars. -/
theorem yields_bare {n : Nat} (cs : List Char) : Yields (bare cs) (Low n) := by
  rw [bare]
  cases hword : word? cs with
  | some r =>
    obtain ⟨w, hw, hr⟩ := List.exists_of_findSome?_eq_some hword
    obtain ⟨rest, -, rfl⟩ := Option.map_eq_some_iff.mp hr
    exact yields_ok (.atom (isScalar_of_mem_words hw))
  | none => exact (yields_number cs).map fun a => .atom

mutual

/-- A value that is read has no more levels than the reader goes down. -/
theorem yields_value : ∀ fuel levels cs, Yields (value fuel levels cs) (Low levels)
  | 0, _, _ => yields_error
  | _ + 1, _, [] => yields_error
  | fuel + 1, levels, c :: rest => by
    rw [value]
    split
    · exact yields_any.map fun t _ => Low.atom (a := .text t) trivial
    · split
      · exact yields_error
      · next hlevels =>
        -- a list or a mapping is begun only with a level left, and what is in it has one less
        split
        · next hopen =>
          obtain ⟨n, rfl⟩ : ∃ n, levels = n + 1 := Nat.exists_eq_succ_of_ne_zero (by simpa [hopen] using hlevels)
          split
          · exact yields_ok (.list (List.forall_mem_nil _))
          · exact (yields_items fuel n _).map fun ds => .list
        · split
          · next hopen =>
            obtain ⟨n, rfl⟩ : ∃ n, levels = n + 1 := Nat.exists_eq_succ_of_ne_zero (by simpa [hopen] using hlevels)
            split
            · exact yields_ok (low_mapping (List.forall_mem_nil _))
            · exact (yields_entries fuel n _).map fun es => low_mapping
          · exact yields_bare _

theorem yields_items : ∀ fuel levels cs, Yields (items fuel levels cs) fun ds => ∀ d ∈ ds, Low levels d
  | 0, _, _ => yields_error
  | fuel + 1, levels, cs => by
    rw [items]
    refine (yields_value fuel levels cs).bind fun d cs hd => ?_
    dsimp only
    split
    · exact yields_ok (List.forall_mem_singleton.mpr hd)
    · refine (yields_items fuel levels _).bind fun ds cs hds => ?_
      exact yields_ok (List.forall_mem_cons.mpr ⟨hd, hds⟩)
    · exact yields_error

theorem yields_entries : ∀ fuel levels cs, Yields (entries fuel levels cs) fun es => ∀ e ∈ es, Low levels e.2
  | 0, _, _ => yields_error
  | _ + 1, _, [] => yields_error
  | fuel + 1, levels, c :: cs => by
    rw [entries]
    split
    · exact yields_error
    · refine yields_any.bind fun key cs _ => ?_
      dsimp only
      split
      · refine (yields_value fuel levels _).bind fun d cs hd => ?_
        dsimp only
        split
        · exact yields_ok (List.forall_mem_singleton.mpr hd)
        · refine (yields_entries fuel levels _).bind fun es cs hes => ?_
          exact yields_ok (List.forall_mem_cons.mpr ⟨hd, hes⟩)
        · exact yields_error
      · exact yields_error

end

/-- What a line is read as could stand in a document and has few levels. -/
theorem read_low {s : String} {d : Data} (h : read s = .ok d) : Low deepest d := by
  rw [read] at h
  cases hvalue : value (2 * (skipGaps s.toList).length + 1) deepest (skipGaps s.toList) with
  | error flaw =>
    rw [hvalue] at h
    cases h
  | ok r =>
    rw [hvalue] at h
    have hd : Low deepest r.1 := yields_value _ _ _ r hvalue
    change (if _ then _ else _) = _ at h
    split at h
    · cases h
      exact hd
    · cases h

end Json

namespace Sampler

/-- Whether a line is read as data that can be compared, or else is no value. -/
def ReadsData (x : Except Json.Flaw Data) : Prop :=
  (∃ flaw, x = .error flaw ∧ flaw ≠ .tooDeep) ∨ ∃ (d : Data) (n : Nat), x = .ok d ∧ d.Low n ∧ n < Store.deepest

theorem ReadsData.ne_tooDeep {x : Except Json.Flaw Data} {flaw : Json.Flaw} (h : ReadsData x)
    (hx : x = .error flaw) : flaw ≠ .tooDeep := by
  rcases h with ⟨flaw', hflaw, hne⟩ | ⟨d, n, hd, -⟩
  · cases hflaw.symm.trans hx
    exact hne
  · cases hd.symm.trans hx

/-- Lines are read so unless they are nested deeper than the reader goes. -/
theorem readsData_read {l : String} (h : Json.read l ≠ .error .tooDeep) : ReadsData (Json.read l) := by
  cases hread : Json.read l with
  | error flaw =>
    refine .inl ⟨flaw, rfl, ?_⟩
    rintro rfl
    exact h hread
  | ok d =>
    exact .inr ⟨d, Json.deepest, rfl, Json.read_low hread, by decide⟩

/-- The lines of a text that are not blank. -/
def givenLines (text : String) : List String := (linesOf text).filter fun l => !Text.isAllBlank l

section

variable {line : String → Except Json.Flaw Data} {ls : List String} {number : Nat}

/-- Lines are read if every line that is not blank is a value. -/
theorem readLines_ok {ds : List Data} (h : readLines line number ls = .ok ds) :
    List.Forall₂ (fun l d => line l = .ok d) (ls.filter fun l => !Text.isAllBlank l) ds := by
  induction ls generalizing number ds with
  | nil =>
    cases h
    exact .nil
  | cons l ls ih =>
    rw [readLines] at h
    split at h
    · next hblank =>
      rw [List.filter_cons_of_neg (by simp [hblank])]
      exact ih h
    · next hblank =>
      rw [List.filter_cons_of_pos (by simpa using hblank)]
      split at h
      · cases h
      · next d hd =>
        cases hrest : readLines line (number + 1) ls with
        | error e =>
          rw [hrest] at h
          cases h
        | ok rest =>
          rw [hrest] at h
          cases h
          exact .cons hd (ih hrest)

/-- Lines that are not read have one among them that is neither blank nor a value. The fault tells its number. -/
theorem readLines_error {e : Fault} (h : readLines line number ls = .error e) :
    ∃ l ∈ ls.filter (fun l => !Text.isAllBlank l), ∃ flaw k, line l = .error flaw ∧ e = lineFault k flaw := by
  induction ls generalizing number with
  | nil => cases h
  | cons l ls ih =>
    rw [readLines] at h
    split at h
    · next hblank =>
      rw [List.filter_cons_of_neg (by simp [hblank])]
      exact ih h
    · next hblank =>
      rw [List.filter_cons_of_pos (by simpa using hblank)]
      split at h
      · next flaw hflaw =>
        cases h
        exact ⟨l, List.mem_cons_self, flaw, number, hflaw, rfl⟩
      · cases hrest : readLines line (number + 1) ls with
        | ok rest =>
          rw [hrest] at h
          cases h
        | error e' =>
          rw [hrest] at h
          cases h
          obtain ⟨l', hl', hflaw⟩ := ih hrest
          exact ⟨l', List.mem_cons_of_mem l hl', hflaw⟩

end

end Sampler

end Conform
