import Conform.Proofs.Grammar
import Conform.Value.Order
import Mathlib.Data.List.Nodup

/-!
# Trees of equal contents

`Data.Plain` are the trees of nothing, integers, texts, lists and mappings with texts as keys. On these, equality
is an equivalence (`Data.Same`) that every reading of a tree respects: two such trees have the same height, the
same items at the same places and the same entries under the same keys, though maybe in another order, and they
compare alike with all others.
-/

namespace Conform

/-- Whether an atom is nothing, an integer, a text, the value for a missing part, or a method. -/
def Atom.IsPlain : Atom → Prop
  | .null | .int _ | .text _ | .absent _ => True
  | .sealed o => o.isOpen = false
  | _ => False

namespace Data

/-- Whether entries have different texts as keys. -/
def Keyed (es : List (Data × Data)) : Prop :=
  (es.map (·.1)).Nodup ∧ ∀ e ∈ es, ∃ name : String, e.1 = .atom (.text name)

/-- Trees made of nothing, integers, texts, lists and mappings with texts as keys. -/
inductive Plain : Data → Prop
  | atom {a : Atom} : a.IsPlain → Plain (.atom a)
  | list {ds : List Data} : (∀ d ∈ ds, Plain d) → Plain (.list ds)
  | mapping {es : List (Data × Data)} : Keyed es → (∀ e ∈ es, Plain e.2) → Plain (.mapping es)

section

variable {a b : Atom} {c d d' c' : Data} {ds cs : List Data} {es fs : List (Data × Data)} {name : String}

/-! ## Equality as a relation -/

theorem equal_iff_of_plain (ha : a.IsPlain) (hb : b.IsPlain) : a.equal b = true ↔ a = b := by
  cases a with
  | int m =>
    cases b with
    | int n =>
      simp [Atom.equal, Atom.numeral?, Atom.integer?, Numeral.equal, Numeral.rational?, Exact.ofInt, Exact.equal,
        twoTo]
    | null | text | absent | sealed => simp [Atom.equal, Atom.numeral?, Atom.integer?]
    | _ => exact hb.elim
  | null | text | absent | sealed =>
    cases b with
    | null | int | text | absent | sealed => simp [Atom.equal, Atom.numeral?, Atom.integer?]
    | _ => exact hb.elim
  | _ => exact ha.elim

theorem equalAll_iff : equalAll ds cs = true ↔ List.Forall₂ (fun d c => d.alike c = true) ds cs := by
  induction ds generalizing cs with
  | nil => cases cs <;> simp [equalAll]
  | cons d ds ih => cases cs <;> simp [equalAll, alike, ih]

theorem entriesWithin_iff : entriesWithin es fs = true ↔
    ∀ e ∈ es, ∃ f ∈ fs, e.1.alike f.1 = true ∧ e.2.alike f.2 = true := by
  induction es with
  | nil => simp [entriesWithin]
  | cons e es ih =>
    obtain ⟨k, d⟩ := e
    rw [entriesWithin, Bool.and_eq_true, ih, List.any_eq_true, List.forall_mem_cons]
    simp [alike]

/-- Among plain trees there is no NaN. -/
theorem Plain.alike (h : d.Plain) (c : Data) : d.alike c = d.equal c := by
  have hnan : sameNaN d c = false := by
    cases h with
    | @atom a ha =>
      cases a with
      | nan m => exact ha.elim
      | _ => rfl
    | list | mapping => rfl
  rw [Data.alike, hnan, Bool.false_or]

theorem Plain.item (h : (Data.list ds).Plain) : ∀ d ∈ ds, d.Plain := by
  cases h with
  | list h => exact h

theorem Plain.keyed (h : (Data.mapping es).Plain) : Keyed es := by
  cases h with
  | mapping h _ => exact h

theorem Plain.entry (h : (Data.mapping es).Plain) : ∀ e ∈ es, e.2.Plain := by
  cases h with
  | mapping _ h => exact h

/-- Where each of some entries has a counterpart among as many others under the same key, each of the others has
one too. -/
theorem Keyed.counterpart {R : Data → Data → Prop} (hes : Keyed es) (hfs : Keyed fs) (hlength : es.length = fs.length)
    (h : ∀ e ∈ es, ∃ f ∈ fs, f.1 = e.1 ∧ R e.2 f.2) : ∀ f ∈ fs, ∃ e ∈ es, e.1 = f.1 ∧ R e.2 f.2 := by
  have hsub : es.map (·.1) ⊆ fs.map (·.1) := by
    intro k hk
    obtain ⟨e, he, rfl⟩ := List.mem_map.mp hk
    obtain ⟨f, hf, heq, -⟩ := h e he
    exact List.mem_map.mpr ⟨f, hf, heq⟩
  have hperm : (es.map (·.1)).Perm (fs.map (·.1)) := by
    refine (hes.1.subperm hsub).perm_of_length_le ?_
    rw [List.length_map, List.length_map, hlength]
  intro f hf
  obtain ⟨e, he, heq⟩ := List.mem_map.mp (hperm.mem_iff.mpr (List.mem_map_of_mem hf))
  obtain ⟨g, hg, hkey, hR⟩ := h e he
  -- the keys differ, so the counterpart of the entry found is the one started from
  obtain rfl : g = f := List.inj_on_of_nodup_map hfs.1 hg hf (hkey.trans heq)
  exact ⟨e, he, heq, hR⟩

/-- Whether two plain trees have equal contents. -/
structure Same (d c : Data) : Prop where
  left : d.Plain
  right : c.Plain
  equal : d.equal c = true

theorem same_atom (ha : a.IsPlain) : Same (.atom a) c ↔ c = .atom a := by
  constructor
  · rintro ⟨-, hc, hequal⟩
    cases hc with
    | atom hb => rw [(equal_iff_of_plain ha hb).mp (by rwa [Data.equal] at hequal)]
    | list | mapping => simp [Data.equal] at hequal
  · rintro rfl
    exact ⟨.atom ha, .atom ha, by rw [Data.equal]; exact (equal_iff_of_plain ha ha).mpr rfl⟩

theorem same_list : Same (.list ds) c ↔ ∃ cs, c = .list cs ∧ List.Forall₂ Same ds cs := by
  constructor
  · rintro ⟨hd, hc, hequal⟩
    cases hc with
    | @list cs hcs =>
      refine ⟨cs, rfl, ?_⟩
      rw [Data.equal, equalAll_iff] at hequal
      have hds := hd.item
      clear hd
      induction hequal with
      | nil => exact .nil
      | @cons d c ds cs h _ ih =>
        have hd : d.Plain := hds d List.mem_cons_self
        refine .cons ⟨hd, hcs c List.mem_cons_self, by rwa [← hd.alike]⟩ ?_
        exact ih (fun x hx => hcs x (List.mem_cons_of_mem _ hx)) fun x hx => hds x (List.mem_cons_of_mem _ hx)
    | atom | mapping => simp [Data.equal] at hequal
  · rintro ⟨cs, rfl, h⟩
    have hleft : ∀ d ∈ ds, d.Plain := by
      induction h with
      | nil => exact List.forall_mem_nil _
      | cons h _ ih => exact List.forall_mem_cons.mpr ⟨h.left, ih⟩
    have hright : ∀ c ∈ cs, c.Plain := by
      clear hleft
      induction h with
      | nil => exact List.forall_mem_nil _
      | cons h _ ih => exact List.forall_mem_cons.mpr ⟨h.right, ih⟩
    refine ⟨.list hleft, .list hright, ?_⟩
    rw [Data.equal, equalAll_iff]
    exact h.imp fun d c hdc => by rw [hdc.left.alike, hdc.equal]

theorem same_mapping (hes : Keyed es) : Same (.mapping es) c ↔
    ∃ cs, c = .mapping cs ∧ Keyed cs ∧ es.length = cs.length ∧ ∀ e ∈ es, ∃ f ∈ cs, f.1 = e.1 ∧ Same e.2 f.2 := by
  constructor
  · rintro ⟨hd, hc, hequal⟩
    cases hc with
    | @mapping cs hcs hplain =>
      rw [Data.equal, Bool.and_eq_true, beq_iff_eq, entriesWithin_iff] at hequal
      refine ⟨cs, rfl, hcs, hequal.1, fun e he => ?_⟩
      obtain ⟨f, hf, hkey, hvalue⟩ := hequal.2 e he
      obtain ⟨m, hm⟩ := hes.2 e he
      obtain ⟨n, hn⟩ := hcs.2 f hf
      -- both keys are texts, and texts are alike only if they are equal
      have hsame : e.1 = f.1 := by
        rw [hm, hn, alike_texts, beq_iff_eq] at hkey
        rw [hm, hn, hkey]
      exact ⟨f, hf, hsame.symm, hd.entry e he, hplain f hf, by rwa [← (hd.entry e he).alike]⟩
    | atom | list => simp [Data.equal] at hequal
  · rintro ⟨cs, rfl, hcs, hlength, h⟩
    have hleft : ∀ e ∈ es, e.2.Plain := by
      intro e he
      obtain ⟨f, -, -, hsame⟩ := h e he
      exact hsame.left
    have hright : ∀ f ∈ cs, f.2.Plain := by
      intro f hf
      obtain ⟨e, -, -, hsame⟩ := hes.counterpart hcs hlength h f hf
      exact hsame.right
    refine ⟨.mapping hes hleft, .mapping hcs hright, ?_⟩
    rw [Data.equal, Bool.and_eq_true, beq_iff_eq, entriesWithin_iff]
    refine ⟨hlength, fun e he => ?_⟩
    obtain ⟨f, hf, hkey, hsame⟩ := h e he
    refine ⟨f, hf, ?_, by rw [hsame.left.alike, hsame.equal]⟩
    obtain ⟨m, hm⟩ := hes.2 e he
    rw [hkey, hm, alike_texts, beq_self_eq_true]

theorem Plain.refl (h : d.Plain) : Same d d := by
  induction h with
  | atom ha => exact (same_atom ha).mpr rfl
  | list _ ih => exact same_list.mpr ⟨_, rfl, List.forall₂_same.mpr ih⟩
  | mapping hes _ ih => exact (same_mapping hes).mpr ⟨_, rfl, hes, rfl, fun e he => ⟨e, he, rfl, ih e he⟩⟩

theorem forall₂_imp_mem {α β : Type} {R S : α → β → Prop} {xs : List α} {ys : List β} (h : List.Forall₂ R xs ys)
    (hRS : ∀ x ∈ xs, ∀ y, R x y → S x y) : List.Forall₂ S xs ys := by
  induction h with
  | nil => exact .nil
  | cons hxy _ ih =>
    exact .cons (hRS _ List.mem_cons_self _ hxy) (ih fun x hx => hRS x (List.mem_cons_of_mem _ hx))

theorem exists_of_forall₂ {α β : Type} {R : α → β → Prop} {xs : List α} {ys : List β} (h : List.Forall₂ R xs ys) :
    ∀ x ∈ xs, ∃ y ∈ ys, R x y := by
  induction h with
  | nil => exact nofun
  | cons hxy _ ih =>
    refine List.forall_mem_cons.mpr ⟨⟨_, List.mem_cons_self, hxy⟩, fun x hx => ?_⟩
    obtain ⟨y, hy, hR⟩ := ih x hx
    exact ⟨y, List.mem_cons_of_mem _ hy, hR⟩

theorem forall₂_comp {α β γ : Type} {R : α → γ → Prop} {S : β → γ → Prop} {xs : List α} {ys : List β} {zs : List γ}
    (h : List.Forall₂ (fun x y => ∀ z, S y z → R x z) xs ys) (k : List.Forall₂ S ys zs) : List.Forall₂ R xs zs := by
  induction h generalizing zs with
  | nil =>
    cases k
    exact .nil
  | cons hxy _ ih =>
    cases k with
    | cons hyz hrest => exact .cons (hxy _ hyz) (ih hrest)

theorem Same.symm (h : Same d c) : Same c d := by
  have hd := h.left
  induction hd generalizing c with
  | atom ha =>
    obtain rfl := (same_atom ha).mp h
    exact h
  | list _ ih =>
    obtain ⟨cs, rfl, hcs⟩ := same_list.mp h
    exact same_list.mpr ⟨_, rfl, (forall₂_imp_mem hcs fun d hd c hdc => ih d hd hdc).flip⟩
  | mapping hes _ ih =>
    obtain ⟨cs, rfl, hcs, hlength, hentries⟩ := (same_mapping hes).mp h
    refine (same_mapping hcs).mpr ⟨_, rfl, hes, hlength.symm, fun f hf => ?_⟩
    -- as many entries with distinct keys: each has a counterpart the other way round too
    obtain ⟨e, he, hkey, hsame⟩ := hes.counterpart hcs hlength hentries f hf
    exact ⟨e, he, hkey, ih e he hsame⟩

theorem Same.trans {b : Data} (h : Same d c) (k : Same c b) : Same d b := by
  have hd := h.left
  induction hd generalizing c b with
  | atom ha =>
    obtain rfl := (same_atom ha).mp h
    exact k
  | list _ ih =>
    obtain ⟨cs, rfl, hcs⟩ := same_list.mp h
    obtain ⟨bs, rfl, hbs⟩ := same_list.mp k
    refine same_list.mpr ⟨_, rfl, forall₂_comp ?_ hbs⟩
    exact forall₂_imp_mem hcs fun d hd c hdc b hcb => ih d hd hdc hcb
  | mapping hes _ ih =>
    obtain ⟨cs, rfl, hcs, hlength, hentries⟩ := (same_mapping hes).mp h
    obtain ⟨bs, rfl, hbs, hlength', hentries'⟩ := (same_mapping hcs).mp k
    refine (same_mapping hes).mpr ⟨_, rfl, hbs, hlength.trans hlength', fun e he => ?_⟩
    obtain ⟨f, hf, hkey, hsame⟩ := hentries e he
    obtain ⟨g, hg, hkey', hsame'⟩ := hentries' f hf
    exact ⟨g, hg, hkey'.trans hkey, ih e he hsame hsame'⟩

/-- Equal contents give the same answer to every comparison. -/
theorem Same.equal_congr (h : Same d d') (k : Same c c') : d.equal c = d'.equal c' := by
  rw [Bool.eq_iff_iff]
  constructor
  · intro hdc
    exact ((h.symm.trans ⟨h.left, k.left, hdc⟩).trans k).equal
  · intro hdc
    exact ((h.trans ⟨h.right, k.right, hdc⟩).trans k.symm).equal

/-! ## What equal contents have in common -/

theorem heightAll_congr (h : List.Forall₂ (fun d c => d.height = c.height) ds cs) : heightAll ds = heightAll cs := by
  induction h with
  | nil => rfl
  | cons hdc _ ih => rw [heightAll, heightAll, hdc, ih]

theorem heightEntries_le {n : Nat} : heightEntries es ≤ n ↔ ∀ e ∈ es, e.1.height ≤ n ∧ e.2.height ≤ n := by
  induction es with
  | nil => simp [heightEntries]
  | cons e es ih => rw [heightEntries, Nat.max_le, Nat.max_le, ih, List.forall_mem_cons]

/-- Entries of which each has a counterpart of the same height are no higher than the others. -/
theorem heightEntries_mono (h : ∀ e ∈ es, ∃ f ∈ fs, f.1 = e.1 ∧ e.2.height = f.2.height) :
    heightEntries es ≤ heightEntries fs := by
  refine heightEntries_le.mpr fun e he => ?_
  obtain ⟨f, hf, hkey, hheight⟩ := h e he
  rw [← hkey, hheight]
  exact heightEntries_le.mp (Nat.le_refl _) f hf

theorem Same.height (h : Same d c) : d.height = c.height := by
  have hd := h.left
  induction hd generalizing c with
  | atom ha =>
    obtain rfl := (same_atom ha).mp h
    rfl
  | list _ ih =>
    obtain ⟨cs, rfl, hcs⟩ := same_list.mp h
    rw [Data.height, Data.height, heightAll_congr (forall₂_imp_mem hcs fun d hd c hdc => ih d hd hdc)]
  | mapping hes _ ih =>
    obtain ⟨cs, rfl, hcs, hlength, hentries⟩ := (same_mapping hes).mp h
    rw [Data.height, Data.height, Nat.add_right_cancel_iff]
    apply Nat.le_antisymm
    · refine heightEntries_mono fun e he => ?_
      obtain ⟨f, hf, hkey, hsame⟩ := hentries e he
      exact ⟨f, hf, hkey, ih e he hsame⟩
    · refine heightEntries_mono fun f hf => ?_
      obtain ⟨e, he, hkey, hsame⟩ := hes.counterpart hcs hlength hentries f hf
      exact ⟨e, he, hkey, (ih e he hsame).symm⟩

theorem Same.className (h : Same d c) : d.className = c.className := by
  cases h.left with
  | atom ha => rw [(same_atom ha).mp h]
  | list =>
    obtain ⟨cs, rfl, -⟩ := same_list.mp h
    rfl
  | mapping hes =>
    obtain ⟨cs, rfl, -⟩ := (same_mapping hes).mp h
    rfl

/-- Two lists are ordered as their first differing items are. -/
theorem lessAll?_congr {ds' cs' : List Data}
    (h : List.Forall₂ (fun d d' => Same d d' ∧ ∀ {c c' : Data}, Same c c' → d.less? c = d'.less? c') ds ds')
    (k : List.Forall₂ Same cs cs') : lessAll? ds cs = lessAll? ds' cs' := by
  induction h generalizing cs cs' with
  | nil => cases k <;> simp [lessAll?]
  | cons hdd _ ih =>
    cases k with
    | nil => simp [lessAll?]
    | cons hcc hrest =>
      rw [lessAll?, lessAll?, hdd.1.left.alike, hdd.1.right.alike, hdd.1.equal_congr hcc, hdd.2 hcc, ih hrest]

/-- Equal contents are ordered the same way. -/
theorem Same.less?_congr (h : Same d d') (k : Same c c') : d.less? c = d'.less? c' := by
  have hd := h.left
  induction hd generalizing d' c c' with
  | atom ha =>
    obtain rfl := (same_atom ha).mp h
    cases k.left with
    | atom hb =>
      obtain rfl := (same_atom hb).mp k
      rfl
    | list =>
      obtain ⟨cs, rfl, -⟩ := same_list.mp k
      simp [less?]
    | mapping hes =>
      obtain ⟨cs, rfl, -⟩ := (same_mapping hes).mp k
      simp [less?]
  | list _ ih =>
    obtain ⟨ds', rfl, hds⟩ := same_list.mp h
    cases k.left with
    | atom hb =>
      obtain rfl := (same_atom hb).mp k
      simp [less?]
    | list =>
      obtain ⟨cs', rfl, hcs⟩ := same_list.mp k
      rw [less?, less?]
      exact lessAll?_congr (forall₂_imp_mem hds fun x hx y hxy => ⟨hxy, fun hcc => ih x hx hxy hcc⟩) hcs
    | mapping hes =>
      obtain ⟨cs, rfl, -⟩ := (same_mapping hes).mp k
      simp [less?]
  | mapping hes =>
    obtain ⟨ds', rfl, -⟩ := (same_mapping hes).mp h
    simp [less?]

/-! ## Entries -/

/-- Only the text itself is the key that a text is. -/
theorem alike_text_iff {t : String} : (Data.atom (.text t)).alike c = true ↔ c = .atom (.text t) := by
  constructor
  · intro h
    rw [(Plain.atom (a := .text t) trivial).alike] at h
    cases c with
    | atom b =>
      have htext : (Atom.text t).numeral? = none := rfl
      rw [Data.equal, Atom.equal, htext] at h
      cases hb : b.numeral? with
      | some n =>
        rw [hb] at h
        cases h
      | none =>
        rw [hb, beq_iff_eq] at h
        rw [← h]
    | _ => simp [Data.equal] at h
  · rintro rfl
    rw [alike_texts, beq_self_eq_true]

/-- Under a key stands the entry that has it. -/
theorem Keyed.find?_iff (h : Keyed es) {t : String} :
    find? es (.atom (.text t)) = some d ↔ (.atom (.text t), d) ∈ es := by
  constructor
  · intro hfind
    obtain ⟨e, he, rfl⟩ := Option.map_eq_some_iff.mp hfind
    obtain ⟨m, hm⟩ := h.2 e (List.mem_of_find?_eq_some he)
    have hkey := List.find?_some he
    rw [hm] at hkey
    have hsame := alike_text_iff.mp hkey
    rw [hsame, ← hm]
    exact List.mem_of_find?_eq_some he
  · intro hmem
    cases hfind : find? es (.atom (.text t)) with
    | none =>
      have hnot := List.find?_eq_none.mp (Option.map_eq_none_iff.mp hfind) _ hmem
      rw [alike_texts, beq_self_eq_true] at hnot
      exact absurd rfl hnot
    | some c =>
      obtain ⟨e, he, rfl⟩ := Option.map_eq_some_iff.mp hfind
      have hin := List.mem_of_find?_eq_some he
      obtain ⟨m, hm⟩ := h.2 e hin
      have hkey := List.find?_some he
      rw [hm] at hkey
      have hsame := alike_text_iff.mp hkey
      have heq := List.inj_on_of_nodup_map h.1 hin hmem (hm.trans hsame.symm)
      rw [heq]

/-- What is no text is the key of no entry. -/
theorem Keyed.find?_other (h : Keyed es) (hc : ∀ t : String, c ≠ .atom (.text t)) : find? es c = none := by
  refine Option.map_eq_none_iff.mpr (List.find?_eq_none.mpr fun e he hkey => ?_)
  obtain ⟨m, hm⟩ := h.2 e he
  rw [hm, alike_text_iff] at hkey
  exact hc m hkey

/-- Mappings of equal contents have equal contents under every key, or nothing. -/
theorem Same.find? (h : Same (.mapping es) (.mapping fs)) (key : Data) :
    (Data.find? es key = none ∧ Data.find? fs key = none) ∨
      ∃ d c, Data.find? es key = some d ∧ Data.find? fs key = some c ∧ Same d c := by
  have hes := h.left.keyed
  obtain ⟨cs, heq, hfs, hlength, hentries⟩ := (same_mapping hes).mp h
  cases heq
  by_cases hkey : ∃ t : String, key = .atom (.text t)
  · obtain ⟨t, rfl⟩ := hkey
    cases hd : Data.find? es (.atom (.text t)) with
    | some d =>
      obtain ⟨f, hf, hfkey, hsame⟩ := hentries _ (hes.find?_iff.mp hd)
      obtain ⟨k, c⟩ := f
      cases hfkey
      exact .inr ⟨d, c, rfl, hfs.find?_iff.mpr hf, hsame⟩
    | none =>
      cases hc : Data.find? fs (.atom (.text t)) with
      | none => exact .inl ⟨rfl, rfl⟩
      | some c =>
        obtain ⟨e, he, hekey, -⟩ := hes.counterpart hfs hlength hentries _ (hfs.find?_iff.mp hc)
        obtain ⟨k, d⟩ := e
        cases hekey
        cases hd.symm.trans (hes.find?_iff.mpr he)
  · have hother : ∀ t : String, key ≠ .atom (.text t) := fun t ht => hkey ⟨t, ht⟩
    exact .inl ⟨hes.find?_other hother, hfs.find?_other hother⟩

end

end Data

end Conform
