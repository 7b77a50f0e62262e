import Conform.Fact.Make
import Conform.Fact.Mutate
import Conform.Proofs.Leaves
import Conform.Proofs.Quoting
import Mathlib.Data.List.Sort
import Mathlib.Data.List.Lex
import Mathlib.Data.Set.List

/-!
# The order of options

A set is enumerated in some order, which a fact of membership must not show. Integers are put in
ascending order, texts in the order of their codes, and where both occur nothing can be compared, so the
options go by the texts that show them. Each time the order is that of a key (`mergeSort_perm`), and the
key tells the elements apart: for mixtures because no two of them are shown alike. So the options that a
fact keeps are the same for every enumeration of the set (`Fact.mkInSet_enumerations`).
-/

namespace Conform

open Act

/-! ## Sorting by a key -/

section Key

variable {α κ : Type} [LinearOrder κ] (key : α → κ) {le : α → α → Bool} {xs ys : List α}

/-- Sorting by a comparison that goes by a key on the elements there are sorts the keys. -/
theorem pairwise_mergeSort_key (hle : ∀ a ∈ xs, ∀ b ∈ xs, le a b = decide (key a ≤ key b)) :
    (xs.mergeSort le).Pairwise fun a b => key a ≤ key b := by
  have hsort := List.map_mergeSort (f := id) (s := fun a b => decide (key a ≤ key b)) hle
  simp only [List.map_id] at hsort
  rw [hsort]
  have htrans (a b c : α) (hab : decide (key a ≤ key b) = true) (hbc : decide (key b ≤ key c) = true) :
      decide (key a ≤ key c) = true :=
    decide_eq_true ((of_decide_eq_true hab).trans (of_decide_eq_true hbc))
  have htotal (a b : α) : (decide (key a ≤ key b) || decide (key b ≤ key a)) = true := by
    simpa using le_total (key a) (key b)
  exact (List.pairwise_mergeSort htrans htotal xs).imp of_decide_eq_true

/-- A key that tells the elements apart leaves one way to sort them. -/
theorem mergeSort_perm (h : xs.Perm ys) (hle : ∀ a ∈ xs, ∀ b ∈ xs, le a b = decide (key a ≤ key b))
    (hinj : ∀ a ∈ xs, ∀ b ∈ xs, key a = key b → a = b) : xs.mergeSort le = ys.mergeSort le := by
  have hle' : ∀ a ∈ ys, ∀ b ∈ ys, le a b = decide (key a ≤ key b) := fun a ha b hb =>
    hle a (h.mem_iff.mpr ha) b (h.mem_iff.mpr hb)
  refine List.Perm.eq_of_pairwise (fun a b ha hb hab hba => ?_) (pairwise_mergeSort_key key hle)
    (pairwise_mergeSort_key key hle') ((List.mergeSort_perm xs le).trans (h.trans (List.mergeSort_perm ys le).symm))
  rw [List.mem_mergeSort] at ha hb
  exact hinj a ha b (h.mem_iff.mpr hb) (le_antisymm hab hba)

end Key

/-! ## Orders of atoms -/

/-- The codes of a text. -/
def Text.codes (t : String) : List Nat := t.toList.map Text.codeOf

theorem Text.codes_inj {s t : String} (h : codes s = codes t) : s = t :=
  String.toList_inj.mp (List.map_injective_iff.mpr (fun _ _ => codeOf_inj) h)

theorem Data.lexLess_eq (xs ys : List Nat) : lexLess xs ys = decide (xs < ys) := by
  induction xs generalizing ys with
  | nil => cases ys <;> simp [lexLess]
  | cons x xs ih =>
    cases ys with
    | nil => simp [lexLess]
    | cons y ys => simp [lexLess, ih, List.cons_lt_cons_iff, beq_eq_decide]

/-- One text is not above the other when its codes come first. -/
theorem Data.not_textLess (s t : String) : (!textLess t s) = decide (Text.codes s ≤ Text.codes t) := by
  rw [textLess, lexLess_eq, ← decide_not]
  exact decide_eq_decide.mpr not_lt

theorem Data.not_less_integer (m n : Int) : (!(Numeral.int n).less (.int m)) = decide (m ≤ n) := by
  have h : (Numeral.int n).less (.int m) = decide (n * twoTo 0 < m * twoTo 0) := rfl
  rw [h, show ((twoTo 0 : Nat) : Int) = 1 from rfl, mul_one, mul_one, ← decide_not]
  exact decide_eq_decide.mpr not_lt

/-- Integers that are no truth values, and texts. -/
inductive Value.Simple : Value → Prop
  | int (n : Int) : Simple (.int n)
  | text (t : String) : Simple (.text t)

namespace Value

/-- The text that shows a simple value. -/
def shown : Value → String
  | .atom a => a.render
  | _ => ""

theorem Simple.shown_inj {v w : Value} (hv : v.Simple) (hw : w.Simple) (h : v.shown = w.shown) : v = w := by
  cases hv with
  | int m =>
    cases hw with
    | int n => rw [toString_integer_inj (m := m) (n := n) h]
    | text t => exact absurd h (toString_ne_quote m t)
  | text s =>
    cases hw with
    | int n => exact absurd h.symm (toString_ne_quote n s)
    | text t => rw [Text.quote_inj (s := s) (t := t) h]

/-- Simple values of both kinds occur. -/
def Mixed (xs : List Value) : Prop := (∃ n, .int n ∈ xs) ∧ ∃ t, .text t ∈ xs

theorem Mixed.of_perm {xs ys : List Value} (h : xs.Perm ys) (hmixed : Mixed xs) : Mixed ys :=
  hmixed.imp (Exists.imp fun _ => h.mem_iff.mp) (Exists.imp fun _ => h.mem_iff.mp)

theorem exists_map_of_forall {α : Type} {f : α → Value} {xs : List Value} (h : ∀ v ∈ xs, ∃ a, f a = v) :
    ∃ as : List α, xs = as.map f := by
  have hrange : xs ∈ Set.range (List.map f) := by
    rw [Set.range_list_map]
    exact h
  exact hrange.imp fun _ => Eq.symm

theorem exists_map_of_perm {α : Type} {f : α → Value} (hf : Function.Injective f) {as : List α} {ys : List Value}
    (h : (as.map f).Perm ys) : ∃ bs : List α, ys = bs.map f ∧ as.Perm bs := by
  obtain ⟨bs, rfl⟩ := exists_map_of_forall (f := f) fun v hv =>
    (List.mem_map.mp (h.mem_iff.mpr hv)).imp fun _ => And.right
  exact ⟨bs, rfl, (List.map_perm_map_iff hf).mp h⟩

/-- Simple values that are not of both kinds are all of one. -/
theorem kinds_of_simple {xs : List Value} (hsimple : ∀ v ∈ xs, v.Simple) :
    (∃ ns : List Int, xs = ns.map .int) ∨ (∃ ts : List String, xs = ts.map .text) ∨ Mixed xs := by
  by_cases hint : ∃ n, .int n ∈ xs
  · by_cases htext : ∃ t, .text t ∈ xs
    · exact .inr (.inr ⟨hint, htext⟩)
    · refine .inl (exists_map_of_forall fun v hv => ?_)
      cases hsimple v hv with
      | int n => exact ⟨n, rfl⟩
      | text t => exact absurd ⟨t, hv⟩ htext
  · refine .inr (.inl (exists_map_of_forall fun v hv => ?_))
    cases hsimple v hv with
    | int n => exact absurd ⟨n, hv⟩ hint
    | text t => exact ⟨t, rfl⟩

/-- Options as a set of simple values is put in order: integers ascending, texts by their codes, and a
mixture by the codes of the texts that show its elements. -/
inductive Arranged : List Value → Prop
  | ints (ns : List Int) : ns.Pairwise (· ≤ ·) → Arranged (ns.map .int)
  | texts (ts : List String) : ts.Pairwise (fun s t => Text.codes s ≤ Text.codes t) → Arranged (ts.map .text)
  | mixed (zs : List Value) : Mixed zs → zs.Pairwise (fun v w => Text.codes v.shown ≤ Text.codes w.shown) →
    Arranged zs

end Value

namespace Fact

variable {s : Store} {w u t : World} {xs ys zs : List Value} {c d : Loc} {v : Value}

/-! ## Options in order -/

theorem orderOptions_ints (s : Store) (ns : List Int) :
    orderOptions s (.set (ns.map .int)) = .ok ((ns.mergeSort fun m n => decide (m ≤ n)).map .int) := by
  have hless (m n : Int) : Data.less? (s.view (.int m)) (s.view (.int n)) = some ((Numeral.int m).less (.int n)) := by
    rw [show s.view (.int m) = .atom (.int m) from rfl, show s.view (.int n) = .atom (.int n) from rfl, Data.less?]
    exact Data.atomLess?_numeral rfl rfl
  have hcomparable : Data.comparable ((ns.map .int).map s.view) = true := by
    simp [Data.comparable, hless]
  have hsort : (ns.mergeSort fun m n => decide (m ≤ n)).map Value.int =
      (ns.map Value.int).mergeSort fun x y => !(Data.less? (s.view y) (s.view x)).getD false :=
    List.map_mergeSort fun m _ n _ => by rw [hless, Option.getD_some, Data.not_less_integer]
  simp only [orderOptions, Data.sortedBy?, hcomparable, Bool.or_true, if_true, hsort]

theorem orderOptions_texts (s : Store) (ts : List String) :
    orderOptions s (.set (ts.map .text)) =
      .ok ((ts.mergeSort fun a b => decide (Text.codes a ≤ Text.codes b)).map .text) := by
  have hless (a b : String) : Data.less? (s.view (.text a)) (s.view (.text b)) = some (Data.textLess a b) := by
    rw [show s.view (.text a) = .atom (.text a) from rfl, show s.view (.text b) = .atom (.text b) from rfl, Data.less?]
    rfl
  have hcomparable : Data.comparable ((ts.map .text).map s.view) = true := by
    simp [Data.comparable, hless]
  have hsort : (ts.mergeSort fun a b => decide (Text.codes a ≤ Text.codes b)).map Value.text =
      (ts.map Value.text).mergeSort fun x y => !(Data.less? (s.view y) (s.view x)).getD false :=
    List.map_mergeSort fun a _ b _ => by rw [hless, Option.getD_some, Data.not_textLess]
  simp only [orderOptions, Data.sortedBy?, hcomparable, Bool.or_true, if_true, hsort]

/-- An integer and a text cannot be compared, in whatever order they come. -/
theorem not_comparable (hmixed : Value.Mixed xs) : Data.comparable (xs.map s.view) = false := by
  obtain ⟨⟨n, hn⟩, a, ha⟩ := hmixed
  rw [Data.comparable, List.all_eq_false]
  refine ⟨s.view (.int n), List.mem_map_of_mem hn, ?_⟩
  rw [Bool.not_eq_true, List.all_eq_false]
  exact ⟨s.view (.text a), List.mem_map_of_mem ha, Bool.false_ne_true⟩

theorem isWritable_int (s : Store) (n : Int) : (s.view (.int n)).isWritable = isWritable n := by
  rw [show s.view (.int n) = .atom (.int n) from rfl, Data.isWritable]

theorem view_simple (hv : v.Simple) : (s.view v).render = v.shown := by
  cases hv <;> rfl

theorem orderOptions_mixed (hsimple : ∀ v ∈ xs, v.Simple) (hmixed : Value.Mixed xs) :
    orderOptions s (.set xs) =
      if xs.all fun v => (s.view v).isWritable then
        .ok (xs.mergeSort fun v w => decide (Text.codes v.shown ≤ Text.codes w.shown))
      else .error .invalid := by
  have hlength : ¬ xs.length < 2 := by
    obtain ⟨⟨n, hn⟩, a, ha⟩ := hmixed
    rcases xs with _ | ⟨x, _ | ⟨y, rest⟩⟩
    · cases hn
    · rw [List.mem_singleton] at hn ha
      cases hn.trans ha.symm
    · simp
  have hsort : xs.mergeSort (fun v w => !Data.textLess (s.view w).render (s.view v).render) =
      xs.mergeSort fun v w => decide (Text.codes v.shown ≤ Text.codes w.shown) := by
    have h := List.map_mergeSort (f := id) (l := xs)
      (r := fun v w => !Data.textLess (s.view w).render (s.view v).render)
      (s := fun v w => decide (Text.codes v.shown ≤ Text.codes w.shown)) fun v hv w hw => by
        simp only [id, view_simple (hsimple v hv), view_simple (hsimple w hw), Data.not_textLess]
    simpa only [List.map_id] using h
  simp only [orderOptions, Data.sortedBy?, not_comparable hmixed, hlength, hsort, decide_false, Bool.or_false,
    Bool.false_eq_true, if_false]

/-- The options of a set of simple values are the set in order, unless it is a mixture with an integer of too
many digits: that one cannot be shown. -/
theorem orderOptions_simple (hsimple : ∀ v ∈ xs, v.Simple) :
    (∃ zs, zs.Perm xs ∧ Value.Arranged zs ∧ ∀ s, orderOptions s (.set xs) = .ok zs) ∨
      (Value.Mixed xs ∧ (∃ n, .int n ∈ xs ∧ isWritable n = false) ∧
        ∀ s, orderOptions s (.set xs) = .error .invalid) := by
  rcases Value.kinds_of_simple hsimple with ⟨ns, rfl⟩ | ⟨ts, rfl⟩ | hmixed
  · exact .inl ⟨_, (List.mergeSort_perm ns _).map _,
      .ints _ (pairwise_mergeSort_key id fun _ _ _ _ => rfl), fun s => orderOptions_ints s ns⟩
  · exact .inl ⟨_, (List.mergeSort_perm ts _).map _,
      .texts _ (pairwise_mergeSort_key Text.codes fun _ _ _ _ => rfl), fun s => orderOptions_texts s ts⟩
  by_cases hwritable : ∃ n, .int n ∈ xs ∧ isWritable n = false
  · refine .inr ⟨hmixed, hwritable, fun s => ?_⟩
    obtain ⟨n, hn, hunwritable⟩ := hwritable
    rw [orderOptions_mixed hsimple hmixed, if_neg]
    intro h
    have h := List.all_eq_true.mp h _ hn
    rw [isWritable_int, hunwritable] at h
    exact Bool.false_ne_true h
  · refine .inl ⟨xs.mergeSort fun v w => decide (Text.codes v.shown ≤ Text.codes w.shown), List.mergeSort_perm xs _,
      .mixed _ (hmixed.of_perm (List.mergeSort_perm xs _).symm) (pairwise_mergeSort_key _ fun _ _ _ _ => rfl),
      fun s => ?_⟩
    rw [orderOptions_mixed hsimple hmixed, if_pos]
    refine List.all_eq_true.mpr fun v hv => ?_
    cases hsimple v hv with
    | int n =>
      rw [isWritable_int, ← Bool.not_eq_false]
      exact fun h => hwritable ⟨n, hv, h⟩
    | text a => rfl

/-- Every enumeration of a set of simple values gives the same options. -/
theorem orderOptions_perm (hsimple : ∀ v ∈ xs, v.Simple) (hperm : xs.Perm ys) (s : Store) :
    orderOptions s (.set xs) = orderOptions s (.set ys) := by
  rcases Value.kinds_of_simple hsimple with ⟨ns, rfl⟩ | ⟨ts, rfl⟩ | hmixed
  · obtain ⟨ms, rfl, hms⟩ := Value.exists_map_of_perm (fun m n h => by cases h; rfl) hperm
    have hsort : (ns.mergeSort fun m n => decide (m ≤ n)) = ms.mergeSort fun m n => decide (m ≤ n) :=
      mergeSort_perm id hms (fun _ _ _ _ => rfl) fun _ _ _ _ => id
    rw [orderOptions_ints, orderOptions_ints, hsort]
  · obtain ⟨us, rfl, hus⟩ := Value.exists_map_of_perm (fun a b h => by cases h; rfl) hperm
    rw [orderOptions_texts, orderOptions_texts,
      mergeSort_perm Text.codes hus (fun _ _ _ _ => rfl) fun _ _ _ _ => Text.codes_inj]
  · have hsimple' : ∀ v ∈ ys, v.Simple := fun v hv => hsimple v (hperm.mem_iff.mpr hv)
    have hall : (xs.all fun v => (s.view v).isWritable) = ys.all fun v => (s.view v).isWritable :=
      hperm.all_eq
    rw [orderOptions_mixed hsimple hmixed, orderOptions_mixed hsimple' (hmixed.of_perm hperm), hall,
      mergeSort_perm _ hperm (fun _ _ _ _ => rfl) fun v hv w hw h =>
        (hsimple v hv).shown_inj (hsimple w hw) (Text.codes_inj h)]

/-! ## Membership -/

theorem exec_mkInSet_ok (h : orderOptions w.store (.set xs) = .ok zs) :
    exec (mkInSet (.set xs)) w =
      (.ok (.membership (w.store.alloc (.slots zs)).1), { w with store := (w.store.alloc (.slots zs)).2 }) := by
  rw [mkInSet, exec_bind, exec_ask]
  simp only [h]
  rfl

theorem exec_mkInSet_error {cause : Misuse} (h : orderOptions w.store (.set xs) = .error cause) :
    exec (mkInSet (.set xs)) w = (.error (.misuse cause), w) := by
  rw [mkInSet, exec_bind, exec_ask]
  simp only [h]
  rfl

/-- What a fact of membership answers depends on its options only. -/
theorem exec_check_membership_congr (h : w.store.slots c = w.store.slots d) (v : Value) :
    exec (check (.membership c) v) w = exec (check (.membership d) v) w := by
  have hoptions : optionsText w.store c = optionsText w.store d := by rw [optionsText, optionsText, h]
  simp only [check, checkMembership, exec_bind, exec_ask, exec_isIn, h]
  cases w.store.isIn? v (w.store.slots d) with
  | none => rfl
  | some b =>
    cases b with
    | true => rfl
    | false => simp [reportUnless, exec_bind, hoptions]

theorem exec_mutate_membership_congr (h : w.store.slots c = w.store.slots d) (v : Value) :
    exec (mutate (.membership c) v) w = exec (mutate (.membership d) v) w := by
  have htext : describe w.store (.membership c) = describe w.store (.membership d) := by
    rw [describe, describe, text, text, optionsText, optionsText, h]
  simp only [mutate, depth, mutateWithin, mutateMembership, exec_bind, exec_ask, exec_isIn, h]
  cases w.store.isIn? v (w.store.slots d) with
  | none => rfl
  | some b =>
    cases b with
    | true => rfl
    | false =>
      by_cases hempty : (w.store.slots d).isEmpty = true
      · simp [giveUp, described, exec_bind, htext, hempty]
      · simp [hempty]

/-- Membership in a set of integers and texts does not depend on how the set is enumerated. From every two
enumerations the same fact is made in the same way. It keeps the set in order, and any two facts with these
options check every value with one report and mutate it with one answer, after which the world is the same,
whatever the source says on the way. Only a mixture with an integer of too many digits cannot be put in order,
and is refused however it is enumerated. -/
theorem mkInSet_enumerations (hsimple : ∀ v ∈ xs, v.Simple) (hperm : xs.Perm ys) :
    (∃ zs, zs.Perm xs ∧ Value.Arranged zs ∧
        (∀ w, ∃ c u, exec (mkInSet (.set xs)) w = (.ok (.membership c), u) ∧
          exec (mkInSet (.set ys)) w = (.ok (.membership c), u) ∧ u.store.slots c = zs ∧ u.source = w.source) ∧
        ∀ w c d, w.store.slots c = zs → w.store.slots d = zs → ∀ v,
          exec (check (.membership c) v) w = exec (check (.membership d) v) w ∧
            exec (mutate (.membership c) v) w = exec (mutate (.membership d) v) w) ∨
      (Value.Mixed xs ∧ (∃ n, .int n ∈ xs ∧ isWritable n = false) ∧
        ∀ w, exec (mkInSet (.set xs)) w = (.error (.misuse .invalid), w) ∧
          exec (mkInSet (.set ys)) w = (.error (.misuse .invalid), w)) := by
  have hsame (s : Store) := orderOptions_perm hsimple hperm s
  rcases orderOptions_simple hsimple with ⟨zs, hzs, harranged, hoptions⟩ | ⟨hmixed, hunwritable, hoptions⟩
  · refine .inl ⟨zs, hzs, harranged, fun w => ?_, fun w c d hc hd v => ?_⟩
    · refine ⟨_, _, exec_mkInSet_ok (hoptions w.store), exec_mkInSet_ok ((hsame w.store).symm.trans (hoptions w.store)),
        ?_, rfl⟩
      show Store.slots _ w.store.size = zs
      rw [Store.slots, Store.get?_alloc_new]
    · have hslots := hc.trans hd.symm
      exact ⟨exec_check_membership_congr hslots v, exec_mutate_membership_congr hslots v⟩
  · refine .inr ⟨hmixed, hunwritable, fun w => ⟨exec_mkInSet_error (hoptions w.store), ?_⟩⟩
    exact exec_mkInSet_error ((hsame w.store).symm.trans (hoptions w.store))

/-- A text that holds a mark of its own, a control and two integers, enumerated in two ways. -/
theorem mkInSet_enumerations_mixture :
    let xs : List Value := [.text "it's", .int 10, .text "\n", .int 9]
    let ys : List Value := [.int 9, .text "\n", .int 10, .text "it's"]
    (∀ v ∈ xs, v.Simple) ∧ xs.Perm ys ∧
      ∃ zs, zs.Perm xs ∧ Value.Arranged zs ∧ ∀ w, ∃ c u, exec (mkInSet (.set xs)) w = (.ok (.membership c), u) ∧
        exec (mkInSet (.set ys)) w = (.ok (.membership c), u) ∧ u.store.slots c = zs := by
  intro xs ys
  have hsimple : ∀ v ∈ xs, v.Simple := by
    intro v hv
    simp only [xs, List.mem_cons, List.not_mem_nil, or_false] at hv
    rcases hv with rfl | rfl | rfl | rfl
    · exact .text _
    · exact .int _
    · exact .text _
    · exact .int _
  have hperm : xs.Perm ys := (List.reverse_perm xs).symm
  refine ⟨hsimple, hperm, ?_⟩
  rcases mkInSet_enumerations hsimple hperm with ⟨zs, hzs, harranged, hmade, -⟩ | ⟨-, ⟨n, hn, hunwritable⟩, -⟩
  · refine ⟨zs, hzs, harranged, fun w => ?_⟩
    obtain ⟨c, u, hxs, hys, hslots, -⟩ := hmade w
    exact ⟨c, u, hxs, hys, hslots⟩
  · have hten : isWritable 10 = true := by decide +kernel
    have hnine : isWritable 9 = true := by decide +kernel
    simp only [xs, List.mem_cons, List.not_mem_nil, or_false] at hn
    rcases hn with h | h | h | h
    · cases h
    · cases h
      exact absurd (hunwritable.symm.trans hten) Bool.false_ne_true
    · cases h
    · cases h
      exact absurd (hunwritable.symm.trans hnine) Bool.false_ne_true

end Fact
end Conform
