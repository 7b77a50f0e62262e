import Conform.Value.Rendering
import Conform.Yaml.Text
import Mathlib.Data.List.Basic
import Mathlib.Data.Nat.Digits.Defs

/-!
# Reading quoted texts back

A text is shown between marks, with escapes for what would not be seen. `Text.readChar?` reads one
character of it back, and finds the code that was written and what stands behind it
(`Text.readChar?_quoteChar`), so different texts are shown differently (`Text.quote_inj`). With the
integers, whose digits say them, this holds of all atoms that are integers or texts
(`toString_integer_inj`, `toString_ne_quote`).
-/

namespace Conform.Text

open Yaml (hexValue? hexNumber? codeLengths)

/-! ## Codes -/

/-- Different characters have different codes: a stand-in has the code of a half, which is no
character's own. -/
theorem codeOf_inj {c d : Char} (h : codeOf c = codeOf d) : c = d := by
  apply Char.toNat_inj.mp
  have valid (c : Char) : ¬ (0xd800 ≤ c.toNat ∧ c.toNat ≤ 0xdfff) := by
    have := c.valid
    simp only [UInt32.isValidChar, Nat.isValidChar] at this
    show ¬ (0xd800 ≤ c.val.toNat ∧ c.val.toNat ≤ 0xdfff)
    omega
  have hc := valid c
  have hd := valid d
  rw [codeOf, codeOf, show firstHalf = 0xd800 from rfl, show firstStandIn = 0x10f000 from rfl] at h
  split at h
  · next hcs =>
    have := isStandIn_iff.mp hcs
    split at h
    · next hds =>
      have := isStandIn_iff.mp hds
      omega
    · omega
  · split at h
    · next hds =>
      have := isStandIn_iff.mp hds
      omega
    · exact h

theorem codeOf_lt (c : Char) : codeOf c < 0x110000 := by
  have hc : c.toNat < 0x110000 := by
    have := c.valid
    simp only [UInt32.isValidChar, Nat.isValidChar] at this
    show c.val.toNat < 0x110000
    omega
  rw [codeOf]
  split
  · next h =>
    have := isStandIn_iff.mp h
    simp only [firstHalf, firstStandIn]
    omega
  · exact hc

/-! ## Hexadecimal digits -/

theorem hexValue?_digitChar {n : Nat} (h : n < 16) : hexValue? n.digitChar = some n := by
  revert n
  decide

theorem hexNumber?_append {cs ds : List Char} {n : Nat} (h : hexNumber? cs = some n) :
    hexNumber? (cs ++ ds) = ds.foldlM (fun n c => (hexValue? c).map (16 * n + ·)) n := by
  rw [hexNumber?] at h
  rw [hexNumber?, List.foldlM_append, h]
  rfl

theorem hexNumber?_toDigits (n : Nat) : hexNumber? (Nat.toDigits 16 n) = some n := by
  induction n using Nat.strong_induction_on with
  | _ n ih =>
    rw [Nat.toDigits_eq_if (by decide)]
    split
    · next h => simp [hexNumber?, hexValue?_digitChar h]
    · next h =>
      rw [hexNumber?_append (ih (n / 16) (by omega))]
      simp [hexValue?_digitChar (n := n % 16) (by omega)]
      omega

/-- Zeros in front do not count. -/
theorem hexNumber?_hex (width n : Nat) : hexNumber? (hex width n) = some n := by
  have zeros (k : Nat) : hexNumber? (List.replicate k '0') = some 0 := by
    induction k with
    | zero => rfl
    | succ k ih =>
      rw [List.replicate_succ', hexNumber?_append ih]
      rfl
  rw [hex, hexNumber?_append (zeros _)]
  exact hexNumber?_toDigits n

theorem length_hex {width n : Nat} (hwidth : 0 < width) (h : n < 16 ^ width) : (hex width n).length = width := by
  have := Nat.toDigits_length 16 n width hwidth h
  simp only [hex, List.length_append, List.length_replicate]
  omega

/-! ## Reading -/

/-- The code that an escape stands for, which is read behind its backslash, and what follows. -/
def readEscape? : List Char → Option (Nat × List Char)
  | [] => none
  | e :: rest =>
    match codeLengths.lookup e with
    | some width => (hexNumber? (rest.take width)).map (·, rest.drop width)
    | none =>
      if e = 'n' then some (codeOf '\n', rest)
      else if e = 'r' then some (codeOf '\r', rest)
      else if e = 't' then some (codeOf '\t', rest)
      else some (codeOf e, rest)

/-- The code that the first character of a quoted text stands for, or the escape in its place, and what
follows. -/
def readChar? : List Char → Option (Nat × List Char)
  | [] => none
  | c :: rest => if c = backslash then readEscape? rest else some (codeOf c, rest)

theorem readEscape?_hex (e : Char) (width : Nat) {n : Nat} (he : codeLengths.lookup e = some width) (hwidth : 0 < width)
    (h : n < 16 ^ width) (rest : List Char) : readEscape? (e :: (hex width n ++ rest)) = some (n, rest) := by
  have hlength := length_hex hwidth h
  simp only [readEscape?, he]
  rw [List.take_left' hlength, List.drop_left' hlength, hexNumber?_hex]
  rfl

/-- A mark that encloses texts is one of the two quotation marks. -/
theorem markFor_eq (cs : List Char) : markFor cs = singleMark ∨ markFor cs = doubleMark := by
  rw [markFor]
  split
  · exact .inr rfl
  · exact .inl rfl

/-- The short escapes of the marks, the backslash and the controls are read back. -/
theorem readChar?_shortEscape {mark c : Char} {cs : List Char} (hmark : mark = singleMark ∨ mark = doubleMark)
    (h : shortEscape? mark c = some cs) (rest : List Char) : readChar? (cs ++ rest) = some (codeOf c, rest) := by
  rw [shortEscape?] at h
  split at h
  · next hc =>
    cases h
    rcases Bool.or_eq_true_iff.mp hc with hc | hc
    · rcases hmark with rfl | rfl <;> (rw [of_decide_eq_true hc]; rfl)
    · rw [of_decide_eq_true hc]
      rfl
  split at h
  · next hc =>
    cases h
    rw [hc]
    rfl
  split at h
  · next hc =>
    cases h
    rw [hc]
    rfl
  split at h
  · next hc =>
    cases h
    rw [hc]
    rfl
  · cases h

theorem ne_backslash_of_shortEscape {mark c : Char} (h : shortEscape? mark c = none) : c ≠ backslash := by
  rintro rfl
  simp [shortEscape?] at h

/-- What is written for a character is read back as its code, whatever follows. -/
theorem readChar?_quoteChar {mark : Char} (hmark : mark = singleMark ∨ mark = doubleMark) (c : Char)
    (rest : List Char) : readChar? (quoteChar mark c ++ rest) = some (codeOf c, rest) := by
  rw [quoteChar]
  split
  · next cs h => exact readChar?_shortEscape hmark h rest
  next h =>
  have hc := ne_backslash_of_shortEscape h
  split
  · simp only [List.singleton_append, readChar?, if_neg hc]
  -- the three lengths of an escape by code
  dsimp only
  split
  · next hsmall => exact readEscape?_hex 'x' 2 rfl (by decide) hsmall rest
  split
  · next hsmall => exact readEscape?_hex 'u' 4 rfl (by decide) hsmall rest
  · exact readEscape?_hex 'U' 8 rfl (by decide) ((codeOf_lt c).trans (by decide)) rest

theorem flatMap_quoteChar_inj {mark : Char} (hmark : mark = singleMark ∨ mark = doubleMark) :
    ∀ {cs ds : List Char}, cs.flatMap (quoteChar mark) = ds.flatMap (quoteChar mark) → cs = ds := by
  intro cs
  induction cs with
  | nil =>
    intro ds h
    cases ds with
    | nil => rfl
    | cons d ds =>
      have hd := readChar?_quoteChar hmark d (ds.flatMap (quoteChar mark))
      rw [← List.flatMap_cons, ← h] at hd
      cases hd
  | cons c cs ih =>
    intro ds h
    have hc := readChar?_quoteChar hmark c (cs.flatMap (quoteChar mark))
    rw [← List.flatMap_cons, h] at hc
    cases ds with
    | nil => cases hc
    | cons d ds =>
      rw [List.flatMap_cons, readChar?_quoteChar hmark, Option.some.injEq, Prod.mk.injEq] at hc
      rw [codeOf_inj hc.1, ih hc.2.symm]

/-- Different texts are shown differently. -/
theorem quote_inj {s t : String} (h : quote s = quote t) : s = t := by
  have h := String.ofList_injective h
  simp only [List.cons_append, List.cons.injEq] at h
  obtain ⟨hmark, h⟩ := h
  rw [hmark] at h
  exact String.toList_inj.mp (flatMap_quoteChar_inj (markFor_eq _) (List.append_cancel_right h))

/-- A quoted text starts with a quotation mark. -/
theorem toList_quote (s : String) :
    ∃ cs, (quote s).toList = singleMark :: cs ∨ (quote s).toList = doubleMark :: cs := by
  refine ⟨s.toList.flatMap (quoteChar (markFor s.toList)) ++ [markFor s.toList], ?_⟩
  rw [quote, String.toList_ofList, List.cons_append]
  rcases markFor_eq s.toList with h | h
  · exact .inl (by rw [h])
  · exact .inr (by rw [h])

end Conform.Text

namespace Conform

/-! ## Integers -/

theorem toString_natural_inj {m n : Nat} (h : toString m = toString n) : m = n := by
  rw [Nat.toString_eq_ofList_toDigits, Nat.toString_eq_ofList_toDigits] at h
  rw [← Nat.ofDigitChars_ten_toDigits (n := m), String.ofList_injective h, Nat.ofDigitChars_ten_toDigits]

/-- The written form of an integer starts with a digit or a minus sign. -/
theorem toList_toString_integer (n : Int) :
    ∃ c cs, (toString n).toList = c :: cs ∧ (c.isDigit = true ∨ c = '-') := by
  cases n with
  | ofNat n =>
    have h : (toString (Int.ofNat n)).toList = Nat.toDigits 10 n := by
      rw [show toString (Int.ofNat n) = toString n from rfl, Nat.toString_eq_ofList_toDigits,
        String.toList_ofList]
    obtain ⟨c, cs, hcs⟩ := List.exists_cons_of_ne_nil (Nat.toDigits_ne_nil (n := n) (b := 10))
    refine ⟨c, cs, h.trans hcs, .inl (Nat.isDigit_of_mem_toDigits (by decide) (by decide) (n := n) (b := 10) ?_)⟩
    rw [hcs]
    exact List.mem_cons_self
  | negSucc n => exact ⟨'-', (toString (n + 1)).toList, String.toList_append, .inr rfl⟩

theorem toString_ofNat_ne_negSucc (m n : Nat) : toString (Int.ofNat m) ≠ toString (Int.negSucc n) := by
  intro h
  have hmem : '-' ∈ Nat.toDigits 10 m := by
    have h := congrArg String.toList h
    rw [show toString (Int.ofNat m) = toString m from rfl, Nat.toString_eq_ofList_toDigits,
      String.toList_ofList] at h
    rw [h, show toString (Int.negSucc n) = "-" ++ toString (n + 1) from rfl, String.toList_append]
    exact List.mem_append_left _ (by decide)
  exact absurd (Nat.isDigit_of_mem_toDigits (by decide) (by decide) hmem) (by decide)

theorem toString_integer_inj {m n : Int} (h : toString m = toString n) : m = n := by
  cases m with
  | ofNat m =>
    cases n with
    | ofNat n => exact congrArg Int.ofNat (toString_natural_inj h)
    | negSucc n => exact absurd h (toString_ofNat_ne_negSucc m n)
  | negSucc m =>
    cases n with
    | ofNat n => exact absurd h.symm (toString_ofNat_ne_negSucc n m)
    | negSucc n =>
      have h : toString (m + 1) = toString (n + 1) :=
        (String.append_right_inj "-").mp (show "-" ++ toString (m + 1) = "-" ++ toString (n + 1) from h)
      rw [Nat.succ.inj (toString_natural_inj h)]

/-- No integer is shown as a text is. -/
theorem toString_ne_quote (n : Int) (s : String) : toString n ≠ Text.quote s := by
  intro h
  obtain ⟨c, cs, hcs, hc⟩ := toList_toString_integer n
  obtain ⟨ds, hds⟩ := Text.toList_quote s
  rw [← h, hcs, List.cons.injEq, List.cons.injEq] at hds
  have hmark : c = Text.singleMark ∨ c = Text.doubleMark := hds.imp And.left And.left
  rcases hmark with rfl | rfl <;> exact absurd hc (by decide)

end Conform
