/-!
# Halves of surrogate pairs

A code between `firstHalf` and `lastHalf` is half of a pair of codes and no character. Some notations can
spell such a half on its own, and then a text holds a stand-in for it, taken from the last private
range. `charOf` and `codeOf` go from codes to the characters of texts and back; `codeOf_charOf` says
that no code is lost.
-/

namespace Conform.Text

/-- The least code that is half of a pair. -/
def firstHalf : Nat := 0xd800

/-- The greatest code that is half of a pair. -/
def lastHalf : Nat := 0xdfff

/-- Whether a code is half of a pair. -/
def isHalf (code : Nat) : Bool := firstHalf ≤ code && code ≤ lastHalf

/-- The code of the character that stands in for the first half. -/
def firstStandIn : Nat := 0x10f000

/-- Whether a code is that of a stand-in. -/
def isStandIn (code : Nat) : Bool :=
  firstStandIn ≤ code && code ≤ firstStandIn + (lastHalf - firstHalf)

/-- The character by which a text holds a code. -/
def charOf (code : Nat) : Char :=
  if isHalf code then Char.ofNat (firstStandIn + (code - firstHalf)) else Char.ofNat code

/-- The code that a character of a text stands for. -/
def codeOf (c : Char) : Nat :=
  if isStandIn c.toNat then firstHalf + (c.toNat - firstStandIn) else c.toNat

theorem isHalf_iff {n : Nat} : isHalf n = true ↔ 0xd800 ≤ n ∧ n ≤ 0xdfff := by
  rw [isHalf, Bool.and_eq_true, decide_eq_true_iff, decide_eq_true_iff]
  rfl

theorem isStandIn_iff {n : Nat} : isStandIn n = true ↔ 0x10f000 ≤ n ∧ n ≤ 0x10f7ff := by
  rw [isStandIn, Bool.and_eq_true, decide_eq_true_iff, decide_eq_true_iff]
  rfl

theorem toNat_ofNat {n : Nat} (h : n.isValidChar) : (Char.ofNat n).toNat = n := by
  rw [Char.ofNat, dif_pos h]
  rfl

/-- A text keeps every code but those of the stand-ins themselves. -/
theorem codeOf_charOf {n : Nat} (h : n < 0x110000) (hn : isStandIn n = false) :
    codeOf (charOf n) = n := by
  by_cases hh : isHalf n = true
  · have hb := isHalf_iff.mp hh
    have ht : (charOf n).toNat = 0x10f000 + (n - 0xd800) := by
      rw [charOf, if_pos hh]
      exact toNat_ofNat (Or.inr ⟨by simp only [firstStandIn, firstHalf]; omega,
        by simp only [firstStandIn, firstHalf]; omega⟩)
    rw [codeOf, ht, if_pos (isStandIn_iff.mpr ⟨by omega, by omega⟩)]
    simp only [firstHalf, firstStandIn]
    omega
  · have hb := mt isHalf_iff.mpr hh
    have ht : (charOf n).toNat = n := by
      rw [charOf, if_neg hh]
      refine toNat_ofNat ?_
      by_cases hl : n < 0xd800
      · exact Or.inl hl
      · exact Or.inr ⟨by omega, h⟩
    rw [codeOf, ht, if_neg (by simp [hn])]

end Conform.Text
