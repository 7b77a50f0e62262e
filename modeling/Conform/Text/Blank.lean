/-!
# Blank characters

The characters that show nothing but a gap: blanks of every width, tabs, the ends of lines and pages,
and the four separators of records.
-/

namespace Conform.Text

/-- The ranges of blank characters, both ends included, in ascending order. -/
def blankRanges : List (Nat × Nat) :=
  [(9, 13), (28, 32), (0x85, 0x85), (0xa0, 0xa0), (0x1680, 0x1680), (0x2000, 0x200a),
   (0x2028, 0x2029), (0x202f, 0x202f), (0x205f, 0x205f), (0x3000, 0x3000)]

/-- Whether a character is blank. -/
def isBlank (c : Char) : Bool := blankRanges.any fun r => r.1 ≤ c.toNat && c.toNat ≤ r.2

/-- Whether a text shows nothing. -/
def isAllBlank (s : String) : Bool := s.toList.all isBlank

example : isBlank ' ' = true ∧ isBlank '\t' = true ∧ isBlank 'x' = false := by decide

end Conform.Text
