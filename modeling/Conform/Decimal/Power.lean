/-!
# Powers of two and of ten

The two bases in which numbers are scaled, and the greatest number of digits with which integers are
read and written.
-/

namespace Conform

/-- The power of two with the given exponent. -/
def twoTo (n : Nat) : Nat := Nat.pow 2 n

/-- The power of ten with the given exponent. -/
def tenTo (n : Nat) : Nat := Nat.pow 10 n

/-- The greatest number of digits with which an integer is read or written. -/
def digitLimit : Nat := 4300

/-- Whether an integer has few enough digits to be written. -/
def isWritable (n : Int) : Bool := n.natAbs < tenTo digitLimit

theorem twoTo_pos (n : Nat) : 0 < twoTo n := Nat.pow_pos (by decide)

end Conform
