/-!
# Reports

The outcome of checking one value against one fact: the violations in order, none if the value
passes. Each violation says what was expected and, as a path from the outside in, where. Reports
compose by concatenation, so a conjunction reports every violation of every part at once.
-/

namespace Conform

/-- The separator between the segments of a path, and between the path and the message. -/
def pathSeparator : String := " > "

/-- A single unmet constraint and the path to it, outermost segment first. -/
structure Violation where
  message : String
  path : List String
deriving DecidableEq, Inhabited, Repr

namespace Violation

/-- The violation as seen from one level further out. -/
def under (segment : String) (v : Violation) : Violation := { v with path := segment :: v.path }

/-- The path and the message in one line. -/
def render (v : Violation) : String := pathSeparator.intercalate (v.path ++ [v.message])

end Violation

/-- The violations found, in order. -/
structure Report where
  violations : List Violation
deriving DecidableEq, Inhabited, Repr

namespace Report

/-- The report of a value that passes. -/
def pass : Report := ⟨[]⟩

/-- The report of one violation at the value itself. -/
def fail (message : String) : Report := ⟨[⟨message, []⟩]⟩

/-- Passes or fails as told. The message is made only for a failure. -/
@[macro_inline] def single (ok : Bool) (message : String) : Report := if ok then pass else fail message

/-- Whether nothing is violated. -/
def ok (r : Report) : Bool := r.violations.isEmpty

/-- The number of violations. -/
def size (r : Report) : Nat := r.violations.length

/-- The violations as lines of text. -/
def messages (r : Report) : List String := r.violations.map Violation.render

/-- The report as seen from one level further out. -/
def under (segment : String) (r : Report) : Report := ⟨r.violations.map (Violation.under segment)⟩

/-- The report with every message changed and every path kept. -/
def mapMessages (f : String → String) (r : Report) : Report :=
  ⟨r.violations.map fun v => { v with message := f v.message }⟩

/-- The violations of the first report, then those of the second. -/
def append (r t : Report) : Report := ⟨r.violations ++ t.violations⟩

instance : Append Report := ⟨append⟩

/-- All violations of several reports, in order. -/
def combine (rs : List Report) : Report := ⟨rs.flatMap (·.violations)⟩

@[simp] theorem violations_append (r t : Report) :
    (r ++ t).violations = r.violations ++ t.violations := rfl

@[simp] theorem ok_pass : pass.ok = true := rfl

@[simp] theorem ok_fail (message : String) : (fail message).ok = false := rfl

@[simp] theorem ok_single (b : Bool) (message : String) : (single b message).ok = b := by
  cases b <;> rfl

@[simp] theorem ok_append (r t : Report) : (r ++ t).ok = (r.ok && t.ok) := by
  cases h : r.violations <;> simp [ok, h]

@[simp] theorem ok_under (segment : String) (r : Report) : (r.under segment).ok = r.ok := by
  simp [ok, under]

theorem combine_cons (r : Report) (rs : List Report) : combine (r :: rs) = r ++ combine rs := by
  rw [combine, List.flatMap_cons]
  rfl

end Report

end Conform
