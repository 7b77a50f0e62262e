import Conform.Decimal.Binary64
import Conform.Entropy.Twister

/-!
# Sources of choices

A source answers two questions: which of the first `n` naturals, and which number of the unit
interval. All choices are derived from these, so a source with the same answers replays a run.

* `seeded` answers from a generator with a seed;
* `tape` answers from a list of integers, read in a circle, and counts the reads;
* `fixed` stands for a source that always takes the lowest answer and repeats templates unchanged.
-/

namespace Conform

/-- Where choices come from. -/
inductive Source
  | seeded (seed : Int) (state : Twister)
  | tape (entries : List Int) (reads : Nat)
  | fixed
deriving Inhabited

namespace Source

/-- The source with a seed, of which the sign is ignored. -/
def ofSeed (n : Int) : Source := .seeded n (Twister.ofSeed n.natAbs)

/-- Whether choices vary, so that templates are not repeated unchanged. -/
def isFixed : Source → Bool
  | .fixed => true
  | _ => false

/-- The tape's entry at a place, the tape being read in a circle. -/
def entry (entries : List Int) (i : Nat) : Int := (entries[i % entries.length]?).getD 0

/-- The next entry of a tape, if the source is one. -/
def read? : Source → Option (Int × Source)
  | .tape entries i => some (entry entries i, .tape entries (i + 1))
  | .seeded _ _ | .fixed => none

/-- One of the first `n` naturals, for positive `n`. -/
def below (n : Nat) : Source → Nat × Source
  | .seeded seed t =>
    let (r, t) := t.below n
    (r, .seeded seed t)
  | .tape entries i => ((entry entries i % (n : Int)).toNat, .tape entries (i + 1))
  | .fixed => (0, .fixed)

/-- A number of the unit interval, 1 excluded. -/
def unit : Source → Binary64 × Source
  | .seeded seed t =>
    let (r, t) := t.bits53
    (Binary64.ofRatio false r (twoTo 53), .seeded seed t)
  | .tape entries i =>
    (Binary64.ofRatio false (entry entries i % 1024).toNat 1024, .tape entries (i + 1))
  | .fixed => (Binary64.ofInt 0, .fixed)

/-- The seed; sources without a seed of their own have zero. -/
def seed : Source → Int
  | .seeded n _ => n
  | .tape _ _ | .fixed => 0

/-- The source as it is shown for inspection. -/
def shown (s : Source) : String := "SeededEntropy(seed=" ++ toString s.seed ++ ")"

end Source

end Conform
