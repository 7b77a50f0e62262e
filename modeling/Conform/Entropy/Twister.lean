import Conform.Decimal.Power

/-!
# The Mersenne twister

A generator of 32-bit words with a state of 624 words. It is seeded from the words of a natural
number, the least significant first, so that equal seeds give equal sequences.
-/

namespace Conform

/-- The state: the words of the current block, and how many of them are used up. -/
structure Twister where
  words : Array UInt32
  position : Nat
deriving Inhabited

namespace Twister

/-- The number of words in a block. -/
def blockSize : Nat := 624

/-- The word at a place of a block. -/
def word (ws : Array UInt32) (i : Nat) : UInt32 := ws.getD i 0

/-- The block that a single word expands to. -/
def expand (start : UInt32) : Array UInt32 :=
  (List.range (blockSize - 1)).foldl (fun (ws : Array UInt32) i =>
    let w := word ws i
    ws.push ((w ^^^ (w >>> 30)) * 1812433253 + UInt32.ofNat (i + 1))) #[start]

/-- A place of a block that is being mixed, kept off the first one: after the last place, the last
word is copied to the front and mixing goes on from the second. -/
def wrap (ws : Array UInt32) (i : Nat) : Array UInt32 × Nat :=
  if blockSize ≤ i then (ws.setIfInBounds 0 (word ws (blockSize - 1)), 1) else (ws, i)

/-- One step of mixing a key into a block. -/
def mixKey (key : Array UInt32) (st : Array UInt32 × Nat × Nat) : Array UInt32 × Nat × Nat :=
  let (ws, i, j) := st
  let w := word ws (i - 1)
  let x := (word ws i ^^^ ((w ^^^ (w >>> 30)) * 1664525)) + word key j + UInt32.ofNat j
  let (ws, i) := wrap (ws.setIfInBounds i x) (i + 1)
  (ws, i, if key.size ≤ j + 1 then 0 else j + 1)

/-- One step of the final mixing of a block. -/
def mixPlace (st : Array UInt32 × Nat) : Array UInt32 × Nat :=
  let (ws, i) := st
  let w := word ws (i - 1)
  let x := (word ws i ^^^ ((w ^^^ (w >>> 30)) * 1566083941)) - UInt32.ofNat i
  wrap (ws.setIfInBounds i x) (i + 1)

/-- The words of a natural number, the least significant first, at most `fuel` of them. -/
def keyWords : (fuel n : Nat) → List UInt32
  | 0, _ => []
  | fuel + 1, n =>
    UInt32.ofNat (n % twoTo 32) :: (if n < twoTo 32 then [] else keyWords fuel (n / twoTo 32))

/-- The generator seeded by a natural number. -/
def ofSeed (n : Nat) : Twister :=
  let key := (keyWords (n.log2 / 32 + 1) n).toArray
  let (ws, i, _) :=
    (List.range (max blockSize key.size)).foldl (fun st _ => mixKey key st) (expand 19650218, 1, 0)
  let (ws, _) := (List.range (blockSize - 1)).foldl (fun st _ => mixPlace st) (ws, i)
  ⟨ws.setIfInBounds 0 0x80000000, blockSize⟩

/-- The next block. Places are replaced in order, so later ones already see new words. -/
def twist (ws : Array UInt32) : Array UInt32 :=
  (List.range blockSize).foldl (fun (ws : Array UInt32) i =>
    let y := (word ws i &&& 0x80000000) ||| (word ws ((i + 1) % blockSize) &&& 0x7fffffff)
    let z := word ws ((i + 397) % blockSize) ^^^ (y >>> 1)
    ws.setIfInBounds i (if y &&& 1 = 1 then z ^^^ 0x9908b0df else z)) ws

/-- Spreads the bits of a word before it is given out. -/
def temper (y : UInt32) : UInt32 :=
  let y := y ^^^ (y >>> 11)
  let y := y ^^^ ((y <<< 7) &&& 0x9d2c5680)
  let y := y ^^^ ((y <<< 15) &&& 0xefc60000)
  y ^^^ (y >>> 18)

/-- The next word. -/
def next (t : Twister) : UInt32 × Twister :=
  let t := if t.position < blockSize then t else ⟨twist t.words, 0⟩
  (temper (word t.words t.position), ⟨t.words, t.position + 1⟩)

/-- A natural number of at most `k` bits, from as many words as it takes, the least significant
first; of the last one the high bits count. -/
def bits (t : Twister) (k : Nat) : Nat × Twister :=
  if k ≤ 32 then
    let (w, t) := t.next
    (w.toNat / twoTo (32 - k), t)
  else
    let (w, t) := t.next
    let (n, t) := bits t (k - 32)
    (w.toNat + twoTo 32 * n, t)
termination_by k

/-- A natural number of 53 bits, from the high bits of two words. -/
def bits53 (t : Twister) : Nat × Twister :=
  let (a, t) := t.next
  let (b, t) := t.next
  (a.toNat / twoTo 5 * twoTo 26 + b.toNat / twoTo 6, t)

/-- A natural number of `k` bits below `n`, by drawing until one is, at most `fuel` times. -/
def drawBelow (n k : Nat) : (fuel : Nat) → Twister → Nat × Twister
  | 0, t => (0, t)
  | fuel + 1, t =>
    let (r, t) := t.bits k
    if r < n then (r, t) else drawBelow n k fuel t

/-- A natural number below `n`. More than half of all draws are, so a thousand are enough. -/
def below (t : Twister) (n : Nat) : Nat × Twister := drawBelow n (n.log2 + 1) 1000 t

end Twister

end Conform
