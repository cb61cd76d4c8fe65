/-!
# A generator of pseudo-random numbers

The state of the generator is a 64-bit word that advances by a constant. A draw multiplies the
state by a scrambled copy of itself to 128 bits and folds both halves together. Bounded numbers
are drawn without bias: a draw is scaled to the range, and draws that would favour some results
are repeated.
-/

namespace RegularLanguages.Random

/-- The state of a generator. -/
structure Generator where
  state : UInt64

namespace Generator

/-- The 128-bit product of two words, as its high and its low half. -/
def wideMul (a b : UInt64) : UInt64 × UInt64 :=
  let p := a.toNat * b.toNat
  (UInt64.ofNat (p >>> 64), UInt64.ofNat p)

/-- Draws a word. -/
def next (g : Generator) : UInt64 × Generator :=
  let s := g.state + 0x2d358dccaa6c78a5
  let (high, low) := wideMul s (s ^^^ 0x8bb84b93962eacc9)
  (low ^^^ high, ⟨s⟩)

/-- Draws a truth value. -/
def bool (g : Generator) : Bool × Generator :=
  let (r, g) := g.next
  (r % 2 = 0, g)

/-- How often a draw is repeated at most. Each repetition is needed with a probability below one
half. -/
def retries : Nat := 10000

/-- Draws a number that is at least 0 and less than 1. -/
def unit (g : Generator) : Float × Generator := attempt retries g
where
  attempt : Nat → Generator → Float × Generator
    | 0, g => (0, g)
    | n + 1, g =>
      let (r, g) := g.next
      let x := (r >>> 1).toFloat / 9223372036854775808.0
      if x < 1.0 then (x, g) else attempt n g

/-- Draws a number less than `n`. -/
def below (g : Generator) (n : UInt64) : UInt64 × Generator :=
  let (r, g) := g.next
  let (high, low) := wideMul r n
  if low < n then attempt ((0 - n) % n) retries high low g else (high, g)
where
  attempt (threshold : UInt64) : Nat → UInt64 → UInt64 → Generator → UInt64 × Generator
    | 0, high, _, g => (high, g)
    | k + 1, high, low, g =>
      if low < threshold then
        let (r, g) := g.next
        let (high, low) := wideMul r n
        attempt threshold k high low g
      else (high, g)

/-- Draws a number from `low` to `high`, both included. The range must not be empty. -/
def between (g : Generator) (low high : Nat) : Nat × Generator :=
  let count := high - low + 1
  if count < UInt64.size then
    let (r, g) := g.below (UInt64.ofNat count)
    (low + r.toNat, g)
  else
    let (r, g) := g.next
    (r.toNat, g)

end Generator

end RegularLanguages.Random
