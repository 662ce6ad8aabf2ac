import Bisection.Random.Stream

/-!
# Random samples of indices

`sample n amount` draws `amount` different indices below `n`. Few are drawn one by
one, each from a range that grows by one, where an index that was drawn before
gives way to the new end of the range. Many are drawn by shuffling the front of
the list of all indices.

A `Source` is where a program takes its random numbers and samples from.
-/

namespace Bisection.Random
set_option autoImplicit false

/-- Draws an index for each range of `bounds`, up to and with the bound itself. -/
def sampleGrowing (bounds : List Nat) (drawn : Array Nat) (r : Stream) : Array Nat :=
  match bounds with
  | [] => drawn
  | j :: bounds =>
    let (t, r) := r.below32 (j + 1)
    let drawn := match drawn.idxOf? t with
      | some k => drawn.setIfInBounds k j
      | none => drawn
    sampleGrowing bounds (drawn.push t) r

/-- Swaps each of the positions of `fronts` with a random one from it on. -/
def shuffleFront (fronts : List Nat) (indices : Array Nat) (r : Stream) : Array Nat :=
  match fronts with
  | [] => indices
  | i :: fronts =>
    let (k, r) := r.below32 (indices.size - i)
    shuffleFront fronts (indices.swapIfInBounds i (i + k)) r

/-- Whether a sample is small enough, for itself and for the range, to be drawn one by one. The
range of a middling sample has to be at least `(10 + 1.6 * amount) * amount` long. -/
def drawnOneByOne (n amount : Nat) : Bool :=
  amount < 12 || (amount < 163 && (50 + 8 * amount) * amount ≤ 5 * n)

/-- Different indices below `n`, as many as `amount`, which is at most `n`. -/
def sample (n amount : Nat) (r : Stream) : Array Nat :=
  if drawnOneByOne n amount then
    sampleGrowing (List.range' (n - amount) amount) (Array.emptyWithCapacity amount) r
  else (shuffleFront (List.range amount) (Array.range n) r).extract 0 amount

/-- Where random numbers come from: `below n` draws a number below `n`, and `sample n amount` draws
indices below `n`. -/
structure Source where
  State : Type
  ofSeed : UInt64 → State
  below : Nat → State → Nat × State
  sample : Nat → Nat → State → Array Nat

/-- Numbers and samples from the stream of a seed. -/
def Source.stream : Source := ⟨Stream, .ofSeed, Stream.below64, Random.sample⟩

end Bisection.Random
