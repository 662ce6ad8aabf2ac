/-!
# Sizes and thresholds

Lengths and indices are natural numbers below `2 ^ 64`, the size of an address
space. A block of memory takes less than half of it. A `Threshold` is the largest
number of indices that one task handles without cutting them in two: it is
positive, so a range longer than it has at least two indices and both its halves
are shorter than it.
-/

namespace Bisection
set_option autoImplicit false

/-- The largest size. -/
def maxSize : Nat := 1 <<< 64 - 1

/-- The bytes of the largest block of memory. -/
def blockLimit : Nat := 1 <<< 63 - 1

/-- The bytes of an index. -/
def indexBytes : Nat := 8

/-- Whether a block of memory has room for so many cells of so many bytes. -/
def hasRoom (cells bytes : Nat) : Bool := cells ≤ maxSize && cells * bytes ≤ blockLimit

/-- The largest number of indices that a leaf of a bisection handles. -/
structure Threshold where
  val : Nat
  pos : 0 < val
deriving DecidableEq

/-- The threshold of a positive number. -/
def Threshold.ofNat? (n : Nat) : Option Threshold :=
  if h : 0 < n then some ⟨n, h⟩ else none

theorem Threshold.two_le {t : Threshold} {n : Nat} (h : ¬ n ≤ t.val) : 2 ≤ n := by
  have := t.pos
  omega

end Bisection
