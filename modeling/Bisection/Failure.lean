/-!
# Why an operation is refused

The causes for which building a pool or running an operation is refused, before
anything is modified, with the message for each.
-/

namespace Bisection
set_option autoImplicit false

/-- Why something was refused. -/
inductive Failure where
  /-- The range `lo..hi` does not lie within `origin..fence`. -/
  | outOfBounds (lo hi origin fence : Nat)
  /-- An operand has fewer elements than are needed. -/
  | lengthMismatch (required actual : Nat)
  /-- No table of distinct elements can hold this many. -/
  | tableOverflow (len : Nat)
  /-- More workers were to be pinned than there are processors. -/
  | cpuPinning (threads available : Nat)
  /-- A pool was asked to have no worker. -/
  | noWorkers
deriving DecidableEq, Repr

/-- The message for a cause. -/
def Failure.message : Failure → String
  | outOfBounds lo hi origin fence => s!"range {lo}..{hi} is out of bounds for {origin}..{fence}"
  | lengthMismatch required actual =>
    s!"operand of length {actual} is shorter than the required {required} elements"
  | tableOverflow len => s!"cannot allocate a uniqueness table for {len} elements"
  | cpuPinning threads available =>
    s!"cannot pin {threads} worker threads to CPUs: only {available} CPUs are available"
  | noWorkers => "number would be zero for non-zero type"

end Bisection
