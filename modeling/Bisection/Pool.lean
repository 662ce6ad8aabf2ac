import Bisection.Failure
import Bisection.Log.Notice
import Bisection.Threshold

/-!
# Pools of workers

Operations run on a pool with a fixed number of workers. The number of workers
decides the default threshold: small enough that each worker gets at least four
leaves of a long range, large enough that none gets more than sixteen.
-/

namespace Bisection
set_option autoImplicit false

/-- How many workers a pool is asked to have. -/
inductive Workers where
  /-- One for each processor. -/
  | available
  /-- A given number. -/
  | count (n : Nat)
deriving DecidableEq, Repr

/-- Whether workers are tied to one processor each. -/
inductive Pinning where
  | never | ifSupported | always
deriving DecidableEq, Repr

/-- The workers that run the operations of an array. -/
structure Pool where
  workers : Nat
  pos : 0 < workers

/-- The default pool on a machine with one processor. -/
def Pool.single : Pool := ⟨1, Nat.one_pos⟩

instance : Inhabited Pool := ⟨Pool.single⟩

/-- Builds a pool on a machine with the given number of processors. A pool has at least one
worker, and no more workers can be pinned than there are processors. -/
def Pool.build {m : Type → Type} [Monad m] [Reports m] (processors : Nat) (workers : Workers)
    (pinning : Pinning) : m (Except Failure Pool) :=
  let n := match workers with
    | .available => processors
    | .count n => n
  if h : 0 < n then
    if pinning = .always ∧ processors < n then pure (.error (.cpuPinning n processors))
    else do
      Reports.note (.spawned n)
      pure (.ok ⟨n, h⟩)
  else pure (.error .noWorkers)

/-- Eight leaves for each worker, as far as a size can count them. -/
def Pool.leafTarget (p : Pool) : Nat := min (p.workers * 8) maxSize

/-- The threshold for an operation over `n` elements. -/
def Pool.threshold (p : Pool) (n : Nat) : Threshold :=
  ⟨1 + n / p.leafTarget, Nat.lt_of_lt_of_le Nat.one_pos (Nat.le_add_right _ _)⟩

end Bisection
