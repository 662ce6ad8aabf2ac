import Bisection.Fork
import Bisection.Store
import Bisection.Threshold

/-!
# Bisecting a piece of work

A `Piece` covers consecutive indices and can be cut in two at any of them.
`forkPieces` halves a piece until it is no longer than the threshold, runs a
leaf action on each part, and combines the results of adjacent parts from left
to right. Where it cuts depends on the length and the threshold alone.
-/

namespace Bisection
set_option autoImplicit false

/-- Work over consecutive indices. -/
class Piece (π : Type) where
  /-- The number of indices. -/
  size : π → Nat
  /-- The part before the `k`-th index, and the part from it on. -/
  cut : π → Nat → π × π

/-- The indices from `lo` up to and without `hi`. -/
structure Span where
  lo : Nat
  hi : Nat
deriving DecidableEq, Repr

/-- The number of indices in a span. -/
def Span.size (s : Span) : Nat := s.hi - s.lo

instance : Piece Span where
  size := Span.size
  cut s k := (⟨s.lo, s.lo + k⟩, ⟨s.lo + k, s.hi⟩)

instance {α : Type} : Piece (Store α) where
  size := Store.size
  cut s k := (s.slice 0 k, s.slice k s.size)

/-- Two pieces of one length, walked in step. -/
instance {π ρ : Type} [Piece π] [Piece ρ] : Piece (π × ρ) where
  size p := Piece.size p.1
  cut p k :=
    let (a, b) := Piece.cut p.1 k
    let (c, d) := Piece.cut p.2 k
    ((a, c), (b, d))

section
variable {ε π β : Type} {m : Type → Type} [Monad m] [Fork ε m] [Piece π]

/-- `forkPieces` on a piece of `n` indices. -/
@[specialize] def forkPieces.go (t : Threshold) (leaf : π → Nat → m β) (combine : β → β → m β)
    (n : Nat) (piece : π) (lo : Nat) : m β :=
  if _h : n ≤ t.val then leaf piece lo
  else do
    let half := n / 2
    let (left, right) := Piece.cut piece half
    let (a, b) ← Fork.join (go t leaf combine half left lo)
      (go t leaf combine (n - half) right (lo + half))
    combine a b
termination_by n
decreasing_by
  all_goals
    have := Threshold.two_le _h
    omega

/-- Runs `leaf` on the parts of a piece whose first index is `lo`, each no longer than the
threshold and given with its first index, and combines the results from left to right. -/
@[inline] def forkPieces (t : Threshold) (leaf : π → Nat → m β) (combine : β → β → m β)
    (piece : π) (lo : Nat) : m β :=
  forkPieces.go t leaf combine (Piece.size piece) piece lo

end

end Bisection
