import Bisection.Pieces

/-!
# Selecting indices of a range

A selection is made in two passes. The first bisects the range and records in
each leaf the indices that are selected, so that every node knows how many there
are below it. The second hands out slots of a destination of exactly that many:
a node gives the first slots to its left half and the others to its right half,
and the leaves write one element to each of their slots. The order of the
indices is kept.
-/

namespace Bisection
set_option autoImplicit false

/-- The indices that were selected from a range. -/
inductive Selection where
  /-- Those of a leaf, in increasing order. -/
  | leaf (indices : List Nat)
  /-- Those of two halves, `size` together. -/
  | node (size : Nat) (left right : Selection)

namespace Selection

/-- The number of selected indices. -/
def size : Selection → Nat
  | leaf indices => indices.length
  | node n _ _ => n

/-- The selected indices in increasing order. -/
def toList : Selection → List Nat
  | leaf indices => indices
  | node _ left right => left.toList ++ right.toList

section
variable {ε : Type} {m : Type → Type} [Monad m]

/-- The selected indices among the `n` from `lo` on, behind those of `found` in reverse. -/
@[specialize] def collect (selected : Nat → m Bool) (lo n : Nat) (found : List Nat) :
    m (List Nat) :=
  match n with
  | 0 => pure found.reverse
  | n + 1 => do
    if ← selected lo then collect selected (lo + 1) n (lo :: found)
    else collect selected (lo + 1) n found

/-- Selects among the `n` indices from `lo` on. -/
@[specialize] def build [Fork ε m] (t : Threshold) (selected : Nat → m Bool) (lo n : Nat) :
    m Selection :=
  if _h : n ≤ t.val then leaf <$> collect selected lo n []
  else do
    let half := n / 2
    let (left, right) ← Fork.join (build t selected lo half)
      (build t selected (lo + half) (n - half))
    pure (node (left.size + right.size) left right)
termination_by n
decreasing_by
  all_goals
    have := Threshold.two_le _h
    omega

end

/-- A destination that is not as long as it has to be. -/
structure Mismatch where
  given : Nat
  needed : Nat
deriving DecidableEq, Repr

/-- Writes to each slot of `dest`, which has to be as long as the selection, for one of the
selected indices: a node cuts the slots behind those of its left half, and a leaf writes to its
slots from left to right. -/
@[specialize] def place {m : Type → Type} [Monad m] [Fork Mismatch m]
    (write : (slot i : Nat) → m Unit) (s : Selection) (dest : Span) : m Unit :=
  if dest.size = s.size then
    match s with
    | leaf indices =>
      forM ((List.range' dest.lo dest.size).zip indices) fun (slot, i) => write slot i
    | node _ left right =>
      if left.size ≤ dest.size then do
        let (first, rest) := Piece.cut dest left.size
        let _ ← Fork.join (left.place write first) (right.place write rest)
        pure ()
      else Fork.raise ⟨dest.size, left.size⟩
  else Fork.raise ⟨dest.size, s.size⟩

/-- Writes to a destination that may fail. What is not written to holds nothing. -/
abbrev Placing (β : Type) : Type → Type := ExceptT Mismatch (StateM (Array (Option β)))

/-- The elements of the selected indices, in as many slots as there are. -/
def fetchAll {β : Type} (s : Selection) (fetch : Nat → Option β) : Array β :=
  let write slot i : Placing β Unit := modify (·.setIfInBounds slot (fetch i))
  match (s.place write ⟨0, s.size⟩).run (Array.replicate s.size none) with
  | (.ok _, dest) => dest.filterMap id
  | (.error _, _) => #[]

/-- Swaps each of the indices, given relative to `lo`, into the next position from `next` on.
Gives the elements and the position after the last one taken. -/
def swapForward {α : Type} (lo : Nat) : List Nat → Nat → Array α → Array α × Nat
  | [], next, xs => (xs, next)
  | i :: is, next, xs => swapForward lo is (next + 1) (xs.swapIfInBounds next (i - lo))

/-- Keeps the selected elements among those of a range that starts at `lo`, by moving them to the
front and dropping what is behind them. -/
def compact {α : Type} (s : Selection) (lo : Nat) (xs : Array α) : Array α :=
  let (xs, kept) := swapForward lo s.toList 0 xs
  xs.extract 0 kept

end Selection

end Bisection
