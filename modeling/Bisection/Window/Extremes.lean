import Bisection.Pieces
import Bisection.Window

/-!
# The least and the greatest element

`summaryBy` finds the least and the greatest element of a window in an order, at
the lowest index of each. An element takes the place of an earlier one only if it
is less or greater, so that of copies of one value the first is both.
-/

namespace Bisection
set_option autoImplicit false

/-- The number of elements of a range, and its least and greatest elements with the lowest indices
at which they are. -/
structure Summary (α : Type) where
  count : Nat
  min : Option α
  max : Option α
  minIndex : Option Nat
  maxIndex : Option Nat

/-- An element and its index. -/
structure Located (α : Type) where
  index : Nat
  elem : α

/-- The least and the greatest element of a range. -/
structure Extremes (α : Type) where
  least : Located α
  greatest : Located α

namespace Extremes
variable {ε α : Type} {m : Type → Type} [Monad m]

/-- The one of two that is less, the earlier one if neither is. -/
@[inline] def lesser (cmp : α → α → m Ordering) (earlier later : Located α) : m (Located α) := do
  match ← cmp later.elem earlier.elem with
  | .lt => pure later
  | _ => pure earlier

/-- The one of two that is greater, the earlier one if neither is. -/
@[inline] def greater (cmp : α → α → m Ordering) (earlier later : Located α) : m (Located α) := do
  match ← cmp later.elem earlier.elem with
  | .gt => pure later
  | _ => pure earlier

/-- The extremes of two adjacent ranges. -/
@[specialize] def merge (cmp : α → α → m Ordering) (left right : Extremes α) : m (Extremes α) := do
  let least ← lesser cmp left.least right.least
  let greatest ← greater cmp left.greatest right.greatest
  pure ⟨least, greatest⟩

/-- The extremes of a single element. -/
def one (i : Nat) (x : α) : Extremes α := ⟨⟨i, x⟩, ⟨i, x⟩⟩

/-- The extremes of two adjacent parts, either of which may be empty. -/
@[inline] def join (cmp : α → α → m Ordering) :
    Option (Extremes α) → Option (Extremes α) → m (Option (Extremes α))
  | some x, some y => some <$> merge cmp x y
  | x, none => pure x
  | none, y => pure y

/-- The extremes of a leaf, if it has elements. -/
@[specialize] def leaf (cmp : α → α → m Ordering) (s : Store α) (lo : Nat) :
    m (Option (Extremes α)) := do
  let (found, _) ← s.foldlM
    (fun (found, i) x => do pure (← join cmp found (some (one i x)), i + 1)) (none, lo)
  pure found

end Extremes

namespace Window
variable {ε α : Type} {m : Type → Type} [Monad m] [Fork ε m] [Reports m]

/-- The extremes of the window by `cmp`. -/
@[specialize] def summaryBy (w : Window α) (cmp : α → α → m Ordering) : m (Summary α) := do
  let t ← w.begin .summary w.size
  let found ← forkPieces t (Extremes.leaf cmp) (Extremes.join cmp) w.part w.lo
  pure {
    count := w.size
    min := found.map (·.least.elem)
    max := found.map (·.greatest.elem)
    minIndex := found.map (·.least.index)
    maxIndex := found.map (·.greatest.index) }

/-- The extremes of the window in the natural order. -/
@[specialize] def summary [Ord α] (w : Window α) : m (Summary α) :=
  match w.part.uniform? with
  | some x => do
    let _ ← w.begin .summary w.size
    pure ⟨w.size, some x, some x, some w.lo, some w.lo⟩
  | none => w.summaryBy fun x y => pure (compare x y)

end Window

end Bisection
