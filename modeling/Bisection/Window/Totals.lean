import Bisection.Pieces
import Bisection.Scan.Run
import Bisection.Window

/-!
# Totals

`reduce` combines a base value and all elements of a window with an operator;
`cumulate` and `precumulate` put the totals up to each element in place of the
elements. Operands are combined in the order of their indices, with the base
first, so the result is that of the fold from the left if the operator is
associative. Otherwise it also depends on where the leaves are.
-/

namespace Bisection.Window
set_option autoImplicit false

section
variable {ε α : Type} {m : Type → Type} [Monad m] [Fork ε m]

/-- The total of two adjacent parts. -/
@[inline] def joinTotals (op : α → α → m α) : Option α → Option α → m (Option α)
  | some x, some y => some <$> op x y
  | x, none => pure x
  | none, y => pure y

variable [Reports m]

/-- The total of `base` and all elements. -/
@[specialize] def reduce (w : Window α) (base : α) (op : α → α → m α) : m α := do
  let t ← w.begin .reduce w.size
  match ← forkPieces t (fun s _ => s.reduceM op) (joinTotals op) w.part w.lo with
  | some total => op base total
  | none => pure base

/-- Replaces each element by the total of `base` and the elements up to and with it. -/
@[specialize] def cumulate (w : Window α) (base : α) (op : α → α → m α) : m (Window α) := do
  let t ← w.begin .cumulate w.size
  let (s, _) ← Scan.scan t op .inclusive base w.part
  pure (w.refill s.toArray)

/-- Replaces each element by the total of `base` and the elements before it, and gives the total
of all. -/
@[specialize] def precumulate (w : Window α) (base : α) (op : α → α → m α) : m (Window α × α) := do
  let t ← w.begin .precumulate w.size
  let (s, total) ← Scan.scan t op .exclusive base w.part
  pure (w.refill s.toArray, total)

end

end Bisection.Window
