import Bisection.Sort.Quarters
import Bisection.Window

/-!
# Sorting a window

Copies of one value are in order as they are, however many.
-/

namespace Bisection.Window
set_option autoImplicit false

variable {ε α : Type} {m : Type → Type} [Monad m] [Fork ε m] [Reports m]

/-- Sorts the elements by `cmp`. -/
@[specialize] def sortBy (w : Window α) (cmp : α → α → m Ordering) : m (Window α) := do
  let t ← w.begin .sort w.size
  w.refill <$> Bisection.sortBy t cmp w.part

/-- Sorts the elements in their natural order. -/
@[specialize] def sort [Ord α] (w : Window α) : m (Window α) :=
  match w.part.uniform? with
  | some _ => do
    let _ ← w.begin .sort w.size
    pure w
  | none => w.sortBy fun x y => pure (compare x y)

end Bisection.Window
