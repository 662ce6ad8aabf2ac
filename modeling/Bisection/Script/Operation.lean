import Bisection.Script.Journal
import Bisection.Window.Each
import Bisection.Window.Extremes
import Bisection.Window.Queries
import Bisection.Window.Sorting
import Bisection.Window.Subsets
import Bisection.Window.Totals

/-!
# Operations as data

An `Operation` is one of the operations on a window that give no new array,
together with its operands and callbacks. `Operation.runWith` performs it in any
monad that has a way to call these callbacks, and `Operation.run` has them watched.
-/

namespace Bisection
set_option autoImplicit false

/-- An operation on a window. -/
inductive Operation (α : Type) where
  | info
  | forEach (f : α → Except Abort α)
  | replaceWith (f : α → Except Abort α)
  | replaceWithIndex (f : Nat → Except Abort α)
  | replaceWithCombined (other : Store α) (f : α → α → Except Abort α)
  | replaceWithSizes (other : Array Nat) (f : α → Nat → Except Abort α)
  | reduce (base : α) (op : α → α → Except Abort α)
  | summary
  | summaryBy (cmp : α → α → Except Abort Ordering)
  | anyIndex (p : α → Except Abort Bool)
  | indexOf (target : α)
  | any (p : α → Except Abort Bool)
  | all (p : α → Except Abort Bool)
  | appendSelected (p : α → Except Abort Bool) (dest : Store α)
  | removeAll (p : α → Except Abort Bool)
  | retain (p : α → Except Abort Bool)
  | removeConsecutiveDuplicates
  | cumulate (base : α) (op : α → α → Except Abort α)
  | precumulate (base : α) (op : α → α → Except Abort α)
  | sort
  | sortBy (cmp : α → α → Except Abort Ordering)
  | isSorted
  | isSortedBy (cmp : α → α → Except Abort Ordering)

/-- What an operation found, beside the window that it left. -/
inductive Finding (α : Type) where
  /-- Nothing but what the window shows. -/
  | window
  /-- The length of the window. -/
  | info
  /-- The results of a function on the visited elements, in the order of the visits. -/
  | visited (xs : Array α)
  /-- The operation was refused. -/
  | refused (e : Failure)
  | result (x : α)
  | summary (s : Summary α)
  | index (i : Option Nat)
  | truth (b : Bool)
  | appended (dest : Store α)
  /-- The total, beside what the window shows. -/
  | total (x : α)

/-- How callbacks are called in computations of `m`. -/
structure Caller (m : Type → Type) (α : Type) where
  onElement {β : Type} (f : α → Except Abort β) (x : α) : m β
  onIndex {β : Type} (f : Nat → Except Abort β) (i : Nat) : m β
  onPair {β : Type} (f : α → α → Except Abort β) (x y : α) : m β
  /-- Calls a function on each element of a window, and gathers its results. -/
  onEach (w : Window α) (f : α → Except Abort α) : m (Array α)

/-- Callbacks that are watched. -/
@[inline] def Watched.caller {α : Type} [Element α] (o : Watch) : Caller Watched α where
  onElement := Watched.onElement o
  onIndex := Watched.onIndex o
  onPair := Watched.onPair o
  onEach w f := Gathering.gathered (w.forEach fun x => Gathering.gather (Watched.onElement o f x))

namespace Operation
variable {α : Type}

/-- Whether the operation changes elements of the window. -/
def modifies : Operation α → Bool
  | replaceWith _ | replaceWithIndex _ | replaceWithCombined _ _ | replaceWithSizes _ _
  | removeAll _ | retain _ | removeConsecutiveDuplicates | cumulate _ _ | precumulate _ _
  | sort | sortBy _ => true
  | _ => false

/-- The window and the cause for which it was left alone, if there is one. -/
def settle (w : Window α) : Except Failure (Window α) → Window α × Finding α
  | .ok w => (w, .window)
  | .error e => (w, .refused e)

/-- Performs an operation, with callbacks called by `on`. Gives the window it leaves, and what it
found. -/
@[inline] def runWith [Element α] {m : Type → Type} [Monad m] [Fork Abort m] [Reports m]
    (on : Caller m α) (w : Window α) : Operation α → m (Window α × Finding α)
  | info => pure (w, .info)
  | forEach f => do pure (w, .visited (← on.onEach w f))
  | replaceWith f => do pure (← w.replaceWith (on.onElement f), .window)
  | replaceWithIndex f => do pure (← w.replaceWithIndex (on.onIndex f), .window)
  | replaceWithCombined other f => settle w <$> w.replaceWithCombined other (on.onPair f)
  | replaceWithSizes other f =>
    settle w <$> w.replaceWithCombined (.cells other) fun x n => on.onElement (f · n) x
  | reduce base op => do pure (w, .result (← w.reduce base (on.onPair op)))
  | summary => do pure (w, .summary (← w.summary))
  | summaryBy cmp => do pure (w, .summary (← w.summaryBy (on.onPair cmp)))
  | anyIndex p => do pure (w, .index (← w.anyIndex (on.onElement p)))
  | indexOf target => do pure (w, .index (← w.indexOf target))
  | any p => do pure (w, .truth (← w.any (on.onElement p)))
  | all p => do pure (w, .truth (← w.all (on.onElement p)))
  | appendSelected p dest => do pure (w, .appended (← w.appendSelected (on.onElement p) dest))
  | removeAll p => do pure (← w.removeAll (on.onElement p), .window)
  | retain p => do pure (← w.retain (on.onElement p), .window)
  | removeConsecutiveDuplicates => do pure (← w.removeConsecutiveDuplicates, .window)
  | cumulate base op => do pure (← w.cumulate base (on.onPair op), .window)
  | precumulate base op => do
    let (w, total) ← w.precumulate base (on.onPair op)
    pure (w, .total total)
  | sort => do pure (← w.sort, .window)
  | sortBy cmp => do pure (← w.sortBy (on.onPair cmp), .window)
  | isSorted => do pure (w, .truth (← w.isSorted))
  | isSortedBy cmp => do pure (w, .truth (← w.isSortedBy (on.onPair cmp)))

/-- Performs an operation that is watched. -/
@[nospecialize] def run [Element α] (o : Watch) (w : Window α) (op : Operation α) :
    Watched (Window α × Finding α) :=
  op.runWith (Watched.caller o) w

end Operation

end Bisection
