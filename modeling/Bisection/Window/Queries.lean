import Bisection.Search
import Bisection.Window

/-!
# Questions about a window

Each of these is a search for an index. Indices are those of the array. Which
match is found when there are several is only fixed for a single worker, which
finds the first. Copies of one value are in order without a look at each.
-/

namespace Bisection.Window
set_option autoImplicit false

section
variable {ε α : Type} {m : Type → Type} [Monad m] [Fork ε m] [Reports m]

/-- The index of an element that satisfies `p`. -/
@[specialize] def anyIndex (w : Window α) (p : α → m Bool) : m (Option Nat) := do
  let t ← w.begin .anyIndex w.size
  findAny t (fun i => match w.get? i with
    | some x => p x
    | none => pure false) w.lo w.hi

/-- The index of an element that equals `target`. -/
@[specialize] def indexOf [BEq α] (w : Window α) (target : α) : m (Option Nat) :=
  w.anyIndex fun x => pure (x == target)

/-- Whether some element satisfies `p`. -/
@[specialize] def any (w : Window α) (p : α → m Bool) : m Bool :=
  Option.isSome <$> w.anyIndex p

/-- Whether all elements satisfy `p`. -/
@[specialize] def all (w : Window α) (p : α → m Bool) : m Bool :=
  Option.isNone <$> w.anyIndex fun x => not <$> p x

/-- Whether no element is greater by `cmp` than the one after it. -/
@[specialize] def isSortedBy (w : Window α) (cmp : α → α → m Ordering) : m Bool :=
  if w.size < 2 then pure true
  else do
    let t ← w.begin .isSorted (w.size - 1)
    let descent ← findAny t (fun i => match w.get? (i - 1), w.get? i with
      | some x, some y => (· == .gt) <$> cmp x y
      | _, _ => pure false) (w.lo + 1) w.hi
    pure descent.isNone

/-- Whether the elements are in their natural order. -/
@[specialize] def isSorted [Ord α] (w : Window α) : m Bool :=
  match w.part.uniform? with
  | some _ => do
    if 2 ≤ w.size then
      let _ ← w.begin .isSorted (w.size - 1)
    pure true
  | none => w.isSortedBy fun x y => pure (compare x y)

end

end Bisection.Window
