import Bisection.Element.Key
import Bisection.KeyTable
import Bisection.Room
import Bisection.Selection
import Bisection.Window

/-!
# Selecting and removing elements

Selections give a new array of some elements of a window, in their order;
removals keep some elements of the window and move what is behind them up. Both
need room for a table of the indices of the window, and a selection for what it
selects. `unique` selects the first element of each key.
-/

namespace Bisection.Window
set_option autoImplicit false

section
variable {ε α : Type} {m : Type → Type} [Monad m] [Fork ε m] [Reports m]

/-- Whether the element at an index satisfies `p`. -/
@[inline] def holdsAt (w : Window α) (p : α → m Bool) (i : Nat) : m Bool :=
  match w.get? i with
  | some x => p x
  | none => pure false

variable [RoomFailure ε]

section
variable [Cell α]

/-- The elements that satisfy `p`, to be put behind `before` others. -/
@[specialize] def selected (w : Window α) (p : α → m Bool) (before : Nat) : m (Array α) := do
  let t ← w.begin .select w.size
  claimRoom w.size indexBytes
  let s ← Selection.build t (w.holdsAt p) w.lo w.size
  Reports.note (.selected s.size w.lo w.hi)
  claimRoom (before + s.size) (Cell.bytes α)
  pure (s.fetchAll w.get?)

/-- The array of the elements that satisfy `p`. -/
@[specialize] def select (w : Window α) (p : α → m Bool) : m (BulkArray α) :=
  w.array.derive <$> w.selected p 0

/-- The elements of `dest`, and behind them those that satisfy `p`. -/
@[specialize] def appendSelected (w : Window α) (p : α → m Bool) (dest : Store α) : m (Store α) :=
  dest.append <$> w.selected p dest.size

end

/-- Keeps the elements at the indices that satisfy `keep`. -/
@[specialize] def keepIndices (w : Window α) (action : Action) (keep : Nat → m Bool) :
    m (Window α) := do
  let t ← w.begin action w.size
  claimRoom w.size indexBytes
  let s ← Selection.build t keep w.lo w.size
  Reports.note (.keeping action s.size w.size)
  pure (w.refill (s.compact w.lo w.elems))

/-- Removes the elements that satisfy `p`. -/
@[specialize] def removeAll (w : Window α) (p : α → m Bool) : m (Window α) :=
  w.keepIndices .removeAll (w.holdsAt fun x => not <$> p x)

/-- Keeps the elements that satisfy `p`. -/
@[specialize] def retain (w : Window α) (p : α → m Bool) : m (Window α) :=
  w.keepIndices .retain (w.holdsAt p)

/-- Removes the elements that equal the one before them in the window. -/
@[specialize] def removeConsecutiveDuplicates [BEq α] (w : Window α) : m (Window α) :=
  w.keepIndices .removeConsecutiveDuplicates fun i =>
    pure (i == w.lo || match w.get? i, w.get? (i - 1) with
      | some x, some y => !(x == y)
      | _, _ => false)

end

section
variable {ε α : Type}

/-- Whether the element at an index has the same key as `x`. -/
def holdsKey (w : Window α) (same : α → α → Bool) (x : α) (j : Nat) : Bool :=
  (w.get? j).any (same · x)

/-- Whether the elements at two indices have the same key. -/
def sameKeyAt (w : Window α) (same : α → α → Bool) (i j : Nat) : Bool :=
  (w.get? i).any (w.holdsKey same · j)

/-- The hash of the element at an index. -/
def hashAt (w : Window α) (hash : α → UInt64) (i : Nat) : UInt64 := ((w.get? i).map hash).getD 0

/-- The table with all indices of the window entered. -/
def enterAll (w : Window α) (same : α → α → Bool) (hash : α → UInt64) (table : KeyTable) :
    KeyTable :=
  (List.range' w.lo w.size).foldl
    (fun table i => table.insert (w.sameKeyAt same) (w.hashAt hash i) i) table

/-- Whether an index is the lowest entered for its key. -/
def isFirst (w : Window α) (same : α → α → Bool) (hash : α → UInt64) (table : KeyTable) (i : Nat) :
    Bool :=
  table.firstIndex (w.hashAt hash i) (w.sameKeyAt same i) == some i

variable {m : Type → Type} [Monad m] [Fork ε m] [Reports m]

/-- The array of the first element for each key, where `same` compares keys and elements of the
same key have the same `hash`. Refused if no table can hold this many elements. -/
def uniqueBy (w : Window α) (same : α → α → Bool) (hash : α → UInt64) :
    m (Except Failure (BulkArray α)) :=
  match KeyTable.make w.size with
  | .error e => pure (.error e)
  | .ok table => do
    let t ← w.begin .unique w.size
    let table := w.enterAll same hash table
    let s ← Selection.build t (fun i => pure (w.isFirst same hash table i)) w.lo w.size
    pure (.ok (w.array.derive (s.fetchAll w.get?)))

/-- The array of the first element for each key. -/
def unique [UniqueKey α] (w : Window α) : m (Except Failure (BulkArray α)) :=
  w.uniqueBy UniqueKey.sameKey UniqueKey.hash

end

end Bisection.Window
