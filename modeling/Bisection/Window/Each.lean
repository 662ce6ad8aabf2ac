import Bisection.Pieces
import Bisection.Room
import Bisection.Window

/-!
# Operations on each element

These call a function once for each element or index of a window, in the leaves
of a bisection, from left to right in each leaf. Those that change the window put
the results in place of its elements. `map` has a new array for the results, if
there is room for one: each leaf is given the slots for its elements, and writes to
them.
-/

namespace Bisection
set_option autoImplicit false

/-- The writes of `f x` for each element `x` of a store, each to the next slot of `dest`. Where
there are no more slots, `f` is not called. -/
@[inline] def Store.transferM {α β : Type} {m : Type → Type} [Monad m] (f : α → m β) (s : Store α)
    (dest : Span) : m (Array (Nat × β)) :=
  s.foldlM (fun writes x =>
    if writes.size < dest.size then do pure (writes.push (dest.lo + writes.size, ← f x))
    else pure writes) #[]

/-- What is in some slots after some writes. -/
def writeAll {β : Type} (writes : Array (Nat × β)) (slots : Array (Option β)) : Array (Option β) :=
  writes.foldl (fun slots (slot, y) => slots.setIfInBounds slot (some y)) slots

/-- What is in `n` slots after some writes. A slot that is not written to holds nothing. -/
def filled {β : Type} (n : Nat) (writes : Array (Nat × β)) : Array β :=
  (writeAll writes (Array.replicate n none)).filterMap id

namespace Window

section
variable {ε α β : Type} {m : Type → Type} [Monad m] [Fork ε m]

/-- The results of `leaf` on the leaves of a piece whose first index is `lo`, one behind the
other. -/
@[inline] def collectLeaves {π : Type} [Piece π] (t : Threshold) (leaf : π → Nat → m (Array β))
    (piece : π) (lo : Nat) : m (Array β) :=
  forkPieces t leaf (fun xs ys => pure (xs ++ ys)) piece lo

/-- The writes of `f x` for each element `x`, to the slots of an array as long as the window. -/
@[specialize] def transfers (w : Window α) (t : Threshold) (f : α → m β) :
    m (Array (Nat × β)) :=
  let dest : Span := ⟨0, w.size⟩
  collectLeaves t (fun (s, dest) _ => s.transferM f dest) (w.part, dest) w.lo

variable [Reports m]

/-- Calls `f` on each element. -/
@[specialize] def forEach (w : Window α) (f : α → m Unit) : m Unit := do
  let t ← w.begin .forEach w.size
  forkPieces t (fun s _ => s.forM f) (fun _ _ => pure ()) w.part w.lo

/-- Replaces each element `x` by `f x`. -/
@[specialize] def replaceWith (w : Window α) (f : α → m α) : m (Window α) := do
  let t ← w.begin .replaceWith w.size
  w.refill <$> collectLeaves t (fun s _ => s.mapM f) w.part w.lo

/-- Replaces the element at each index `i` of the array by `f i`. -/
@[specialize] def replaceWithIndex (w : Window α) (f : Nat → m α) : m (Window α) := do
  let t ← w.begin .replaceWithIndex w.size
  w.refill <$> collectLeaves t (fun s lo => s.mapIndicesM f lo) w.part w.lo

/-- Replaces each element `x` by `f x y`, where `y` is the element in the same place of `other`.
Refused if `other` has fewer elements than the window. -/
@[specialize] def replaceWithCombined (w : Window α) (other : Store β) (f : α → β → m α) :
    m (Except Failure (Window α)) := do
  if other.size < w.size then pure (.error (.lengthMismatch w.size other.size))
  else
    let t ← w.begin .replaceWithCombined w.size
    let pieces := (w.part, other.slice 0 w.size)
    let xs ← collectLeaves t (fun (s, other) _ => s.zipWithM f other) pieces w.lo
    pure (.ok (w.refill xs))

/-- The array of `f x` for each element `x`. There has to be room for it before `f` is called. -/
@[specialize] def map [RoomFailure ε] [Cell β] (w : Window α) (f : α → m β) :
    m (BulkArray β) := do
  let t ← w.begin .map w.size
  claimRoom w.size (Cell.bytes β)
  let writes ← w.transfers t f
  pure (w.array.derive (filled w.size writes))

end

end Window

end Bisection
