import Bisection.Failure
import Bisection.Log.Notice
import Bisection.Pool
import Bisection.Store

/-!
# Arrays and windows on them

A `BulkArray` is an array together with the pool that runs its operations and,
if one was set, the threshold down to which they cut. A `Window` is a range of
such an array: every operation is an operation on a window, and an operation on
a whole array is the one on its `whole` window. The bounds of a window lie
within the array at all times.

An operation that changes elements hands the new contents of the window to
`Window.refill`, which leaves the elements before and behind it as they are.
-/

namespace Bisection
set_option autoImplicit false

/-- An array, the pool it runs on, and the threshold set for it. -/
structure BulkArray (α : Type) where
  pool : Pool
  threshold : Option Threshold
  store : Store α

namespace BulkArray
variable {α : Type}

instance : Inhabited (BulkArray α) := ⟨⟨default, none, default⟩⟩

/-- The number of elements. -/
def size (a : BulkArray α) : Nat := a.store.size

/-- The elements in order. -/
def toList (a : BulkArray α) : List α := a.store.toList

/-- The array with the threshold set, for all operations to come. -/
def withThreshold (a : BulkArray α) (t : Threshold) : BulkArray α :=
  { a with threshold := some t }

/-- The threshold of an operation over `n` elements: the one set, or else that of the pool. -/
def leafThreshold (a : BulkArray α) (n : Nat) : Threshold :=
  a.threshold.getD (a.pool.threshold n)

/-- An array derived from this one: same pool, same threshold. -/
def derive {β : Type} (a : BulkArray α) (xs : Array β) : BulkArray β :=
  ⟨a.pool, a.threshold, .cells xs⟩

end BulkArray

/-- The range `lo..hi` of an array. -/
structure Window (α : Type) where
  array : BulkArray α
  lo : Nat
  hi : Nat
  lo_le_hi : lo ≤ hi
  hi_le_size : hi ≤ array.size

/-- The window on all the elements. -/
def BulkArray.whole {α : Type} (a : BulkArray α) : Window α :=
  ⟨a, 0, a.size, Nat.zero_le _, Nat.le_refl _⟩

/-- The window on the range `lo..hi`, which has to lie within the array. -/
def BulkArray.window {α : Type} (a : BulkArray α) (lo hi : Nat) : Except Failure (Window α) :=
  if h : lo ≤ hi ∧ hi ≤ a.size then .ok ⟨a, lo, hi, h.1, h.2⟩
  else .error (.outOfBounds lo hi 0 a.size)

namespace Window
variable {α : Type}

instance : Inhabited (Window α) := ⟨BulkArray.whole default⟩

/-- The number of elements in the window. -/
def size (w : Window α) : Nat := w.hi - w.lo

/-- What the array holds in the window. -/
def part (w : Window α) : Store α := w.array.store.slice w.lo w.hi

/-- The elements in the window. -/
def elems (w : Window α) : Array α := w.part.toArray

/-- The element of the array at an index. -/
def get? (w : Window α) (i : Nat) : Option α := w.array.store.get? i

/-- The window with its elements replaced by others, at most as many: the end of the window and
the elements behind it move along. -/
def refill (w : Window α) (xs : Array α) : Window α where
  array := { w.array with store := w.array.store.splice w.lo w.hi xs }
  lo := w.lo
  hi := w.lo + xs.size
  lo_le_hi := Nat.le_add_right _ _
  hi_le_size := by
    have := w.lo_le_hi
    have := w.hi_le_size
    simp only [BulkArray.size, Store.size_splice] at *
    omega

/-- Reports an operation over `n` elements, and gives the threshold for it. -/
def begin {m : Type → Type} [Monad m] [Reports m] (w : Window α) (action : Action) (n : Nat) :
    m Threshold := do
  let t := w.array.leafThreshold n
  Reports.note (.processing action n t.val)
  pure t

end Window

end Bisection
