import Bisection.Element.Basic

/-!
# Callbacks that may give up

A callback computes a result, or gives up with a message. The ones here are built
from simpler ones and from the order and equality of the elements.
-/

namespace Bisection
set_option autoImplicit false

/-- Why a callback gave up. -/
structure Abort where
  message : String
deriving DecidableEq, Repr

/-- The failure for lack of room. -/
def Abort.noRoom : Abort := ⟨"capacity overflow"⟩

instance : RoomFailure Abort := ⟨.noRoom⟩

namespace Callback
variable {α β : Type}

/-- A function that never gives up. -/
@[inline] def ofFun (f : α → β) (x : α) : Except Abort β := .ok (f x)

/-- A function of two arguments that never gives up. -/
@[inline] def ofFun₂ (f : α → α → β) (x y : α) : Except Abort β := .ok (f x y)

/-- Gives up on an argument that equals `v`. -/
def abortOn [BEq α] (v : α) (message : String) (f : α → Except Abort β) (x : α) : Except Abort β :=
  if x == v then .error ⟨message⟩ else f x

/-- Gives up on a pair one of which equals `v`. -/
def abortOnEither [BEq α] (v : α) (message : String) (f : α → α → Except Abort β) (x y : α) :
    Except Abort β :=
  if x == v || y == v then .error ⟨message⟩ else f x y

/-- Gives up if there is nothing to divide by. -/
def withDivisor (divisor : Int) (f : α → β) (x : α) : Except Abort β :=
  if divisor = 0 then .error ⟨"attempt to calculate the remainder with a divisor of zero"⟩
  else .ok (f x)

/-- Gives up if there is nothing to divide by. -/
def withDivisor₂ (divisor : Int) (f : α → α → β) (x y : α) : Except Abort β :=
  withDivisor divisor (f x) y

/-- The lesser of two elements, the first if neither is. -/
def lesser [Ord α] (x y : α) : α := if compare y x == .lt then y else x

/-- The greater of two elements, the first if neither is. -/
def greater [Ord α] (x y : α) : α := if compare y x == .gt then y else x

/-- Whether `p` does not hold. -/
def negate (p : α → Except Abort Bool) (x : α) : Except Abort Bool := not <$> p x

/-- Whether both hold. The second is not asked if the first does not hold. -/
def both (p q : α → Except Abort Bool) (x : α) : Except Abort Bool := do
  if ← p x then q x else pure false

/-- Whether one of both holds. The second is not asked if the first holds. -/
def either (p q : α → Except Abort Bool) (x : α) : Except Abort Bool := do
  if ← p x then pure true else q x

/-- Compares in the opposite direction. -/
def reversed (cmp : α → α → Except Abort Ordering) (x y : α) : Except Abort Ordering := cmp y x

/-- Compares by `second` what `first` finds equal. -/
def refined (first second : α → α → Except Abort Ordering) (x y : α) : Except Abort Ordering := do
  match ← first x y with
  | .eq => second x y
  | o => pure o

/-- Keeps the element for an even number, and makes one from an odd number. -/
def keepEven [Element α] (x : α) (n : Nat) : Except Abort α :=
  .ok (if n % 2 = 0 then x else Element.generated n n)

end Callback

end Bisection
