import Bisection.Fork
import Bisection.Threshold

/-!
# Room for what an operation makes

A table of indices and a new array take one block of memory each. An operation
that needs a block with more cells than there is room for gives up, whatever its
callback does. Only elements that take no room themselves come in such numbers.
-/

namespace Bisection
set_option autoImplicit false

/-- Elements of arrays, which take some room there. -/
class Cell (α : Type) where
  /-- The bytes that an element takes in an array. -/
  bytes : Nat

/-- Failures with one for lack of room among them. -/
class RoomFailure (ε : Type) where
  /-- The failure for lack of room. -/
  noRoom : ε

/-- Gives up if no block of memory has room for so many cells of so many bytes. -/
@[inline] def claimRoom {ε : Type} {m : Type → Type} [Monad m] [Fork ε m] [RoomFailure ε]
    (cells bytes : Nat) : m Unit :=
  if hasRoom cells bytes then pure () else Fork.raise RoomFailure.noRoom

/-- What has room for more cells has room for fewer. -/
theorem hasRoom_of_le {k n bytes : Nat} (le : k ≤ n) (room : hasRoom n bytes) :
    hasRoom k bytes := by
  have fewer : k * bytes ≤ n * bytes := Nat.mul_le_mul_right bytes le
  simp only [hasRoom, Bool.and_eq_true, decide_eq_true_eq] at room ⊢
  omega

section
variable {ε : Type} {m : Type → Type} [Monad m] [Fork ε m] [RoomFailure ε] {cells bytes : Nat}

theorem claimRoom_of_room (room : hasRoom cells bytes) :
    (claimRoom cells bytes : m Unit) = pure () := if_pos room

theorem claimRoom_of_no_room (short : hasRoom cells bytes = false) :
    (claimRoom cells bytes : m Unit) = Fork.raise RoomFailure.noRoom := by
  rw [claimRoom, short]
  exact if_neg Bool.false_ne_true

end

/-- A computation that fails does not come to what is after it. -/
class LawfulRaise (ε : outParam Type) (m : Type → Type) [Monad m] [Fork ε m] : Prop where
  raise_bind {β γ : Type} (e : ε) (f : β → m γ) : Fork.raise e >>= f = Fork.raise e

instance {ε : Type} : LawfulRaise ε (Except ε) := ⟨fun _ _ => rfl⟩

theorem claimRoom_bind_of_no_room {ε β : Type} {m : Type → Type} [Monad m] [Fork ε m]
    [LawfulRaise ε m] [RoomFailure ε] {cells bytes : Nat} (short : hasRoom cells bytes = false)
    (f : Unit → m β) : claimRoom cells bytes >>= f = Fork.raise RoomFailure.noRoom := by
  rw [claimRoom_of_no_room short, LawfulRaise.raise_bind]

section
variable {ε β γ : Type} [RoomFailure ε] {cells bytes : Nat}

/-- What comes to a result had the room it claimed. -/
theorem eq_ok_of_claimRoom {f : Unit → Except ε β} {b : β}
    (ok : (claimRoom cells bytes >>= f) = .ok b) : f () = .ok b := by
  cases room : hasRoom cells bytes with
  | true => rwa [claimRoom_of_room room] at ok
  | false =>
    rw [claimRoom_bind_of_no_room room] at ok
    cases ok

theorem map_claimRoom (f : β → γ) (b : β) :
    f <$> (do claimRoom cells bytes; .ok b : Except ε β) =
      (do claimRoom cells bytes; .ok (f b)) :=
  map_bind ..

end

end Bisection
