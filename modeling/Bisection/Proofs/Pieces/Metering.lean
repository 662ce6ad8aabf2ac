import Bisection.Fork

/-!
# Counting calls

A callback that is a plain function can be metered: it ticks each time it is called. What is then
left of a computation is how often it ticks, and its result (`afterTicks`).
-/

namespace Bisection
set_option autoImplicit false

variable {α β γ : Type} {m : Type → Type} [Monad m]

/-- A result after so many ticks. -/
def afterTicks (tick : m Unit) (b : β) : Nat → m β
  | 0 => pure b
  | n + 1 => do
    tick
    afterTicks tick b n

/-- A function of two arguments that ticks each time it is called. -/
def metered (tick : m Unit) (f : α → β → γ) (x : α) (y : β) : m γ := afterTicks tick (f x y) 1

/-- Counts a call. -/
def countCall : StateM Nat Unit := modify (· + 1)

section
variable [LawfulMonad m] {tick : m Unit} {a c : Nat} {b : β} {z : γ}

/-- The ticks of a computation and of what goes on with its result add up. -/
theorem afterTicks_bind {f : β → m γ} (next : f b = afterTicks tick z c) :
    afterTicks tick b a >>= f = afterTicks tick z (a + c) := by
  induction a with
  | zero => rw [afterTicks, pure_bind, next, Nat.zero_add]
  | succ a ih => rw [Nat.succ_add, afterTicks, afterTicks, bind_assoc, ih]

theorem afterTicks_map (f : β → γ) : f <$> afterTicks tick b a = afterTicks tick (f b) a := by
  rw [map_eq_pure_bind]
  exact afterTicks_bind (c := 0) rfl

end

theorem afterTicks_id (b : β) (n : Nat) : afterTicks (m := Id) (pure ()) b n = b := by
  induction n with
  | zero => rfl
  | succ n ih => exact ih

theorem run_afterTicks (b : β) (n k : Nat) : (afterTicks countCall b n).run k = (b, k + n) := by
  induction n generalizing k with
  | zero => rfl
  | succ n ih =>
    show (afterTicks countCall b n).run (k + 1) = _
    rw [ih, Nat.add_assoc, Nat.add_comm 1 n]

end Bisection
