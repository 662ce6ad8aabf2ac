/-!
# Forked computations

A computation forks into two halves that both run to their end, and the halves
are joined once both are done. A half may fail. The other half runs all the
same, and when both fail the failure of the left half is the one that comes out.

`Fork ε m` gives these operations for the computations of `m`, whose failures
are values of `ε`. The algorithms of this library are written over any such
`m`: at `Id` they are plain functions, at `Except ε` their callbacks may fail,
and at `ExceptT ε (StateM σ)` the callbacks also leave a record of their calls.
-/

namespace Bisection
set_option autoImplicit false

/-- Computations that fork into halves, and whose failures can be caught and raised again. -/
class Fork (ε : outParam Type) (m : Type → Type) where
  /-- Both results, after both halves have run. The failure of the left half wins. -/
  join {α β : Type} : m α → m β → m (α × β)
  /-- The result of a computation, or the failure that ended it. -/
  attempt {α : Type} : m α → m (Except ε α)
  /-- Fails. -/
  raise {α : Type} : ε → m α

/-- The two results of a join, or the failure of the leftmost half that failed. -/
@[inline] def bothResults {ε α β : Type} : Except ε α → Except ε β → Except ε (α × β)
  | .error e, _ => .error e
  | .ok _, .error e => .error e
  | .ok a, .ok b => .ok (a, b)

/-- Plain values never fail. -/
instance : Fork Empty Id where
  join a b := (a.run, b.run)
  attempt a := .ok a.run
  raise e := nomatch e

/-- Values that may fail. -/
instance {ε : Type} : Fork ε (Except ε) where
  join := bothResults
  attempt := .ok
  raise := .error

/-- Computations over a state, where the left half runs before the right half. -/
instance {σ : Type} : Fork Empty (StateM σ) where
  join x y := do
    let a ← x
    let b ← y
    pure (a, b)
  attempt x := .ok <$> x
  raise e := nomatch e

/-- Computations over `m` that may fail: what the left half did stays done when it fails. -/
instance {ε : Type} {m : Type → Type} [Monad m] : Fork ε (ExceptT ε m) where
  join x y := ExceptT.mk do
    let a ← x.run
    let b ← y.run
    pure (bothResults a b)
  attempt x := ExceptT.mk (.ok <$> x.run)
  raise e := ExceptT.mk (pure (.error e))

end Bisection
