import Bisection.Fork
import Bisection.Log.Notice
import Bisection.Threshold

/-!
# Searching a range for a match

A search halves its range down to the threshold and looks through each leaf from
its first index on. The first match to be stored in the shared `MatchCell` is
the answer; a range that is reached once the cell is set is left out.

The cell is a single word: its largest value says that nothing was found yet.
-/

namespace Bisection
set_option autoImplicit false

/-- A word that holds the index of a match once one is found. -/
structure MatchCell where
  word : UInt64
deriving DecidableEq

namespace MatchCell

/-- The word of a cell that holds no match. No index is as large as this: a range ends before it. -/
def vacant : UInt64 := 0xffffffffffffffff

/-- A cell that holds no match. -/
def empty : MatchCell := ⟨vacant⟩

/-- Whether a match was stored. -/
def isSet (c : MatchCell) : Bool := c.word != vacant

/-- The stored match. -/
def get (c : MatchCell) : Option Nat := if c.isSet then some c.word.toNat else none

/-- Stores an index unless one is stored already, and tells whether it did. -/
def offer (c : MatchCell) (i : Nat) : MatchCell × Bool :=
  if c.isSet then (c, false) else (⟨UInt64.ofNat i⟩, true)

variable {c : MatchCell} {i : Nat}

theorem isSet_iff : c.isSet ↔ c ≠ empty := by
  rw [isSet, bne_iff_ne, ne_eq, ne_eq, empty, MatchCell.mk.injEq]

theorem isSet_empty : empty.isSet = false := rfl

theorem get_empty : empty.get = none := rfl

theorem get_eq_none_iff : c.get = none ↔ c = empty := by
  constructor
  · intro h
    apply Decidable.byContradiction
    intro ne
    rw [get, if_pos (isSet_iff.mpr ne)] at h
    cases h
  · intro h
    rw [h, get_empty]

/-- A cell that holds an index of a range gives it back. -/
theorem get_ofNat (lt : i < maxSize) : get ⟨UInt64.ofNat i⟩ = some i := by
  have word : (UInt64.ofNat i).toNat = i := by
    rw [UInt64.toNat_ofNat', Nat.mod_eq_of_lt]
    unfold maxSize at lt
    omega
  have set : isSet ⟨UInt64.ofNat i⟩ := by
    rw [isSet, bne_iff_ne]
    intro eq
    have eq := congrArg UInt64.toNat eq
    rw [word] at eq
    exact absurd eq (Nat.ne_of_lt lt)
  rw [get, if_pos set, word]

theorem offer_of_isSet (set : c.isSet) (i : Nat) : c.offer i = (c, false) := if_pos set

end MatchCell

section
variable {ε : Type} {m : Type → Type} [Monad m]

/-- The first index of `lo..hi` that `accepts` accepts. -/
@[specialize] def firstMatch (accepts : Nat → m Bool) (lo hi : Nat) : m (Option Nat) :=
  if lo < hi then do
    if ← accepts lo then pure (some lo) else firstMatch accepts (lo + 1) hi
  else pure none
termination_by hi - lo

/-- Searches a leaf. Gives the cell afterwards, and the failure that `accepts` ended with. -/
@[specialize] def searchLeaf [Fork ε m] [Reports m] (accepts : Nat → m Bool) (lo hi : Nat)
    (cell : MatchCell) : m (MatchCell × Option ε) := do
  match ← Fork.attempt (firstMatch accepts lo hi) with
  | .error e => pure (cell, some e)
  | .ok none => pure (cell, none)
  | .ok (some i) =>
    let (cell, stored) := cell.offer i
    Reports.note (.found i stored)
    pure (cell, none)

/-- Searches `lo..hi` with the left half of every range before its right half, where `leaf` searches
a range that is no longer than the threshold. A failure in the left half does not keep the right
half from being searched; the leftmost failure is given. -/
@[specialize] def searchRange [Reports m] (t : Threshold)
    (leaf : Nat → Nat → MatchCell → m (MatchCell × Option ε)) (lo hi : Nat) (cell : MatchCell) :
    m (MatchCell × Option ε) :=
  if cell.isSet then do
    Reports.note (.skipping lo hi)
    pure (cell, none)
  else if _h : hi - lo ≤ t.val then leaf lo hi cell
  else do
    let mid := lo + (hi - lo) / 2
    let (cell, left) ← searchRange t leaf lo mid cell
    let (cell, right) ← searchRange t leaf mid hi cell
    pure (cell, left <|> right)
termination_by hi - lo
decreasing_by
  all_goals
    have := Threshold.two_le _h
    omega

/-- The index of a match in `lo..hi`. -/
@[specialize] def findAny [Fork ε m] [Reports m] (t : Threshold) (accepts : Nat → m Bool)
    (lo hi : Nat) : m (Option Nat) := do
  match ← searchRange t (searchLeaf accepts) lo hi .empty with
  | (_, some e) => Fork.raise e
  | (cell, none) => pure cell.get

end

end Bisection
