import Bisection.Sort.Merge
import Bisection.Sort.Quicksort

/-!
# Sorting in quarters

A store longer than the threshold is cut in four. The quarters are sorted in
place, the two quarters of each half are merged into a workspace as long as the
elements, which starts as a copy of them, and the two halves are merged back from
there. A quarter that is longer than the threshold is sorted in the same way, with
its part of the workspace. Shorter ones are sorted in place.
-/

namespace Bisection
set_option autoImplicit false

section
variable (n : Nat)

theorem half_le : n / 2 ≤ n := Nat.div_le_self n 2

theorem half_add_rest : n / 2 + (n - n / 2) = n := Nat.add_sub_of_le (half_le n)

theorem quarter_le_half : n / 4 ≤ n / 2 := by omega

theorem quarter_le_rest : n / 4 ≤ n - n / 2 := by omega

end

theorem Store.size_cells {α : Type} {n : Nat} (v : Vector α n) :
    (Store.cells v.toArray).size = n := v.size_toArray

section
open Merge

variable {ε α : Type} {m : Type → Type} [Monad m] [Fork ε m]

mutual

/-- Sorts `data` with a workspace, and gives what is in both of them then. -/
@[specialize] def sortIntoPlace {n : Nat} (t : Threshold) (cmp : α → α → m Ordering)
    (data work : Vector α n) (search : CutSearch m α := partitionPoint) :
    m (Vector α n × Vector α n) :=
  if _h : n ≤ t.val then do
    let sorted ← quicksort cmp (.cells data.toArray)
    pure (sorted.cast (Store.size_cells data), work)
  else do
    let half := n / 2
    let quarter := n / 4
    let (low, high) ← Fork.join
      (sortHalf t cmp quarter (quarter_le_half n) (lower data half (half_le n))
        (lower work half (half_le n)) search)
      (sortHalf t cmp quarter (quarter_le_rest n) (upper data half) (upper work half) search)
    let data ← merge t cmp low.2 high.2 (low.1 ++ high.1) search
    pure (data.cast (half_add_rest n), glue low.2 high.2 (half_le n))
termination_by 2 * n
decreasing_by
  all_goals
    have := Threshold.two_le _h
    simp +zetaDelta
    omega

/-- Sorts the elements of `data` before the `q`-th and those from there on, and merges them into
the workspace. -/
@[specialize] def sortHalf {n : Nat} (t : Threshold) (cmp : α → α → m Ordering) (q : Nat)
    (hq : q ≤ n) (data work : Vector α n) (search : CutSearch m α := partitionPoint) :
    m (Vector α n × Vector α n) := do
  let (a, b) ← Fork.join
    (sortIntoPlace t cmp (lower data q hq) (lower work q hq) search)
    (sortIntoPlace t cmp (upper data q) (upper work q) search)
  let work ← merge t cmp a.1 b.1 (a.2 ++ b.2) search
  pure (glue a.1 b.1 hq, work.cast (Nat.add_sub_of_le hq))
termination_by 2 * n + 1
decreasing_by
  all_goals omega

end

theorem sortIntoPlace_of_le {n : Nat} {t : Threshold} (h : n ≤ t.val) (cmp : α → α → m Ordering)
    (data work : Vector α n) (search : CutSearch m α) :
    sortIntoPlace t cmp data work search = (do
      let sorted ← quicksort cmp (.cells data.toArray)
      pure (sorted.cast (Store.size_cells data), work)) := by
  rw [sortIntoPlace, dif_pos h]

theorem sortHalf_eq {n : Nat} (t : Threshold) (cmp : α → α → m Ordering) (q : Nat) (hq : q ≤ n)
    (data work : Vector α n) (search : CutSearch m α) :
    sortHalf t cmp q hq data work search = (do
      let (a, b) ← Fork.join
        (sortIntoPlace t cmp (lower data q hq) (lower work q hq) search)
        (sortIntoPlace t cmp (upper data q) (upper work q) search)
      let work ← merge t cmp a.1 b.1 (a.2 ++ b.2) search
      pure (glue a.1 b.1 hq, work.cast (Nat.add_sub_of_le hq))) := by
  rw [sortHalf]

/-- Sorts the elements by `cmp`. -/
@[specialize] def sortBy (t : Threshold) (cmp : α → α → m Ordering) (s : Store α)
    (search : CutSearch m α := partitionPoint) : m (Array α) :=
  if s.size ≤ t.val then do
    let sorted ← quicksort cmp s
    pure sorted.toArray
  else do
    let data : Vector α s.size := ⟨s.toArray, Store.size_toArray s⟩
    let (sorted, _) ← sortIntoPlace t cmp data data search
    pure sorted.toArray

end

end Bisection
