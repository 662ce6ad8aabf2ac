import Bisection.Fork
import Bisection.Threshold

/-!
# Merging two runs

`mergeRuns` merges two runs one element at a time, and prefers the left run when
two elements are equal. `merge` does so in parallel: it cuts the left run in the
middle, cuts the right run before its first element that is not less than the
first of the upper left half, and merges the lower and the upper parts as the two
halves of a fork. Both write to a destination that is as long as the two runs, and
cut it as they cut the runs.
-/

namespace Bisection
set_option autoImplicit false

namespace Merge

section
variable {α : Type} {n k : Nat}

/-- The elements before the `k`-th. -/
@[inline] def lower (v : Vector α n) (k : Nat) (h : k ≤ n) : Vector α k :=
  (v.extract 0 k).cast (by omega)

/-- The elements from the `k`-th on. -/
@[inline] def upper (v : Vector α n) (k : Nat) : Vector α (n - k) :=
  (v.extract k n).cast (by omega)

/-- The elements of both parts. -/
@[inline] def glue (a : Vector α k) (b : Vector α (n - k)) (h : k ≤ n) : Vector α n :=
  (a ++ b).cast (by omega)

@[simp] theorem toList_lower (v : Vector α n) (k : Nat) (h : k ≤ n) :
    (lower v k h).toList = v.toList.take k := by
  rw [lower, Vector.toList_cast, Vector.toList_extract]
  rfl

@[simp] theorem toList_upper (v : Vector α n) (k : Nat) : (upper v k).toList = v.toList.drop k := by
  rw [upper, Vector.toList_cast, Vector.toList_extract]
  exact List.take_of_length_le (by simp)

@[simp] theorem toList_glue (a : Vector α k) (b : Vector α (n - k)) (h : k ≤ n) :
    (glue a b h).toList = a.toList ++ b.toList := by
  rw [glue, Vector.toList_cast, Vector.toList_append]

end

variable {ε α : Type} {m : Type → Type} [Monad m]

/-- Merges what is left of the runs, from `i` on in `left` and from `j` on in `right`, into the
places of `dest` from `i + j` on. -/
@[specialize] def mergeRunsFrom {a b : Nat} (cmp : α → α → m Ordering) (left : Vector α a)
    (right : Vector α b) (i j : Nat) (dest : Vector α (a + b)) (hi : i ≤ a) (hj : j ≤ b) :
    m (Vector α (a + b)) :=
  if h : i + j < a + b then
    if hl : i < a then
      if hr : j < b then do
        match ← cmp left[i] right[j] with
        | .gt => mergeRunsFrom cmp left right i (j + 1) (dest.set (i + j) right[j]) hi hr
        | _ => mergeRunsFrom cmp left right (i + 1) j (dest.set (i + j) left[i]) hl hj
      else mergeRunsFrom cmp left right (i + 1) j (dest.set (i + j) left[i]) hl hj
    else
      -- A place is left while one of the runs is, so they cannot both have ended.
      have hr : j < b := by omega
      mergeRunsFrom cmp left right i (j + 1) (dest.set (i + j) right[j]) hi hr
  else pure dest
termination_by a + b - (i + j)

/-- Merges two runs from left to right. -/
@[inline] def mergeRuns {a b : Nat} (cmp : α → α → m Ordering) (left : Vector α a)
    (right : Vector α b) (dest : Vector α (a + b)) : m (Vector α (a + b)) :=
  mergeRunsFrom cmp left right 0 0 dest (Nat.zero_le a) (Nat.zero_le b)

/-- Where the elements that are `below` end, among the `n` elements from `base` on: the range is
halved until one element is left. -/
@[specialize] def partitionPointFrom {b : Nat} (below : α → m Bool) (xs : Vector α b)
    (base n : Nat) (h : base + n ≤ b) (pos : 0 < n) : m (Fin (b + 1)) :=
  if hn : 1 < n then do
    let half := n / 2
    have : base + half < b := by omega
    if ← below xs[base + half] then
      partitionPointFrom below xs (base + half) (n - half) (by omega) (by omega)
    else partitionPointFrom below xs base (n - half) (by omega) (by omega)
  else do
    have : base < b := by omega
    if ← below xs[base] then pure ⟨base + 1, by omega⟩ else pure ⟨base, by omega⟩
termination_by n

/-- The index before which the elements are `below`, found by bisection. -/
@[inline] def partitionPoint {b : Nat} (below : α → m Bool) (xs : Vector α b) :
    m (Fin (b + 1)) :=
  if h : 0 < b then partitionPointFrom below xs 0 b (by omega) h else pure 0

/-- How the index is found before which the elements of a run are below. It is one of the run's, or
its end. -/
abbrev CutSearch (m : Type → Type) (α : Type) : Type :=
  {b : Nat} → (α → m Bool) → Vector α b → m (Fin (b + 1))

end Merge

open Merge in
/-- Merges two runs into a destination. `search` finds where the right one is cut. -/
@[specialize] def merge {ε α : Type} {m : Type → Type} [Monad m] [Fork ε m] {a b : Nat}
    (t : Threshold) (cmp : α → α → m Ordering) (left : Vector α a) (right : Vector α b)
    (dest : Vector α (a + b)) (search : CutSearch m α := partitionPoint) :
    m (Vector α (a + b)) :=
  if h : a ≤ t.val ∨ b = 0 then mergeRuns cmp left right dest
  else do
    let mid := a / 2
    have hmid : mid < a := by have := t.pos; omega
    let first := left[mid]
    let cut ← search (fun x => do pure ((← cmp x first) == .lt)) right
    have hcut := cut.isLt
    let (below, above) ← Fork.join
      (merge t cmp (lower left mid (by omega)) (lower right cut (by omega))
        (lower dest (mid + cut) (by omega)) search)
      (merge t cmp (upper left mid) (upper right cut)
        ((upper dest (mid + cut)).cast (by omega)) search)
    pure (glue below (above.cast (by omega)) (by omega))
termination_by a
decreasing_by
  all_goals
    have := t.pos
    simp +zetaDelta
    omega

end Bisection
