import Bisection.Proofs.Alone.Tracking
import Bisection.Sort.Quarters

/-!
# Sorting alone

A sort is not told where its elements are. It comes to the same result if its comparator does.
-/

namespace Bisection
set_option autoImplicit false

open Likeness

section
variable {α : Type} {m m' : Type → Type} [Monad m] [LawfulMonad m] [Monad m'] [LawfulMonad m']
  {ρ : Likeness m m'} {cmp : α → α → m Ordering} {cmp' : α → α → m' Ordering} {n : Nat}

namespace Quicksort

/-- An element sinks past the same ones on both sides. -/
theorem same_sink (same : ∀ x y, ρ.Same (cmp x y) (cmp' x y)) (v : Run α n) (j : Nat)
    (hj : j < n) : ρ.Same (sink cmp v j hj) (sink cmp' v j hj) := by
  induction v, j, hj using sink.induct with
  | case1 v hj => exact .pure v
  | case2 v j hj ih =>
    rw [sink, sink]
    refine (same _ _).bind fun o => ?_
    cases o with
    | lt => exact ih
    | _ => exact .pure v

theorem same_insertFrom (same : ∀ x y, ρ.Same (cmp x y) (cmp' x y)) (i : Nat) (v : Run α n) :
    ρ.Same (insertFrom cmp i v) (insertFrom cmp' i v) := by
  induction h : n - i using Nat.strongRecOn generalizing i v with
  | ind left ih =>
    rw [insertFrom, insertFrom]
    by_cases hi : i < n
    · rw [dif_pos hi, dif_pos hi]
      exact (same_sink same v i hi).bind fun v => ih _ (by omega) (i + 1) v rfl
    · rw [dif_neg hi, dif_neg hi]
      exact .pure v

/-- The same of three elements is moved to the middle. -/
theorem same_medianToMiddle (same : ∀ x y, ρ.Same (cmp x y) (cmp' x y)) (v : Run α n)
    (h : 0 < n) : ρ.Same (medianToMiddle cmp v h) (medianToMiddle cmp' v h) := by
  have inside := Nat.div_lt_self h (show 1 < 2 by decide)
  rw [medianToMiddle, medianToMiddle]
  refine (same _ _).bind fun o => ?_
  -- The last element is looked at in the same way whether the middle one was moved before or not.
  cases o
  all_goals
    refine (Same.pure _).bind fun v => (same _ _).bind fun o => ?_
    cases o with
    | lt =>
      refine (same _ _).bind fun o => ?_
      cases o <;> exact .pure _
    | _ => exact .pure v

/-- By induction on what lies between the two zones: each comparison puts the same element into the
same zone. -/
theorem same_splitFrom (same : ∀ x y, ρ.Same (cmp x y) (cmp' x y)) (pivot : α) (v : Run α n)
    (lt i gt : Nat) (hlt : lt ≤ i) (hi : i ≤ gt) (hgt : gt ≤ n) :
    ρ.Same (splitFrom cmp pivot v lt i gt hlt hi hgt)
      (splitFrom cmp' pivot v lt i gt hlt hi hgt) := by
  induction h : gt - i using Nat.strongRecOn generalizing v lt i gt with
  | ind left ih =>
    rw [splitFrom, splitFrom]
    by_cases within : i < gt
    · rw [dif_pos within, dif_pos within]
      refine (same _ _).bind fun o => ?_
      cases o with
      | lt => exact ih _ (by omega) _ _ _ _ _ _ _ rfl
      | gt => exact ih _ (by omega) _ _ _ _ _ _ _ rfl
      | eq => exact ih _ (by omega) _ _ _ _ _ _ _ rfl
    · rw [dif_neg within, dif_neg within]
      exact .pure _

theorem same_split (same : ∀ x y, ρ.Same (cmp x y) (cmp' x y)) (v : Run α n) (h : 0 < n) :
    ρ.Same (split cmp v h) (split cmp' v h) := by
  rw [split, split]
  exact (same_medianToMiddle same v h).bind fun v => same_splitFrom same _ v _ _ _ _ _ _

end Quicksort

open Quicksort in
/-- The parts are cut alike, so the same one of them is the shorter and sorted first. -/
theorem same_quicksort (same : ∀ x y, ρ.Same (cmp x y) (cmp' x y)) (s : Store α) :
    ρ.Same (quicksort cmp s) (quicksort cmp' s) := by
  rw [quicksort, quicksort]
  by_cases short : s.size ≤ insertionLimit
  · rw [dif_pos short, dif_pos short]
    exact (same_insertFrom same 1 _).bind fun v => .pure _
  · rw [dif_neg short, dif_neg short]
    refine (same_split same _ _).bind fun parts => ?_
    by_cases whole : parts.lt = 0 ∧ parts.gt = s.size
    · rw [if_pos whole, if_pos whole]
      exact .pure _
    · rw [if_neg whole, if_neg whole]
      by_cases shorter : parts.lt < s.size ∧ 0 < parts.gt
      · rw [dif_pos shorter, dif_pos shorter]
        have left := same_quicksort same (parts.cells.store.slice 0 parts.lt)
        have right := same_quicksort same (parts.cells.store.slice parts.gt s.size)
        dsimp only
        split
        · exact left.bind fun _ => right.bind fun _ => .pure _
        · exact right.bind fun _ => left.bind fun _ => .pure _
      · rw [dif_neg shorter, dif_neg shorter]
        exact .pure _
termination_by s.size
decreasing_by
  all_goals
    have := parts.lt_le_gt
    have := parts.gt_le
    have := parts.cells.size_eq
    rw [Store.size_slice]
    omega

namespace Merge
variable {a b : Nat}

/-- By induction on the places that are left: each comparison takes the next element from the same
run. -/
theorem same_mergeRunsFrom (same : ∀ x y, ρ.Same (cmp x y) (cmp' x y)) (left : Vector α a)
    (right : Vector α b) (i j : Nat) (dest : Vector α (a + b)) (hi : i ≤ a) (hj : j ≤ b) :
    ρ.Same (mergeRunsFrom cmp left right i j dest hi hj)
      (mergeRunsFrom cmp' left right i j dest hi hj) := by
  induction h : a + b - (i + j) using Nat.strongRecOn generalizing i j dest with
  | ind rest ih =>
    rw [mergeRunsFrom, mergeRunsFrom]
    by_cases more : i + j < a + b
    · rw [dif_pos more, dif_pos more]
      split
      · split
        · refine (same _ _).bind fun o => ?_
          cases o <;> exact ih _ (by omega) _ _ _ _ _ rfl
        · exact ih _ (by omega) _ _ _ _ _ rfl
      · exact ih _ (by omega) _ _ _ _ _ rfl
    · rw [dif_neg more, dif_neg more]
      exact .pure dest

/-- Each question of the binary search leaves the same half. -/
theorem same_partitionPointFrom {below : α → m Bool} {below' : α → m' Bool}
    (same : ∀ x, ρ.Same (below x) (below' x))
    (xs : Vector α b) (base n : Nat) (h : base + n ≤ b) (pos : 0 < n) :
    ρ.Same (partitionPointFrom below xs base n h pos)
      (partitionPointFrom below' xs base n h pos) := by
  induction n using Nat.strongRecOn generalizing base with
  | ind n ih =>
    rw [partitionPointFrom, partitionPointFrom]
    by_cases more : 1 < n
    · rw [dif_pos more, dif_pos more]
      refine (same _).bind fun o => ?_
      cases o <;> exact ih _ (by omega) _ _ _
    · rw [dif_neg more, dif_neg more]
      refine (same _).bind fun o => ?_
      cases o <;> exact .pure _

theorem same_partitionPoint {below : α → m Bool} {below' : α → m' Bool}
    (same : ∀ x, ρ.Same (below x) (below' x))
    (xs : Vector α b) : ρ.Same (partitionPoint below xs) (partitionPoint below' xs) := by
  rw [partitionPoint, partitionPoint]
  split
  · exact same_partitionPointFrom same xs 0 b _ _
  · exact .pure 0

end Merge

end

section
variable {ε ε' α : Type} {m m' : Type → Type} [Monad m] [LawfulMonad m] [Fork ε m] [Reports m]
  [Monad m'] [LawfulMonad m'] [Fork ε' m'] [Reports m'] {d : Nat} {T : Tracking d m m'}
  {cmp : α → α → m Ordering} {cmp' : α → α → m' Ordering}

/-- The right run is cut at the same place, so both merges of the halves are alike. -/
theorem same_merge (same : ∀ x y, T.Same (cmp x y) (cmp' x y)) (t : Threshold) {a b : Nat}
    (left : Vector α a) (right : Vector α b) (dest : Vector α (a + b)) :
    T.Same (merge t cmp left right dest) (merge t cmp' left right dest) := by
  rw [merge, merge]
  split
  · exact Merge.same_mergeRunsFrom same left right 0 0 dest _ _
  · refine (Merge.same_partitionPoint (fun x => (same _ _).bind fun _ => .pure _) right).bind
      fun cut => ?_
    exact (T.same_join (same_merge same t _ _ _) (same_merge same t _ _ _)).bind fun _ => .pure _
termination_by a
decreasing_by
  all_goals
    have := t.pos
    omega

mutual

/-- Both sides fork at the same places, and merge the halves back from the workspace. -/
theorem same_sortIntoPlace (same : ∀ x y, T.Same (cmp x y) (cmp' x y)) (t : Threshold) {n : Nat}
    (data work : Vector α n) :
    T.Same (sortIntoPlace t cmp data work) (sortIntoPlace t cmp' data work) := by
  by_cases short : n ≤ t.val
  · rw [sortIntoPlace_of_le short, sortIntoPlace_of_le short]
    exact (same_quicksort same _).bind fun _ => .pure _
  · rw [sortIntoPlace, dif_neg short, sortIntoPlace, dif_neg short]
    refine (T.same_join (same_sortHalf same t _ _ _ _) (same_sortHalf same t _ _ _ _)).bind
      fun halves => ?_
    exact (same_merge same t _ _ _).bind fun _ => .pure _
termination_by 2 * n
decreasing_by
  all_goals
    have := Threshold.two_le short
    omega

theorem same_sortHalf (same : ∀ x y, T.Same (cmp x y) (cmp' x y)) (t : Threshold) {n : Nat}
    (q : Nat) (hq : q ≤ n) (data work : Vector α n) :
    T.Same (sortHalf t cmp q hq data work) (sortHalf t cmp' q hq data work) := by
  rw [sortHalf_eq, sortHalf_eq]
  refine (T.same_join (same_sortIntoPlace same t _ _) (same_sortIntoPlace same t _ _)).bind
    fun halves => ?_
  exact (same_merge same t _ _ _).bind fun _ => .pure _
termination_by 2 * n + 1
decreasing_by
  all_goals omega

end

/-- A sort gives as many elements as it is given. -/
theorem Tracking.sortBy (T : Tracking d m m') (same : ∀ x y, T.Same (cmp x y) (cmp' x y))
    (t : Threshold) (s : Store α) :
    T.Rel (fun xs ys => xs = ys ∧ xs.size = s.size) (Bisection.sortBy t cmp s)
      (Bisection.sortBy t cmp' s) := by
  rw [Bisection.sortBy, Bisection.sortBy]
  split
  · exact (same_quicksort same s).bind_same fun v => T.pure ⟨rfl, v.size_toArray⟩
  · exact (same_sortIntoPlace same t _ _).bind_same fun p => T.pure ⟨rfl, p.1.size_toArray⟩

end

end Bisection
