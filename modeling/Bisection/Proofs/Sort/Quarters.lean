import Bisection.Proofs.Sort.Merge
import Bisection.Proofs.Sort.Quicksort
import Bisection.Sort.Quarters

/-!
# What a sort leaves

The quarters go back and forth between the elements and the workspace. What each step reads was
written by the step before: the sorted quarters are read where they were sorted, the merged halves
in the workspace. So what is in the workspace at the start is never read, and a sort gives the same
elements in order, for every length and every threshold.
-/

namespace Bisection
set_option autoImplicit false

variable {α : Type} {cmp : α → α → Ordering}

/-- A list holds the elements of another in order. -/
structure Sorts (cmp : α → α → Ordering) (sorted given : List α) : Prop where
  perm : sorted.Perm given
  inOrder : InOrder cmp sorted

theorem Sorts.merge [Std.TransCmp cmp] (t : Threshold) {a b : Nat} {left : Vector α a}
    {right : Vector α b} {given given' : List α} (hleft : Sorts cmp left.toList given)
    (hright : Sorts cmp right.toList given') (dest : Vector α (a + b)) :
    let merged : Vector α (a + b) := merge (m := Id) t cmp left right dest
    Sorts cmp merged.toList (given ++ given') := by
  intro merged
  have eq : merged.toList = mergeLists cmp left.toList right.toList :=
    toList_merge t left right dest hleft.inOrder hright.inOrder
  rw [eq]
  constructor
  · exact (mergeLists_perm cmp _ _).trans (hleft.perm.append hright.perm)
  · exact hleft.inOrder.mergeLists cmp hright.inOrder

/-- What a sort puts in place stands to the elements as the sorted leaves stand to theirs, if every
merge keeps that. What the workspace holds makes no difference. -/
theorem sortIntoPlace_rel_of_leaves {R : List α → List α → Prop} (t : Threshold)
    (search : Merge.CutSearch Id α)
    (leaves : ∀ s : Store α, s.size ≤ t.val → R (quicksort (m := Id) cmp s).toList s.toList)
    (merges : ∀ {a b : Nat} {left : Vector α a} {right : Vector α b} {given given' : List α}
      (dest : Vector α (a + b)), R left.toList given → R right.toList given' →
        R (merge (m := Id) t cmp left right dest search).toList (given ++ given'))
    {n : Nat} (data work : Vector α n) :
    let out : Vector α n × Vector α n := sortIntoPlace (m := Id) t cmp data work search
    R out.1.toList data.toList := by
  refine sortIntoPlace.induct t
    (fun n data work =>
      let out : Vector α n × Vector α n := sortIntoPlace (m := Id) t cmp data work search
      R out.1.toList data.toList)
    (fun n q hq data work =>
      let out : Vector α n × Vector α n := sortHalf (m := Id) t cmp q hq data work search
      R out.2.toList data.toList)
    ?leaf ?whole ?half n data work
  case leaf =>
    intro n data work short out
    unfold out
    rw [sortIntoPlace_of_le short]
    exact leaves (.cells data.toArray) (Nat.le_trans (Nat.le_of_eq data.size_toArray) short)
  case whole =>
    intro n data work long half quarter low high out
    let lowOut : Vector α half × Vector α half := sortHalf (m := Id) t cmp quarter (by omega)
      (Merge.lower data half (by omega)) (Merge.lower work half (by omega)) search
    let highOut : Vector α (n - half) × Vector α (n - half) := sortHalf (m := Id) t cmp quarter
      (by omega) (Merge.upper data half) (Merge.upper work half) search
    let merged : Vector α (half + (n - half)) :=
      merge (m := Id) t cmp lowOut.2 highOut.2 (lowOut.1 ++ highOut.1) search
    have step : out.1 = merged.cast (by omega) := by
      unfold out
      rw [sortIntoPlace, dif_neg long]
      rfl
    have both := merges (lowOut.1 ++ highOut.1) low high
    rw [Merge.toList_lower, Merge.toList_upper, List.take_append_drop] at both
    rw [step, Vector.toList_cast]
    exact both
  case half =>
    intro n q hq data work low high out
    let lowOut : Vector α q × Vector α q := sortIntoPlace (m := Id) t cmp
      (Merge.lower data q hq) (Merge.lower work q hq) search
    let highOut : Vector α (n - q) × Vector α (n - q) := sortIntoPlace (m := Id) t cmp
      (Merge.upper data q) (Merge.upper work q) search
    let merged : Vector α (q + (n - q)) :=
      merge (m := Id) t cmp lowOut.1 highOut.1 (lowOut.2 ++ highOut.2) search
    have step : out.2 = merged.cast (by omega) := by
      unfold out
      rw [sortHalf_eq]
      rfl
    have both := merges (lowOut.2 ++ highOut.2) low high
    rw [Merge.toList_lower, Merge.toList_upper, List.take_append_drop] at both
    rw [step, Vector.toList_cast]
    exact both

/-- The same for what the sort does to leaves of every length. -/
theorem sortIntoPlace_rel {R : List α → List α → Prop} (t : Threshold)
    (search : Merge.CutSearch Id α)
    (leaves : ∀ s : Store α, R (quicksort (m := Id) cmp s).toList s.toList)
    (merges : ∀ {a b : Nat} {left : Vector α a} {right : Vector α b} {given given' : List α}
      (dest : Vector α (a + b)), R left.toList given → R right.toList given' →
        R (merge (m := Id) t cmp left right dest search).toList (given ++ given'))
    {n : Nat} (data work : Vector α n) :
    let out : Vector α n × Vector α n := sortIntoPlace (m := Id) t cmp data work search
    R out.1.toList data.toList :=
  sortIntoPlace_rel_of_leaves t search (fun leaf _ => leaves leaf) merges data work

section
variable [Std.TransCmp cmp]

theorem sorts_mergeSort (xs : List α) :
    Sorts cmp (xs.mergeSort fun x y => (cmp x y).isLE) xs where
  perm := List.mergeSort_perm _ _
  inOrder := List.pairwise_mergeSort (fun _ _ _ => Std.TransCmp.isLE_trans)
    (fun x y => (Bool.or_eq_true _ _).mpr (isLE_total x y)) xs

theorem sorts_quicksort (s : Store α) :
    let sorted : Vector α s.size := quicksort (m := Id) cmp s
    Sorts cmp sorted.toList s.toList :=
  ⟨quicksort_perm cmp s, quicksort_inOrder s⟩

/-- Whatever the workspace holds, the elements end up in order in their own place. -/
theorem sorts_sortIntoPlace (t : Threshold) {n : Nat} (data work : Vector α n) :
    let out : Vector α n × Vector α n := sortIntoPlace (m := Id) t cmp data work
    Sorts cmp out.1.toList data.toList := by
  apply sortIntoPlace_rel t Merge.partitionPoint sorts_quicksort
  intro a b left right given given' dest hleft hright
  exact hleft.merge t hright dest

theorem sorts_sortBy (t : Threshold) (s : Store α) :
    let sorted : Array α := sortBy (m := Id) t cmp s
    Sorts cmp sorted.toList s.toList := by
  intro sorted
  unfold sorted sortBy
  split
  · exact sorts_quicksort s
  · let data : Vector α s.size := ⟨s.toArray, s.size_toArray⟩
    have given : data.toList = s.toList := s.toList_toArray
    rw [← given]
    exact sorts_sortIntoPlace t data data

end

/-- A sort by a comparator that is a total preorder gives the elements it was given, none of them
greater than a later one, whatever the threshold is. -/
theorem sortBy_sorts (t : Threshold) (cmp : α → α → Ordering)
    (reverse : ∀ x y, cmp x y = (cmp y x).swap)
    (trans : ∀ x y z, cmp x y ≠ .gt → cmp y z ≠ .gt → cmp x z ≠ .gt) (s : Store α) :
    let sorted : Array α := sortBy (m := Id) t cmp s
    sorted.toList.Perm s.toList ∧ sorted.toList.Pairwise fun x y => cmp x y ≠ .gt := by
  intro sorted
  have preorder : Std.TransCmp cmp := transCmp_of_ne_gt reverse trans
  have sorts : Sorts cmp sorted.toList s.toList := sorts_sortBy t s
  refine ⟨sorts.perm, sorts.inOrder.imp fun le => ?_⟩
  rwa [Ordering.isLE_iff_ne_gt] at le

/-- Numbers that are compared by their halves, so that some are equal without being the same, and
leaves of one element, so that all of them are merged. -/
theorem sortBy_sorts_halves :
    let cmp (x y : Nat) : Ordering := compare (x / 2) (y / 2)
    let sorted : Array Nat := sortBy (m := Id) ⟨1, by decide⟩ cmp (.cells #[5, 1, 4, 0, 3])
    sorted.toList.Perm [5, 1, 4, 0, 3] ∧ sorted.toList.Pairwise fun x y => cmp x y ≠ .gt := by
  intro cmp
  refine sortBy_sorts ⟨1, by decide⟩ cmp ?_ ?_ (.cells #[5, 1, 4, 0, 3])
  · intro x y
    have swap : compare (x / 2) (y / 2) = (compare (y / 2) (x / 2)).swap :=
      Std.OrientedCmp.eq_swap
    exact swap
  · intro x y z hxy hyz
    have le : (compare (x / 2) (z / 2)).isLE :=
      Std.TransCmp.isLE_trans (Ordering.ne_gt_iff_isLE.mp hxy) (Ordering.ne_gt_iff_isLE.mp hyz)
    exact Ordering.ne_gt_iff_isLE.mpr le

end Bisection
