import Bisection.Proofs.Window.Totals

/-!
# A window and the array of its elements alone

`Window.alone` is the array that holds just the elements of a window, with the same pool and
threshold. Elements that are put into the window are put between what is before and behind it, and
alone they are all there is (`Window.alone_refill`). `Window.Left` says that an operation did that.
-/

namespace Bisection
set_option autoImplicit false

namespace Store
variable {α : Type}

/-- Whether the store is a count of copies. -/
def isCount : Store α → Bool
  | cells _ => false
  | copies _ _ _ => true

/-- A store is known by its elements, once it is known whether it counts copies. -/
theorem eq_of_toList {s s' : Store α} (kind : s.isCount = s'.isCount)
    (elems : s.toList = s'.toList) : s = s' := by
  cases s with
  | cells xs =>
    cases s' with
    | cells ys => rw [Array.toList_inj.mp elems]
    | copies _ _ _ => cases kind
  | copies single x n =>
    cases s' with
    | cells ys => cases kind
    | copies _ y k =>
      have count := congrArg List.length elems
      rw [toList, toList, List.length_replicate, List.length_replicate] at count
      rw [count, single x y]

theorem isCount_slice (s : Store α) (lo hi : Nat) : (s.slice lo hi).isCount = s.isCount := by
  cases s with
  | cells xs =>
    rw [slice]
    split <;> rfl
  | copies single x n => rfl

theorem isCount_splice (s : Store α) (lo hi : Nat) (xs : Array α) :
    (s.splice lo hi xs).isCount = s.isCount := by
  cases s with
  | cells ys =>
    rw [splice]
    split <;> rfl
  | copies single x n => rfl

/-- The whole of a store is the store itself, as a value and not only by its elements. -/
theorem slice_all (s : Store α) : s.slice 0 s.size = s := by
  refine eq_of_toList (isCount_slice s 0 s.size) ?_
  rw [toList_slice, List.drop_zero, List.take_of_length_le (Nat.le_of_eq s.length_toList)]

/-- What is cut out and put back in its place leaves the store as it was. -/
theorem splice_slice (s : Store α) {lo hi : Nat} (order : lo ≤ hi) :
    s.splice lo hi (s.slice lo hi).toArray = s := by
  refine eq_of_toList (isCount_splice s lo hi _) ?_
  have front : (s.toList.take hi).take lo = s.toList.take lo := by
    rw [List.take_take, Nat.min_eq_left order]
  rw [toList_splice, toList_toArray, toList_slice, ← front, List.take_append_drop,
    List.take_append_drop]

/-- Of what is put in the same place twice, the second is left. -/
theorem splice_splice (s : Store α) {lo hi : Nat} (order : lo ≤ hi) (fits : hi ≤ s.size)
    (xs ys : Array α) :
    (s.splice lo hi xs).splice lo (lo + xs.size) ys = s.splice lo hi ys := by
  refine eq_of_toList ?_ ?_
  · rw [isCount_splice, isCount_splice, isCount_splice]
  · have front : (s.toList.take lo).length = lo := by
      rw [List.length_take, length_toList]
      omega
    have front' : (s.toList.take lo ++ xs.toList).length = lo + xs.size := by
      rw [List.length_append, front, Array.length_toList]
    rw [toList_splice, toList_splice, toList_splice, List.drop_left' front',
      List.append_assoc (s.toList.take lo) xs.toList, List.take_left' front]

/-- The range that elements were put into is, cut out again, the old range with these elements in
place of all it had. -/
theorem slice_splice (s : Store α) {lo hi : Nat} (order : lo ≤ hi) (fits : hi ≤ s.size)
    (xs : Array α) : (s.splice lo hi xs).slice lo (lo + xs.size) =
      (s.slice lo hi).splice 0 (s.slice lo hi).size xs := by
  refine eq_of_toList ?_ ?_
  · rw [isCount_slice, isCount_splice, isCount_splice, isCount_slice]
  · have front : (s.toList.take lo).length = lo := by
      rw [List.length_take, length_toList]
      omega
    have front' : (s.toList.take lo ++ xs.toList).length = lo + xs.size := by
      rw [List.length_append, front, Array.length_toList]
    have all : (s.slice lo hi).toList.drop (s.slice lo hi).size = [] :=
      List.drop_eq_nil_of_le (Nat.le_of_eq (length_toList _))
    rw [toList_slice, toList_splice, toList_splice, List.take_left' front', all,
      List.append_nil, List.take_zero, List.nil_append, List.drop_left' front]

end Store

namespace Window

section
variable {α : Type} (w : Window α)

/-- The array that holds only the elements of the window. -/
def alone : BulkArray α := ⟨w.array.pool, w.array.threshold, w.part⟩

theorem lo_add_size : w.lo + w.size = w.hi := Nat.add_sub_cancel' w.lo_le_hi

@[simp] theorem size_alone : w.alone.whole.size = w.size := w.size_part

@[simp] theorem part_alone : w.alone.whole.part = w.part := w.part.slice_all

theorem hi_alone : w.alone.whole.hi = w.size := w.size_alone

/-- The indices of a window are those of its elements alone, further on by where it starts. -/
theorem indices_alone : List.range' w.lo w.size = (List.range' 0 w.size).map (w.lo + ·) := by
  rw [List.map_add_range']
  rfl

/-- An element of the window is found alone at an index that is smaller by where the window starts.
-/
theorem get?_alone {i : Nat} (inside : i < w.size) :
    w.get? (w.lo + i) = w.alone.whole.get? i := by
  have within := w.lo_add_size
  show w.array.store.get? (w.lo + i) = w.part.get? i
  rw [part, ← Store.getElem?_toList, ← Store.getElem?_toList, Store.toList_slice,
    List.getElem?_drop, List.getElem?_take_of_lt (by omega)]

variable {w}

theorem eq_of_fields {w w' : Window α} (array : w.array = w'.array) (lo : w.lo = w'.lo)
    (hi : w.hi = w'.hi) : w = w' := by
  cases w
  cases w'
  cases array
  cases lo
  cases hi
  rfl

/-- A window that is filled with its own elements is as it was. -/
theorem refill_elems (w : Window α) : w.refill w.elems = w := by
  refine eq_of_fields ?_ rfl ?_
  · show (⟨_, _, w.array.store.splice w.lo w.hi w.elems⟩ : BulkArray α) = w.array
    rw [elems, part, Store.splice_slice _ w.lo_le_hi]
  · show w.lo + w.elems.size = w.hi
    rw [elems, Store.size_toArray, size_part, Nat.add_sub_cancel' w.lo_le_hi]

/-- Of two fillings the second is left, wherever the first moved the end of the window to. -/
theorem refill_refill (w : Window α) (xs ys : Array α) :
    (w.refill xs).refill ys = w.refill ys := by
  refine eq_of_fields ?_ rfl rfl
  show (⟨_, _, (w.array.store.splice w.lo w.hi xs).splice w.lo (w.lo + xs.size) ys⟩ : BulkArray α) =
    ⟨_, _, _⟩
  rw [Store.splice_splice _ w.lo_le_hi w.hi_le_size]
  rfl

/-- To fill a window and take its elements alone is to fill its elements alone. -/
theorem alone_refill (w : Window α) (xs : Array α) :
    (w.refill xs).alone.whole = w.alone.whole.refill xs := by
  have part : (w.refill xs).part = w.part.splice 0 w.part.size xs :=
    Store.slice_splice _ w.lo_le_hi w.hi_le_size xs
  have array : (w.refill xs).alone = (w.alone.whole.refill xs).array := by
    show (⟨_, _, _⟩ : BulkArray α) = ⟨_, _, _⟩
    rw [part]
    rfl
  refine eq_of_fields array rfl ?_
  show (w.refill xs).part.size = 0 + xs.size
  rw [size_part]
  show w.lo + xs.size - w.lo = _
  omega

/-- What an operation leaves of a window and of its elements alone: the same elements are put into
both, no more than there were. -/
def Left (w w' v' : Window α) : Prop :=
  ∃ xs : Array α, xs.size ≤ w.size ∧ w' = w.refill xs ∧ v' = w.alone.whole.refill xs

/-- An operation that changes nothing leaves a window and its elements alone alike. -/
theorem Left.same (w : Window α) : w.Left w w.alone.whole := by
  refine ⟨w.elems, ?_, w.refill_elems.symm, ?_⟩
  · rw [elems, Store.size_toArray, size_part]
    exact Nat.le_refl _
  · rw [← alone_refill, refill_elems]

end

end Window

end Bisection
