import Bisection.Store

/-!
# Sorting a leaf

`quicksort` sorts the elements of a leaf one task at a time. Up to eight elements
are sorted by insertion. A longer run is split in three around a pivot, the
median of its first, middle and last elements: the elements less than the pivot,
those equal to it, and those greater. The shorter of the outer parts is sorted
first.

The comparator may answer anything. It is asked about pairs of elements of the
run only, and the elements are only ever swapped.
-/

namespace Bisection
set_option autoImplicit false

/-- A store of `n` elements. -/
structure Run (α : Type) (n : Nat) where
  store : Store α
  size_eq : store.size = n

namespace Run
variable {α : Type} {n : Nat}

/-- The run of all elements of a store. -/
def ofStore (s : Store α) : Run α s.size := ⟨s, rfl⟩

/-- The element at an index. -/
@[inline] def get : (v : Run α n) → (i : Nat) → i < n → α
  | ⟨.cells xs, h⟩, i, hi =>
    have : i < xs.size := by subst h; exact hi
    xs[i]
  | ⟨.copies _ x _, _⟩, _, _ => x

instance : GetElem (Run α n) Nat α (fun _ i => i < n) := ⟨get⟩

/-- The run with the elements at two indices exchanged. -/
@[inline] def swap : (v : Run α n) → (i j : Nat) → i < n → j < n → Run α n
  | ⟨.cells xs, h⟩, i, j, hi, hj =>
    have : i < xs.size := by subst h; exact hi
    have : j < xs.size := by subst h; exact hj
    ⟨.cells (xs.swap i j), (Array.size_swap ..).trans h⟩
  | ⟨.copies single x k, h⟩, _, _, _, _ => ⟨.copies single x k, h⟩

/-- The elements in order. -/
def toVector (v : Run α n) : Vector α n := ⟨v.store.toArray, by simp [v.size_eq]⟩

@[simp] theorem toList_toVector (v : Run α n) : v.toVector.toList = v.store.toList := by
  rw [toVector, Vector.toList_mk, Store.toList_toArray]

theorem getElem?_toList (v : Run α n) (i : Nat) (hi : i < n) :
    v.store.toList[i]? = some v[i] := by
  obtain ⟨store, size⟩ := v
  cases store with
  | cells xs =>
    subst size
    rw [Store.size] at hi
    show xs.toList[i]? = some xs[i]
    rw [Array.getElem?_toList, Array.getElem?_eq_getElem hi]
  | copies single x k =>
    subst size
    rw [Store.size] at hi
    show (List.replicate k x)[i]? = some x
    rw [List.getElem?_replicate, if_pos hi]

theorem getElem_swap (v : Run α n) {i j k : Nat} (hi : i < n) (hj : j < n) (hk : k < n) :
    (v.swap i j hi hj)[k] = if k = i then v[j] else if k = j then v[i] else v[k] := by
  obtain ⟨store, size⟩ := v
  cases store with
  | cells xs =>
    subst size
    rw [Store.size] at hi hj hk
    have inside : k < (xs.swap i j).size := by rwa [Array.size_swap]
    change (xs.swap i j)[k] = if k = i then xs[j] else if k = j then xs[i] else xs[k]
    exact Array.getElem_swap hi hj inside
  | copies single x k => exact single _ _

theorem swap_perm (v : Run α n) {i j : Nat} (hi : i < n) (hj : j < n) :
    (v.swap i j hi hj).store.toList.Perm v.store.toList := by
  obtain ⟨store, size⟩ := v
  cases store with
  | cells xs => exact (Array.swap_perm _ _).toList
  | copies single x k => exact .refl _

end Run

namespace Quicksort
variable {α : Type} {m : Type → Type} [Monad m]

/-- Runs up to this long are sorted by insertion. -/
def insertionLimit : Nat := 8

/-- Moves the element at `j` down past those that it is less than. -/
@[specialize] def sink {n : Nat} (cmp : α → α → m Ordering) (v : Run α n) (j : Nat)
    (hj : j < n) : m (Run α n) :=
  match j, hj with
  | 0, _ => pure v
  | j + 1, hj => do
    match ← cmp v[j + 1] v[j] with
    | .lt => sink cmp (v.swap (j + 1) j hj (by omega)) j (by omega)
    | _ => pure v

/-- Sinks each of the elements from `i` on. -/
@[specialize] def insertFrom {n : Nat} (cmp : α → α → m Ordering) (i : Nat) (v : Run α n) :
    m (Run α n) :=
  if h : i < n then do
    let v ← sink cmp v i h
    insertFrom cmp (i + 1) v
  else pure v
termination_by n - i

/-- Sorts by insertion. -/
@[inline] def insertionSort {n : Nat} (cmp : α → α → m Ordering) (v : Run α n) :
    m (Run α n) :=
  insertFrom cmp 1 v

/-- Swaps the first, middle and last elements until the median of the three is in the middle. -/
@[specialize] def medianToMiddle {n : Nat} (cmp : α → α → m Ordering) (v : Run α n)
    (h : 0 < n) : m (Run α n) := do
  have hmid := Nat.div_lt_self h (show 1 < 2 by decide)
  let v ← match ← cmp v[n / 2] v[0] with
    | .lt => pure (v.swap (n / 2) 0 hmid h)
    | _ => pure v
  match ← cmp v[n - 1] v[n / 2] with
  | .lt =>
    let v := v.swap (n - 1) (n / 2) (Nat.sub_one_lt_of_lt h) hmid
    match ← cmp v[n / 2] v[0] with
    | .lt => pure (v.swap (n / 2) 0 hmid h)
    | _ => pure v
  | _ => pure v

/-- A run split in three: before `lt` less than the pivot, from `gt` on greater. -/
structure Split (α : Type) (n : Nat) where
  cells : Run α n
  lt : Nat
  gt : Nat
  lt_le_gt : lt ≤ gt
  gt_le : gt ≤ n

/-- Splits a run around the pivot. The elements before `lt` are less than it, those from there up
to `i` equal to it, those from `gt` on greater, and the others are still to be compared. -/
@[specialize] def splitFrom {n : Nat} (cmp : α → α → m Ordering) (pivot : α) (v : Run α n)
    (lt i gt : Nat) (hlt : lt ≤ i) (hi : i ≤ gt) (hgt : gt ≤ n) : m (Split α n) :=
  if h : i < gt then do
    match ← cmp v[i] pivot with
    | .lt =>
      splitFrom cmp pivot (v.swap lt i (by omega) (by omega)) (lt + 1) (i + 1) gt (by omega)
        (by omega) hgt
    | .gt =>
      splitFrom cmp pivot (v.swap i (gt - 1) (by omega) (by omega)) lt i (gt - 1) hlt (by omega)
        (by omega)
    | .eq => splitFrom cmp pivot v lt (i + 1) gt (by omega) (by omega) hgt
  else pure ⟨v, lt, gt, by omega, hgt⟩
termination_by gt - i

/-- Splits a run around the median of its first, middle and last elements. -/
@[specialize] def split {n : Nat} (cmp : α → α → m Ordering) (v : Run α n) (h : 0 < n) :
    m (Split α n) := do
  have := Nat.div_lt_self h (show 1 < 2 by decide)
  let v ← medianToMiddle cmp v h
  splitFrom cmp v[n / 2] v 0 0 n (Nat.le_refl 0) (Nat.zero_le n) (Nat.le_refl n)

end Quicksort

open Quicksort in
/-- Sorts the elements of a leaf. A run none of which is equal to the pivot, so that one part is
the whole run, is left as it is: no comparator by which an element is equal to itself does that. -/
@[specialize] def quicksort {α : Type} {m : Type → Type} [Monad m] (cmp : α → α → m Ordering)
    (s : Store α) : m (Vector α s.size) :=
  if h : s.size ≤ insertionLimit then do
    let v ← insertionSort cmp (Run.ofStore s)
    pure v.toVector
  else do
    let split ← split cmp (Run.ofStore s) (by omega)
    if split.lt = 0 ∧ split.gt = s.size then pure split.cells.toVector
    else if hs : split.lt < s.size ∧ 0 < split.gt then do
      let sorted := split.cells.store
      let left := sorted.slice 0 split.lt
      let middle := (sorted.slice split.lt split.gt).toArray
      let right := sorted.slice split.gt s.size
      have size : left.size + middle.size + right.size = s.size := by
        have := split.lt_le_gt
        have := split.gt_le
        have := split.cells.size_eq
        simp +zetaDelta
        omega
      if left.size < right.size then do
        let left ← quicksort cmp left
        let right ← quicksort cmp right
        pure ((left ++ middle.toVector ++ right).cast size)
      else do
        let right ← quicksort cmp right
        let left ← quicksort cmp left
        pure ((left ++ middle.toVector ++ right).cast size)
    else pure split.cells.toVector
termination_by s.size
decreasing_by
  all_goals
    have := split.lt_le_gt
    have := split.gt_le
    have := split.cells.size_eq
    simp +zetaDelta
    omega

end Bisection
