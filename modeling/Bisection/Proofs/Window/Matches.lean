import Bisection.Proofs.Search.Sharing
import Bisection.Proofs.Sort.Quarters
import Bisection.Proofs.Window.Values
import Mathlib.Data.List.Find

/-!
# What is found, and in which order

A single worker finds the first match of a window wherever the window is cut. A sort by a comparator
that takes only identical elements for equal has one outcome, as there is only one order then.
-/

namespace Bisection
set_option autoImplicit false

/-! ## Searches by a single worker -/

section
variable {t : Threshold} {accepts : Nat → Bool} {lo hi : Nat}

theorem firstMatch_eq_find? (accepts : Nat → Bool) (lo hi : Nat) :
    firstMatch (m := Id) accepts lo hi = (List.range' lo (hi - lo)).find? accepts := by
  induction len : hi - lo generalizing lo with
  | zero =>
    rw [firstMatch_id, if_neg (by omega)]
    rfl
  | succ len ih =>
    rw [firstMatch_id, if_pos (by omega), List.range'_succ, List.find?_cons]
    cases accepts lo with
    | true => rfl
    | false => exact ih (lo + 1) (by omega)

/-- The cell with the first match, if there is one. -/
def MatchCell.ofFirst (found : Option Nat) : MatchCell := found.elim .empty fun i => ⟨.ofNat i⟩

theorem MatchCell.get_ofFirst {n : Nat} (small : lo + n ≤ maxSize) :
    (ofFirst ((List.range' lo n).find? accepts)).get = (List.range' lo n).find? accepts := by
  cases found : (List.range' lo n).find? accepts with
  | none => rfl
  | some i =>
    have inside := List.mem_range'_1.mp (List.mem_of_find?_eq_some found)
    exact get_ofNat (by omega)

/-- A worker that goes from left to right sets the cell to the first match. -/
theorem searchRange_eq_ofFirst (t : Threshold) (accepts : Nat → Bool) {n : Nat}
    (small : lo + n ≤ maxSize) :
    (searchRange (m := Id) t (searchLeaf accepts) lo (lo + n) .empty).1 =
      .ofFirst ((List.range' lo n).find? accepts) := by
  induction n using Nat.strongRecOn generalizing lo with
  | ind n ih =>
    have size : lo + n - lo = n := Nat.add_sub_cancel_left lo n
    rw [searchRange_id, MatchCell.isSet_empty, if_neg Bool.false_ne_true, size]
    by_cases short : n ≤ t.val
    · rw [if_pos short, searchLeaf_id, firstMatch_eq_find?, size]
      rfl
    · have two := Threshold.two_le short
      have whole : lo + n / 2 + (n - n / 2) = lo + n := by omega
      have left := @ih (n / 2) (by omega) lo (by omega)
      have right := @ih (n - n / 2) (by omega) (lo + n / 2) (by omega)
      rw [whole] at right
      have cut : (List.range' lo n).find? accepts =
          ((List.range' lo (n / 2)).find? accepts).or
            ((List.range' (lo + n / 2) (n - n / 2)).find? accepts) := by
        rw [range'_halves lo n, List.find?_append]
      rw [if_neg short, cut]
      dsimp only
      rw [left]
      cases found : (List.range' lo (n / 2)).find? accepts with
      | none => exact right
      | some i =>
        have small' : lo + n / 2 ≤ maxSize := by omega
        have got : (MatchCell.ofFirst ((List.range' lo (n / 2)).find? accepts)).get = _ :=
          MatchCell.get_ofFirst small'
        rw [found] at got
        have set : (MatchCell.ofFirst (some i)).isSet := by rw [MatchCell.isSet_eq, got]; rfl
        rw [searchRange_id, if_pos set]
        rfl

/-- A single worker finds the first match. -/
theorem findAny_eq_find? (t : Threshold) (accepts : Nat → Bool) {n : Nat}
    (small : lo + n ≤ maxSize) :
    findAny (m := Id) t accepts lo (lo + n) = (List.range' lo n).find? accepts := by
  rw [findAny_id, searchRange_eq_ofFirst t accepts small, MatchCell.get_ofFirst small]

/-- The first match further on. -/
theorem find?_moved {d n : Nat} {accepts' : Nat → Bool}
    (alike : ∀ i, lo ≤ i → i < lo + n → accepts (d + i) = accepts' i) :
    (List.range' (d + lo) n).find? accepts = ((List.range' lo n).find? accepts').map (d + ·) := by
  rw [← List.map_add_range', List.find?_map]
  refine congrArg _ (List.find?_congr fun i mem => ?_)
  obtain ⟨above, below⟩ := List.mem_range'_1.mp mem
  exact alike i above below

end

/-! ## Questions about a window -/

namespace Window

section
variable {α : Type} (w : Window α)

/-- The lowest index of an element that satisfies a predicate. -/
def lowest (g : α → Bool) : Option Nat :=
  (List.range' w.lo w.size).find? fun i => (w.get? i).any g

/-- Whether the element at an index is less than the one before it. -/
def descends (g : α → α → Ordering) (i : Nat) : Bool :=
  match w.get? (i - 1), w.get? i with
  | some x, some y => g x y == .gt
  | _, _ => false

/-- Whether no element is less than the one before it. -/
def ascending (g : α → α → Ordering) : Bool :=
  w.size < 2 || ((List.range' (w.lo + 1) (w.size - 1)).find? (w.descends g)).isNone

theorem lowest_alone (g : α → Bool) : w.lowest g = (w.alone.whole.lowest g).map (w.lo + ·) := by
  rw [lowest, lowest, size_alone]
  refine find?_moved fun i (_ : 0 ≤ i) below => ?_
  rw [w.get?_alone (by simpa using below)]

theorem ascending_alone (g : α → α → Ordering) : w.ascending g = w.alone.whole.ascending g := by
  have moved : (List.range' (w.lo + 1) (w.size - 1)).find? (w.descends g) =
      ((List.range' (0 + 1) (w.size - 1)).find? (w.alone.whole.descends g)).map (w.lo + ·) := by
    rw [Nat.zero_add]
    refine find?_moved fun i above below => ?_
    rw [descends, descends, Nat.add_sub_assoc above, w.get?_alone (by omega),
      w.get?_alone (by omega)]
  rw [ascending, ascending, size_alone, moved, Option.isNone_map]
  rfl

/-- Elements that are alike are in order. -/
theorem ascending_of_uniform? [Ord α] {x : α} (uniform : w.part.uniform? = some x) :
    w.ascending compare = true := by
  obtain ⟨elems, -, self⟩ := w.upTo_of_uniform? uniform
  have alike {i : Nat} {y : α} (above : w.lo ≤ i) (below : i < w.hi) (here : w.get? i = some y) :
      y = x := by
    rw [← w.getElem?_upTo above below, elems] at here
    exact List.eq_of_mem_replicate (List.mem_of_getElem? here)
  have none : (List.range' (w.lo + 1) (w.size - 1)).find? (w.descends compare) = none := by
    refine List.find?_eq_none.mpr fun i mem descent => ?_
    obtain ⟨above, below⟩ := List.mem_range'_1.mp mem
    have size := w.lo_add_size
    rw [descends] at descent
    split at descent
    · next before here =>
      rw [alike (by omega) (by omega) before, alike (by omega) (by omega) here, self] at descent
      cases descent
    · cases descent
  rw [ascending, none, Option.isNone_none, Bool.or_true]

theorem anyIndex_id (fits : w.hi ≤ maxSize) (g : α → Bool) :
    w.anyIndex (m := Id) g = w.lowest g := by
  have search : findAny (m := Id) (w.array.leafThreshold w.size) (fun i => (w.get? i).any g) w.lo
      (w.lo + w.size) = w.lowest g := findAny_eq_find? _ _ (by rwa [w.lo_add_size])
  rw [w.lo_add_size] at search
  rw [anyIndex]
  refine Eq.trans ?_ search
  show findAny (m := Id) _ (w.holdsAt g) _ _ = _
  rw [holdsAt_id]
  rfl

theorem isSortedBy_id (fits : w.hi ≤ maxSize) (g : α → α → Ordering) :
    w.isSortedBy (m := Id) g = w.ascending g := by
  rw [isSortedBy, ascending]
  by_cases few : w.size < 2
  · rw [if_pos few, decide_eq_true few]
    rfl
  · have hi : w.lo + 1 + (w.size - 1) = w.hi := by
      have := w.lo_add_size
      omega
    have search := findAny_eq_find? (w.array.leafThreshold (w.size - 1)) (w.descends g)
      (n := w.size - 1) (hi.symm ▸ fits)
    rw [hi] at search
    rw [if_neg few, decide_eq_false few, ← search]
    refine congrArg Option.isNone (congrArg (findAny (m := Id) _ · _ _) (funext fun i => ?_))
    rw [descends]
    cases w.get? (i - 1) <;> cases w.get? i <;> rfl

end

variable {ε α : Type} {m : Type → Type} [Monad m] [LawfulMonad m] [Fork ε m] [Reports m]
  {w : Window α} {T : Tracking w.lo m Id} (fits : w.hi ≤ maxSize)
include fits

theorem fits_alone : w.alone.whole.hi ≤ maxSize := by
  show w.alone.whole.size ≤ maxSize
  rw [size_alone]
  exact Nat.le_trans (Nat.sub_le _ _) fits

theorem same_anyIndex {f : α → m Bool} {g : α → Bool} (same : ∀ x, T.Same (f x) (g x)) :
    T.Same (w.anyIndex f) (w.lowest g) := by
  have tracks : T.Rel (fun i j => i = j.map (w.lo + ·)) (w.anyIndex f)
    (w.alone.whole.anyIndex (m := Id) g) := tracks_anyIndex fits same
  rw [anyIndex_id _ (fits_alone fits)] at tracks
  rw [lowest_alone]
  exact same_of_rel tracks _ fun _ _ eq => eq

theorem same_any {f : α → m Bool} {g : α → Bool} (same : ∀ x, T.Same (f x) (g x)) :
    T.Same (w.any f) (w.lowest g).isSome :=
  (same_anyIndex fits same).map Option.isSome

theorem same_all {f : α → m Bool} {g : α → Bool} (same : ∀ x, T.Same (f x) (g x)) :
    T.Same (w.all f) (w.lowest fun x => !g x).isNone :=
  (same_anyIndex fits fun x => (same x).map not).map Option.isNone

theorem same_isSortedBy {f : α → α → m Ordering} {g : α → α → Ordering}
    (same : ∀ x y, T.Same (f x y) (g x y)) : T.Same (w.isSortedBy f) (w.ascending g) := by
  have tracks : T.Same (w.isSortedBy f) (w.alone.whole.isSortedBy (m := Id) g) :=
    tracks_isSortedBy fits same
  rwa [isSortedBy_id _ (fits_alone fits), ← ascending_alone] at tracks

theorem same_isSorted [Ord α] : T.Same w.isSorted (w.ascending compare) := by
  rw [isSorted]
  cases uniform : w.part.uniform? with
  | some x =>
    rw [w.ascending_of_uniform? uniform]
    dsimp only
    split
    · exact (same_begin T w _ _).bind_same fun _ => T.pure rfl
    · exact T.pure rfl
  | none => exact same_isSortedBy fits fun _ _ => T.pure rfl

end Window

/-! ## Sorts -/

section
variable {α : Type} {cmp : α → α → Ordering} [Std.TransCmp cmp]

/-- Elements have one order by a comparator that finds only identical ones equal. -/
theorem Sorts.unique {sorted sorted' given : List α} (sorts : Sorts cmp sorted given)
    (sorts' : Sorts cmp sorted' given) (strict : ∀ x y, cmp x y = .eq → x = y) :
    sorted = sorted' := by
  refine List.Perm.eq_of_pairwise (fun x y _ _ le ge => strict x y ?_) sorts.inOrder sorts'.inOrder
    (sorts.perm.trans sorts'.perm.symm)
  exact Std.OrientedCmp.isLE_antisymm le ge

theorem sortBy_id (t : Threshold) (strict : ∀ x y, cmp x y = .eq → x = y) (s : Store α) :
    sortBy (m := Id) t cmp s = (s.toList.mergeSort fun x y => (cmp x y).isLE).toArray := by
  have sorts : Sorts cmp (Array.toList (sortBy (m := Id) t cmp s)) s.toList := sorts_sortBy t s
  exact Array.toList_inj.mp (sorts.unique (sorts_mergeSort s.toList) strict)

end

namespace Window
variable {ε α : Type} {m : Type → Type} [Monad m] [LawfulMonad m] [Fork ε m] [Reports m]
  {w : Window α} {T : Tracking w.lo m Id}

theorem sortBy_eq_refill (w : Window α) (cmp : α → α → Ordering) : w.sortBy (m := Id) cmp =
    w.refill (Bisection.sortBy (m := Id) (w.array.leafThreshold w.size) cmp w.part) := rfl

/-- A sort comes to the same whoever carries it out. -/
theorem same_sortBy_id {f : α → α → m Ordering} {g : α → α → Ordering}
    (same : ∀ x y, T.Same (f x y) (g x y)) : T.Same (w.sortBy f) (w.sortBy (m := Id) g) := by
  have tracks : T.Rel w.Left (w.sortBy f) (w.alone.whole.sortBy (m := Id) g) :=
    tracks_sortBy same
  rw [sortBy_eq_refill]
  refine same_of_left tracks ?_
  rw [sortBy_eq_refill, size_alone, part_alone]
  rfl

theorem same_sortBy {f : α → α → m Ordering} {g : α → α → Ordering} [Std.TransCmp g]
    (strict : ∀ x y, g x y = .eq → x = y) (same : ∀ x y, T.Same (f x y) (g x y)) :
    T.Same (w.sortBy f)
      (w.refill ((w.upTo w.hi).mergeSort fun x y => (g x y).isLE).toArray) := by
  have sorted := sortBy_id (w.array.leafThreshold w.size) strict w.part
  rw [toList_part] at sorted
  rw [← sorted, ← sortBy_eq_refill]
  exact same_sortBy_id same

/-- A sort in the natural order is one by its comparator, also where it leaves everything as it
is. -/
theorem same_sort [Ord α] [Std.TransOrd α] (strict : ∀ x y : α, compare x y = .eq → x = y) :
    T.Same w.sort
      (w.refill ((w.upTo w.hi).mergeSort fun x y => (compare x y).isLE).toArray) := by
  rw [sort]
  cases uniform : w.part.uniform? with
  | some x =>
    obtain ⟨elems, -⟩ := w.upTo_of_uniform? uniform
    have sorted : (w.upTo w.hi).mergeSort (fun x y => (compare x y).isLE) = w.upTo w.hi := by
      rw [elems]
      exact List.perm_replicate.mp (List.mergeSort_perm _ _)
    have whole : (w.upTo w.hi).toArray = w.elems := by
      rw [← w.toList_part, ← Store.toList_toArray]
      rfl
    rw [sorted, whole, refill_elems]
    exact (same_begin T w _ _).bind_same fun _ => T.pure rfl
  | none => exact same_sortBy strict fun _ _ => T.pure rfl

end Window

end Bisection
