import Bisection.Proofs.Alone.Selecting
import Mathlib.Data.List.Induction

/-!
# Moving selected elements to the front

The selected indices are visited in increasing order, and the element at each of them is swapped
into the next place from the first on. There are never more places taken than indices visited, so
the place does not overtake the index: what is swapped away from it goes where an element has been
fetched already, and everything behind the index is still where it was. So each index finds its own
element, and those that are not selected are all behind the last place in the end.
-/

namespace Bisection
set_option autoImplicit false

namespace Selection
variable {α : Type}

/-- Where the elements are after the indices of `done` were visited: `next` places are taken. -/
structure Compacting (lo : Nat) (data : Array α) (done : List Nat) (xs : Array α) (next : Nat) :
    Prop where
  /-- The elements of the indices that were visited are in the first places, in their order. -/
  front : xs.toList.take next = done.filterMap fun i => data[i - lo]?
  /-- One place is taken for each index. -/
  count : next = done.length
  /-- The next place is not behind any index that is still to be visited. -/
  behind : ∀ j, lo ≤ j → (∀ i ∈ done, i < j) → lo + next ≤ j
  /-- What is behind all indices that were visited is where it was. -/
  later : ∀ j, lo ≤ j → (∀ i ∈ done, i < j) → xs[j - lo]? = data[j - lo]?
  perm : xs.toList.Perm data.toList

theorem getElem?_swapIfInBounds {xs : Array α} {i j : Nat} (hi : i < xs.size) (hj : j < xs.size)
    (k : Nat) : (xs.swapIfInBounds i j)[k]? =
      if k = i then xs[j]? else if k = j then xs[i]? else xs[k]? := by
  rw [Array.swapIfInBounds_def, dif_pos hi, dif_pos hj, Array.getElem?_swap,
    Array.getElem?_eq_getElem hi, Array.getElem?_eq_getElem hj]
  by_cases at_i : k = i
  · rw [if_pos at_i]
    split
    · next at_j => simp only [at_j, ← at_i]
    · rw [if_pos at_i.symm]
  · rw [if_neg at_i, if_neg (Ne.symm at_i)]
    by_cases at_j : k = j
    · rw [if_pos at_j, if_pos at_j.symm]
    · rw [if_neg at_j, if_neg (Ne.symm at_j)]

namespace Compacting
variable {lo : Nat} {data xs : Array α} {done : List Nat} {next : Nat}

theorem start (lo : Nat) (data : Array α) : Compacting lo data [] data 0 where
  front := List.take_zero
  count := rfl
  behind _ above _ := above
  later _ _ _ := rfl
  perm := .refl _

theorem size_eq (h : Compacting lo data done xs next) : xs.size = data.size := by
  have length := h.perm.length_eq
  rwa [Array.length_toList, Array.length_toList] at length

/-- Visiting one more index. -/
theorem visit (h : Compacting lo data done xs next) {i : Nat} (above : lo ≤ i)
    (below : i < lo + data.size) (first : ∀ j ∈ done, j < i) :
    Compacting lo data (done ++ [i]) (xs.swapIfInBounds next (i - lo)) (next + 1) := by
  have place := h.behind i above first
  have hi : i - lo < xs.size := by
    rw [h.size_eq]
    omega
  have hnext : next < xs.size := Nat.lt_of_le_of_lt (by omega) hi
  have at_place := getElem?_swapIfInBounds hnext hi
  have visited {j : Nat} (all : ∀ k ∈ done ++ [i], k < j) : i < j ∧ ∀ k ∈ done, k < j :=
    ⟨all i (by simp), fun k mem => all k (List.mem_append_left _ mem)⟩
  constructor
  case front =>
    have before : (xs.swapIfInBounds next (i - lo)).toList.take next = xs.toList.take next := by
      refine List.ext_getElem? fun k => ?_
      rw [List.getElem?_take, List.getElem?_take]
      split
      · rw [Array.getElem?_toList, Array.getElem?_toList, at_place, if_neg (by omega),
          if_neg (by omega)]
      · rfl
    have here : (xs.swapIfInBounds next (i - lo)).toList[next]? = data[i - lo]? := by
      rw [Array.getElem?_toList, at_place, if_pos rfl, h.later i above first]
    rw [List.take_add_one, before, here, h.front, List.filterMap_append, List.filterMap_cons,
      List.filterMap_nil]
    cases data[i - lo]? <;> rfl
  case count => rw [h.count, List.length_append, List.length_singleton]
  case behind =>
    intro j _ all
    have := (visited all).1
    omega
  case later =>
    intro j above' all
    have := (visited all).1
    rw [at_place, if_neg (by omega), if_neg (by omega)]
    exact h.later j above' (visited all).2
  case perm =>
    rw [Array.swapIfInBounds_def, dif_pos hnext, dif_pos hi]
    exact (Array.swap_perm hnext hi).toList.trans h.perm

end Compacting

theorem swapForward_append (lo : Nat) (done later : List Nat) (next : Nat) (xs : Array α) :
    swapForward lo (done ++ later) next xs =
      swapForward lo later (swapForward lo done next xs).2 (swapForward lo done next xs).1 := by
  induction done generalizing next xs with
  | nil => rfl
  | cons i done ih => exact ih _ _

/-- Visiting indices in increasing order. -/
theorem compacting {lo : Nat} {data : Array α} {indices : List Nat}
    (increasing : indices.Pairwise (· < ·)) (inside : ∀ i ∈ indices, lo ≤ i ∧ i < lo + data.size) :
    Compacting lo data indices (swapForward lo indices 0 data).1
      (swapForward lo indices 0 data).2 := by
  induction indices using List.reverseRecOn with
  | nil => exact .start lo data
  | append_singleton done i ih =>
    obtain ⟨before, -, first⟩ := List.pairwise_append.mp increasing
    have moment := ih before fun j mem => inside j (List.mem_append_left _ mem)
    obtain ⟨above, below⟩ := inside i (by simp)
    rw [swapForward_append]
    exact moment.visit above below fun j mem => first j mem i List.mem_cons_self

/-- What is kept of some elements are those of the selected indices. -/
theorem compact_eq {s : Selection} {lo : Nat} {data : Array α}
    (increasing : s.toList.Pairwise (· < ·))
    (inside : ∀ i ∈ s.toList, lo ≤ i ∧ i < lo + data.size) :
    s.compact lo data = (s.toList.filterMap fun i => data[i - lo]?).toArray := by
  rw [← (compacting increasing inside).front, compact]
  apply Array.toList_inj.mp
  rw [Array.toList_extract, List.extract_eq_take_drop, List.drop_zero]
  rfl

/-- What an array holds from some index on. -/
theorem getElem?_within (before behind : Array α) {xs : Array α} {k : Nat} (hk : k < xs.size) :
    (before ++ xs ++ behind)[before.size + k]? = xs[k]? := by
  have inside : before.size + k < (before ++ xs).size := by
    rw [Array.size_append]
    exact Nat.add_lt_add_left hk _
  rw [Array.getElem?_append_left inside, Array.getElem?_append_right (Nat.le_add_right _ _),
    Nat.add_sub_cancel_left]

/-- Before an array and behind it everything is as it is around another of that length. -/
theorem getElem?_around (before behind : Array α) {xs ys : Array α} (size : xs.size = ys.size)
    {k : Nat} (outside : k < before.size ∨ before.size + xs.size ≤ k) :
    (before ++ xs ++ behind)[k]? = (before ++ ys ++ behind)[k]? := by
  have ends : (before ++ xs).size = (before ++ ys).size := by
    rw [Array.size_append, Array.size_append, size]
  rcases outside with front | back
  · rw [Array.append_assoc, Array.append_assoc, Array.getElem?_append_left front,
      Array.getElem?_append_left front]
  · rw [← Array.size_append] at back
    rw [Array.getElem?_append_right back, Array.getElem?_append_right (ends ▸ back), ends]

theorem swapIfInBounds_within (before behind : Array α) {xs : Array α} {i j : Nat}
    (hi : i < xs.size) (hj : j < xs.size) :
    (before ++ xs ++ behind).swapIfInBounds (before.size + i) (before.size + j) =
      before ++ xs.swapIfInBounds i j ++ behind := by
  have size : (xs.swapIfInBounds i j).size = xs.size := Array.size_swapIfInBounds
  have inside {k : Nat} (hk : k < xs.size) : before.size + k < (before ++ xs ++ behind).size := by
    rw [Array.size_append, Array.size_append]
    omega
  refine Array.ext_getElem? fun k => ?_
  rw [getElem?_swapIfInBounds (inside hi) (inside hj), getElem?_within before behind hi,
    getElem?_within before behind hj]
  by_cases outside : k < before.size ∨ before.size + xs.size ≤ k
  · rw [if_neg (by omega), if_neg (by omega)]
    exact getElem?_around before behind size.symm outside
  · obtain ⟨k, rfl⟩ := Nat.exists_eq_add_of_le (show before.size ≤ k by omega)
    have hk : k < xs.size := by omega
    rw [getElem?_within before behind hk, getElem?_within before behind (size ▸ hk),
      getElem?_swapIfInBounds hi hj]
    simp only [Nat.add_right_inj]

/-- The swaps are the same in an array that holds the elements from `lo` on. -/
theorem swapForward_within (before behind : Array α) {indices : List Nat} {next : Nat}
    {xs : Array α} (inside : ∀ i ∈ indices, before.size ≤ i ∧ i < before.size + xs.size)
    (room : next + indices.length ≤ xs.size) :
    swapForward 0 indices (before.size + next) (before ++ xs ++ behind) =
      (before ++ (swapForward before.size indices next xs).1 ++ behind,
        before.size + (swapForward before.size indices next xs).2) := by
  induction indices generalizing next xs with
  | nil => rfl
  | cons i indices ih =>
    obtain ⟨above, below⟩ := inside i List.mem_cons_self
    rw [List.length_cons] at room
    have hi : i - before.size < xs.size := by omega
    have swapped := swapIfInBounds_within before behind (show next < xs.size by omega) hi
    rw [Nat.add_sub_cancel' above] at swapped
    have size : (xs.swapIfInBounds next (i - before.size)).size = xs.size :=
      Array.size_swapIfInBounds
    rw [swapForward, swapForward, Nat.sub_zero, swapped, Nat.add_assoc]
    apply ih
    · rw [size]
      exact fun j mem => inside j (List.mem_cons_of_mem i mem)
    · rw [size]
      omega

end Selection

end Bisection
