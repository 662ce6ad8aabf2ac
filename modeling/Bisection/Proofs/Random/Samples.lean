import Bisection.Random.Sample
import Mathlib.Algebra.GroupWithZero.Nat
import Mathlib.Data.List.Nodup

/-!
# Samples are different indices

A sample of `amount` indices below `n` has that many, all different and all below `n`. Drawn one by
one, it is such a sample at each step, of a range that ends with the last bound. Drawn by a shuffle,
it is the front of a permutation of the range. The one needs that the numbers drawn from a range lie
in it; the other needs nothing of them.
-/

namespace Bisection.Random
set_option autoImplicit false

/-- Different indices below `n`, as many as `amount`. -/
structure IsSample (n amount : Nat) (xs : Array Nat) : Prop where
  size : xs.size = amount
  nodup : xs.toList.Nodup
  lt : ∀ i ∈ xs.toList, i < n

/-- Samples have as many different indices as asked for, if the range has so many. -/
def Source.Samples (source : Source) : Prop :=
  ∀ n amount r, amount ≤ n → IsSample n amount (source.sample n amount r)

namespace Stream
variable {width n : Nat} {draw : Stream → Nat × Stream}

/-- What is drawn from a range lies in it. A second number is drawn only if the high bits of the
first product are not the largest that they can be, so that there is room for the carry. -/
theorem below_lt (drawn : ∀ r, (draw r).1 < 2 ^ width) (pos : 0 < n) (r : Stream) :
    (below width draw n r).1 < n := by
  have product : (draw r).1 * n + n ≤ 2 ^ width * n := by
    rw [← Nat.succ_mul]
    exact Nat.mul_le_mul_right n (drawn r)
  have parts := Nat.div_add_mod ((draw r).1 * n) (2 ^ width)
  have high : (draw r).1 * n / 2 ^ width < n := Nat.div_lt_of_lt_mul (by omega)
  simp only [below, Nat.one_shiftLeft, Nat.shiftRight_eq_div_pow]
  generalize (draw r).1 * n / 2 ^ width = h at parts high
  split
  · next carry =>
    have room : h + 1 < n := by
      by_contra full
      obtain rfl : n = h + 1 := by omega
      have top : 2 ^ width * (h + 1) = 2 ^ width * h + 2 ^ width := Nat.mul_succ _ _
      omega
    dsimp only
    split
    · exact room
    · exact high
  · exact high

theorem below32_lt (pos : 0 < n) (r : Stream) : (r.below32 n).1 < n :=
  below_lt (fun r => r.next.1.toNat_lt) pos r

end Stream

/-! ## One by one -/

/-- A sample that grows by an index `t`. If `t` was drawn before, it gives way to `j`. -/
def grown (drawn : Array Nat) (t j : Nat) : Array Nat :=
  (match drawn.idxOf? t with
    | some k => drawn.setIfInBounds k j
    | none => drawn).push t

theorem sampleGrowing_cons (j : Nat) (bounds : List Nat) (drawn : Array Nat) (r : Stream) :
    sampleGrowing (j :: bounds) drawn r =
      sampleGrowing bounds (grown drawn (r.below32 (j + 1)).1 j) (r.below32 (j + 1)).2 := rfl

section
variable {drawn : Array Nat} {j k t : Nat}

/-- A sample grows by an index that it does not have. -/
theorem grown_perm (below : ∀ i ∈ drawn.toList, i < j) (le : t ≤ j) :
    ∃ x ≤ j, x ∉ drawn.toList ∧ (grown drawn t j).toList.Perm (x :: drawn.toList) := by
  have append (xs : Array Nat) : (xs.push t).toList.Perm (t :: xs.toList) := by
    rw [Array.toList_push]
    exact List.perm_append_singleton t xs.toList
  have search : drawn.idxOf? t = drawn.toList.idxOf? t := by
    rw [← List.idxOf?_toArray, Array.toArray_toList]
  rw [grown, search]
  cases found : drawn.toList.idxOf? t with
  | none => exact ⟨t, le, List.idxOf?_eq_none_iff.mp found, append drawn⟩
  | some k =>
    obtain ⟨lt, rfl, -⟩ := List.idxOf?_eq_some_iff.mp found
    refine ⟨j, Nat.le_refl j, fun mem => Nat.lt_irrefl j (below j mem), (append _).trans ?_⟩
    rw [Array.toList_setIfInBounds, List.set_eq_take_append_cons_drop, if_pos lt]
    have split := List.take_append_drop k drawn.toList
    rw [← List.getElem_cons_drop lt] at split
    conv => rhs; rw [← split]
    have first : (drawn.toList.take k ++ j :: drawn.toList.drop (k + 1)).Perm
        (j :: (drawn.toList.take k ++ drawn.toList.drop (k + 1))) := List.perm_middle
    exact (first.cons _).trans ((List.Perm.swap _ _ _).trans (List.perm_middle.symm.cons j))

theorem IsSample.grown (sample : IsSample j k drawn) (le : t ≤ j) :
    IsSample (j + 1) (k + 1) (grown drawn t j) := by
  obtain ⟨x, small, fresh, perm⟩ := grown_perm sample.lt le
  constructor
  case size =>
    have length := perm.length_eq
    rwa [Array.length_toList, List.length_cons, Array.length_toList, sample.size] at length
  case nodup => exact perm.nodup_iff.mpr (List.nodup_cons.mpr ⟨fresh, sample.nodup⟩)
  case lt =>
    intro i mem
    rcases List.mem_cons.mp (perm.mem_iff.mp mem) with rfl | mem
    · exact Nat.lt_succ_of_le small
    · exact Nat.lt_succ_of_lt (sample.lt i mem)

/-- What is drawn so far is a sample of the range before the next bound. -/
theorem IsSample.sampleGrowing (sample : IsSample j k drawn) (amount : Nat) (r : Stream) :
    IsSample (j + amount) (k + amount) (sampleGrowing (List.range' j amount) drawn r) := by
  induction amount generalizing j k drawn r with
  | zero => exact sample
  | succ amount ih =>
    rw [List.range'_succ, sampleGrowing_cons, Nat.add_comm amount, ← Nat.add_assoc,
      ← Nat.add_assoc]
    exact ih (sample.grown (Nat.le_of_lt_succ (r.below32_lt (Nat.succ_pos j)))) _

end

/-! ## By a shuffle -/

theorem swapIfInBounds_perm (xs : Array Nat) (i j : Nat) : (xs.swapIfInBounds i j).Perm xs := by
  rw [Array.swapIfInBounds_def]
  split
  · split
    · exact Array.swap_perm _ _
    · exact .refl xs
  · exact .refl xs

theorem shuffleFront_perm (fronts : List Nat) (indices : Array Nat) (r : Stream) :
    (shuffleFront fronts indices r).Perm indices := by
  induction fronts generalizing indices r with
  | nil => exact .refl indices
  | cons i fronts ih => exact (ih _ _).trans (swapIfInBounds_perm indices i _)

theorem isSample_extract {n amount : Nat} {indices : Array Nat} (perm : indices.Perm (.range n))
    (le : amount ≤ n) : IsSample n amount (indices.extract 0 amount) := by
  have all : indices.toList.Perm (List.range n) := by
    rw [← Array.toList_range]
    exact perm.toList
  have front : (indices.extract 0 amount).toList = indices.toList.take amount := by
    rw [Array.toList_extract, List.extract_eq_take_drop, List.drop_zero, Nat.sub_zero]
  constructor
  case size =>
    have length := all.length_eq
    rw [List.length_range, Array.length_toList] at length
    rw [Array.size_extract, length, Nat.min_eq_left le, Nat.sub_zero]
  case nodup =>
    rw [front]
    exact (all.nodup_iff.mpr List.nodup_range).sublist (List.take_sublist _ _)
  case lt =>
    intro i mem
    rw [front] at mem
    exact List.mem_range.mp (all.mem_iff.mp (List.mem_of_mem_take mem))

/-- However a sample is drawn, and from whatever stream, its indices are different, lie below `n`,
and are as many as asked for. -/
theorem isSample_sample {n amount : Nat} (le : amount ≤ n) (r : Stream) :
    IsSample n amount (sample n amount r) := by
  rw [sample]
  split
  · have start : IsSample (n - amount) 0 (Array.emptyWithCapacity amount) :=
      ⟨rfl, List.nodup_nil, List.forall_mem_nil _⟩
    have drawn := start.sampleGrowing amount r
    rwa [Nat.sub_add_cancel le, Nat.zero_add] at drawn
  · exact isSample_extract (shuffleFront_perm _ _ r) le

theorem samples_stream : Source.stream.Samples := fun _ _ r le => isSample_sample le r

end Bisection.Random
