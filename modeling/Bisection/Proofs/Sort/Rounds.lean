import Bisection.Pieces
import Bisection.Proofs.Sort.Reflexive
import Mathlib.Logic.Function.Iterate

/-!
# The rounds of the sort of a leaf

The loop that sorts a leaf splits its slice in a round, sorts the shorter outer part by a call of
its own, and goes on with the longer one. `Pending` is the loop and all its calls halfway: the
elements as they stand, and the slices that are still to be sorted. For a comparator that finds each
element equal to itself the pivot stays out of both outer parts, so the longer one is shorter than
the slice and the other at most half as long as what is left of it. Then no slice is left after
twice as many rounds as there are elements.
-/

namespace Bisection
set_option autoImplicit false

namespace Quicksort
variable {α : Type}

theorem half_lt {n : Nat} (pos : 0 < n) : n / 2 < n :=
  Nat.div_lt_self pos Nat.one_lt_two

/-- The element around which a run is split: the one that is in the middle once the median of the
first, middle and last elements has been moved there. -/
def pivot (cmp : α → α → Ordering) {n : Nat} (v : Run α n) (pos : 0 < n) : α :=
  let w : Run α n := medianToMiddle (m := Id) cmp v pos
  have inside := half_lt pos
  w[n / 2]

/-- What a round of the loop makes of its slice, and the parts of it that are then to be sorted: one
by a call, and one by the next round. -/
structure Round (α : Type) where
  cells : List α
  parts : Option (Span × Span)

/-- A round of the loop. -/
def round (cmp : α → α → Ordering) (s : Store α) : Round α :=
  if long : insertionLimit < s.size then
    let p := thirds cmp s long
    let left : Span := ⟨0, p.lt⟩
    let right : Span := ⟨p.gt, s.size⟩
    ⟨p.cells.store.toList,
      if p.lt = 0 ∧ p.gt = s.size then none
      else some (if left.size < right.size then (left, right) else (right, left))⟩
  else ⟨(Run.toVector (insertionSort (m := Id) cmp (Run.ofStore s))).toList, none⟩

/-- The slices that are to be sorted after a round of a slice that starts at `lo`. -/
def Round.waiting (round : Round α) (lo : Nat) (slices : List Span) : List Span :=
  match round.parts with
  | none => slices
  | some (call, next) =>
    ⟨lo + call.lo, lo + call.hi⟩ :: ⟨lo + next.lo, lo + next.hi⟩ :: slices

/-- The loop and its calls halfway: all elements, and the slices that are to be sorted. The first is
that of the innermost call, and each call returns to the loop of the slice behind its own. -/
structure Pending (α : Type) where
  cells : List α
  slices : List Span

/-- A round of the innermost call, which returns if its slice is sorted then. -/
def Pending.advance (cmp : α → α → Ordering) : Pending α → Pending α
  | ⟨cells, []⟩ => ⟨cells, []⟩
  | ⟨cells, ⟨lo, hi⟩ :: slices⟩ =>
    let here := round cmp (.cells ((cells.take hi).drop lo).toArray)
    ⟨cells.take lo ++ here.cells ++ cells.drop hi, here.waiting lo slices⟩

/-- The split keeps all elements and puts each where the comparator names it, pivot included. -/
theorem thirds_zones (cmp : α → α → Ordering) (s : Store α) (long : insertionLimit < s.size) :
    let p := thirds cmp s long
    let x := pivot cmp (Run.ofStore s) (Nat.zero_lt_of_lt long)
    p.cells.store.toList.Perm s.toList ∧ x ∈ s.toList ∧ Zones cmp x p.cells p.lt p.gt p.gt := by
  have pos := Nat.zero_lt_of_lt long
  have inside := half_lt pos
  let w : Run α s.size := medianToMiddle (m := Id) cmp (Run.ofStore s) pos
  have kept : w.store.toList.Perm s.toList := medianToMiddle_perm cmp (Run.ofStore s) pos
  obtain ⟨perm, zones⟩ := splitFrom_spec cmp w[s.size / 2] w 0 0 s.size (Nat.le_refl 0)
    (Nat.zero_le _) (Nat.le_refl _) (.start w)
  refine ⟨perm.trans kept, ?_, zones⟩
  rw [← kept.mem_iff]
  exact List.mem_of_getElem? (w.getElem?_toList (s.size / 2) inside)

/-- The sort of a slice with certain elements. -/
abbrev sorted (cmp : α → α → Ordering) (xs : List α) : List α :=
  (quicksort (m := Id) cmp (.cells xs.toArray)).toList

/-- Only the elements of a store count, not how they are held. -/
theorem sorted_toList (cmp : α → α → Ordering) (s : Store α) :
    sorted cmp s.toList = (quicksort (m := Id) cmp s).toList := by
  cases s with
  | cells xs => rfl
  | copies single x n =>
    have lengths := (quicksort_perm cmp (.cells (List.replicate n x).toArray)).length_eq.trans
      (quicksort_perm cmp (.copies single x n)).length_eq.symm
    exact List.ext_getElem lengths fun _ _ _ => single _ _

theorem length_sorted (cmp : α → α → Ordering) (xs : List α) :
    (sorted cmp xs).length = xs.length :=
  (quicksort_perm cmp (.cells xs.toArray)).length_eq

section
variable {cmp : α → α → Ordering}

/-- The three parts of a split. -/
theorem parts_split {n : Nat} (p : Split α n) :
    ∃ xs ys zs : List α, p.cells.store.toList = xs ++ ys ++ zs ∧
      xs.length = p.lt ∧ xs.length + ys.length = p.gt ∧ xs.length + ys.length + zs.length = n ∧
      (p.cells.store.slice 0 p.lt).toList = xs ∧ (p.cells.store.slice p.lt p.gt).toList = ys ∧
      (p.cells.store.slice p.gt n).toList = zs := by
  have parts := p.cells.store.toList_slices p.lt_le_gt
  have size := p.cells.size_eq
  have order := p.lt_le_gt
  have inside := p.gt_le
  rw [size] at parts
  refine ⟨_, _, _, parts.symm, ?_, ?_, ?_, rfl, rfl, rfl⟩
  all_goals
    simp only [Store.length_toList, Store.size_slice, size]
    omega

/-- A round either sorts its slice or cuts it in three parts, and the one in the middle, which is
not empty, is in its place. -/
theorem round_cases (self : ∀ x, cmp x x = .eq) (s : Store α) :
    ((round cmp s).parts = none ∧ (round cmp s).cells = (quicksort (m := Id) cmp s).toList) ∨
    ∃ xs ys zs : List α, (round cmp s).cells = xs ++ ys ++ zs ∧
      xs.length + ys.length + zs.length = s.size ∧ 0 < ys.length ∧
      (quicksort (m := Id) cmp s).toList = sorted cmp xs ++ ys ++ sorted cmp zs ∧
      (round cmp s).parts = some (if xs.length < zs.length
        then (⟨0, xs.length⟩, ⟨xs.length + ys.length, s.size⟩)
        else (⟨xs.length + ys.length, s.size⟩, ⟨0, xs.length⟩)) := by
  unfold round
  split
  · next long =>
    obtain ⟨perm, mem, zones⟩ := thirds_zones cmp s long
    have some := zones.lt_lt_gt (perm.mem_iff.mpr mem) (self _)
    have written := toList_quicksort cmp s (Nat.not_le.mpr long) (Nat.zero_lt_of_lt long)
    dsimp only [thirds] at some written ⊢
    generalize split (m := Id) cmp (Run.ofStore s) (Nat.zero_lt_of_lt long) = p at some written ⊢
    have inside : ¬ ¬ (p.lt < s.size ∧ 0 < p.gt) := not_not_intro
      ⟨Nat.lt_of_lt_of_le some p.gt_le, Nat.zero_lt_of_lt some⟩
    by_cases whole : p.lt = 0 ∧ p.gt = s.size
    · rw [if_pos (.inl whole)] at written
      exact .inl ⟨if_pos whole, written.symm⟩
    · obtain ⟨xs, ys, zs, cells, hlt, hgt, all, hxs, hys, hzs⟩ := parts_split p
      rw [if_neg (not_or.mpr ⟨whole, inside⟩), ← sorted_toList cmp (p.cells.store.slice 0 p.lt),
        ← sorted_toList cmp (p.cells.store.slice p.gt s.size), hxs, hys, hzs] at written
      refine .inr ⟨xs, ys, zs, cells, all, by omega, written, ?_⟩
      have rest : zs.length = s.size - p.gt := by omega
      rw [hgt, hlt, rest]
      exact if_neg whole
  · next short =>
    left
    rw [quicksort, dif_pos (Nat.le_of_not_lt short)]
    exact ⟨rfl, rfl⟩

/-- A round of a slice changes nothing around it. -/
theorem advance_slice (cmp : α → α → Ordering) (xs ys zs : List α) (slices : List Span) :
    Pending.advance cmp ⟨xs ++ ys ++ zs, ⟨xs.length, xs.length + ys.length⟩ :: slices⟩ =
      ⟨xs ++ (round cmp (.cells ys.toArray)).cells ++ zs,
        (round cmp (.cells ys.toArray)).waiting xs.length slices⟩ := by
  have before : (xs ++ ys ++ zs).take xs.length = xs := by
    rw [List.append_assoc, List.take_left]
  have here : ((xs ++ ys ++ zs).take (xs.length + ys.length)).drop xs.length = ys := by
    rw [List.take_left' List.length_append, List.drop_left]
  have behind : (xs ++ ys ++ zs).drop (xs.length + ys.length) = zs :=
    List.drop_left' List.length_append
  rw [Pending.advance, before, here, behind]

/-- By a comparator that finds each element equal to itself, a slice is sorted after so many rounds,
and nothing around it is changed. -/
theorem exists_advance (self : ∀ x, cmp x x = .eq) (ys xs zs : List α) (slices : List Span) :
    ∃ rounds ≤ 2 * ys.length + 1, (Pending.advance cmp)^[rounds]
        ⟨xs ++ ys ++ zs, ⟨xs.length, xs.length + ys.length⟩ :: slices⟩ =
      ⟨xs ++ sorted cmp ys ++ zs, slices⟩ := by
  induction size : ys.length using Nat.strongRecOn generalizing ys xs zs slices with
  | ind n ih =>
    subst size
    rcases round_cases self (.cells ys.toArray) with ⟨last, done⟩ |
      ⟨left, middle, right, cells, lengths, some, done, parts⟩
    · refine ⟨1, by omega, ?_⟩
      rw [Function.iterate_one, advance_slice, done, Round.waiting, last]
    · have all : left.length + middle.length + right.length = ys.length := lengths
      have sortLeft (right : List α) (slices : List Span) :
          ∃ rounds ≤ 2 * left.length + 1, (Pending.advance cmp)^[rounds]
            ⟨xs ++ (left ++ middle ++ right) ++ zs,
              ⟨xs.length, xs.length + left.length⟩ :: slices⟩ =
            ⟨xs ++ (sorted cmp left ++ middle ++ right) ++ zs, slices⟩ := by
        simpa only [List.append_assoc] using
          ih left.length (by omega) left xs (middle ++ right ++ zs) slices rfl
      have sortRight (left' : List α) (same : left'.length = left.length) (slices : List Span) :
          ∃ rounds ≤ 2 * right.length + 1, (Pending.advance cmp)^[rounds]
            ⟨xs ++ (left' ++ middle ++ right) ++ zs,
              ⟨xs.length + (left.length + middle.length), xs.length + ys.length⟩ :: slices⟩ =
            ⟨xs ++ (left' ++ middle ++ sorted cmp right) ++ zs, slices⟩ := by
        have start :
            (xs ++ left' ++ middle).length = xs.length + (left.length + middle.length) := by
          rw [List.length_append, List.length_append, same, Nat.add_assoc]
        have run := ih right.length (by omega) right (xs ++ left' ++ middle) zs slices rfl
        rw [start, Nat.add_assoc, all] at run
        simpa only [List.append_assoc] using run
      have result : sorted cmp ys = sorted cmp left ++ middle ++ sorted cmp right := done
      have first := advance_slice cmp xs ys zs slices
      rw [cells, Round.waiting, parts] at first
      rw [result]
      by_cases shorter : left.length < right.length
      · rw [if_pos shorter] at first
        obtain ⟨k, few, run⟩ := sortLeft right
          (⟨xs.length + (left.length + middle.length), xs.length + ys.length⟩ :: slices)
        obtain ⟨k', few', run'⟩ := sortRight (sorted cmp left) (length_sorted cmp left) slices
        refine ⟨k' + (k + 1), by omega, ?_⟩
        rw [Function.iterate_add_apply, Function.iterate_succ_apply, first]
        exact (congrArg _ run).trans run'
      · rw [if_neg shorter] at first
        obtain ⟨k, few, run⟩ := sortRight left rfl (⟨xs.length, xs.length + left.length⟩ :: slices)
        obtain ⟨k', few', run'⟩ := sortLeft (sorted cmp right) slices
        refine ⟨k' + (k + 1), by omega, ?_⟩
        rw [Function.iterate_add_apply, Function.iterate_succ_apply, first]
        exact (congrArg _ run).trans run'

/-- The part that the loop goes on with is shorter than its slice, and the part that it calls itself
for is no longer than the other. Their sum leaves out the pivot. -/
theorem size_parts (self : ∀ x, cmp x x = .eq) {s : Store α} {call next : Span}
    (parts : (round cmp s).parts = some (call, next)) :
    next.size < s.size ∧ call.size ≤ (s.size - 1) / 2 := by
  rcases round_cases self s with ⟨last, -⟩ | ⟨xs, ys, zs, -, all, some, -, parts'⟩
  · rw [last] at parts
    cases parts
  · rw [parts] at parts'
    split at parts'
    all_goals
      cases parts'
      simp only [Span.size]
      omega

end

end Quicksort

open Quicksort in
/-- Whatever the comparator answers, a split keeps the elements of a slice, and puts those that are
less than the pivot first, then those equal to it, and those that are greater last. If each element
is equal to itself the middle part is not empty. Then each further round of the loop is for a
shorter slice, each call for less than half of the slice, and after at most so many rounds no slice
is left and the elements are as `quicksort` has them. -/
theorem quicksort_rounds {α : Type} (cmp : α → α → Ordering) (s : Store α) :
    (∀ long : 8 < s.size,
      let p := thirds cmp s long
      let x := pivot cmp (Run.ofStore s) (Nat.zero_lt_of_lt long)
      p.cells.store.toList.Perm s.toList ∧ p.lt ≤ p.gt ∧ p.gt ≤ s.size ∧
        Zones cmp x p.cells p.lt p.gt p.gt) ∧
    ((∀ x, cmp x x = .eq) →
      (∀ long : 8 < s.size, (thirds cmp s long).lt < (thirds cmp s long).gt) ∧
      (∀ call next, (round cmp s).parts = some (call, next) →
        next.size < s.size ∧ call.size ≤ (s.size - 1) / 2) ∧
      ∃ rounds ≤ 2 * s.size + 1, (Pending.advance cmp)^[rounds] ⟨s.toList, [⟨0, s.size⟩]⟩ =
        ⟨(quicksort (m := Id) cmp s).toList, []⟩) := by
  refine ⟨fun long => ?_, fun self => ⟨fun long => ?_, fun call next => size_parts self, ?_⟩⟩
  · obtain ⟨perm, -, zones⟩ := thirds_zones cmp s long
    exact ⟨perm, (thirds cmp s long).lt_le_gt, (thirds cmp s long).gt_le, zones⟩
  · obtain ⟨perm, mem, zones⟩ := thirds_zones cmp s long
    exact zones.lt_lt_gt (perm.mem_iff.mpr mem) (self _)
  · obtain ⟨rounds, few, run⟩ := exists_advance self s.toList [] [] []
    rw [List.nil_append, List.append_nil, List.nil_append, List.append_nil, List.length_nil,
      Nat.zero_add, Store.length_toList] at run
    rw [Store.length_toList] at few
    rw [sorted_toList] at run
    exact ⟨rounds, few, run⟩

open Quicksort in
/-- Modulo three every number is less than the next, all the way around. -/
theorem quicksort_rounds_cycle :
    let cmp (x y : Nat) : Ordering :=
      if x % 3 = y % 3 then .eq else if (x + 1) % 3 = y % 3 then .lt else .gt
    let s : Store Nat := .cells #[0, 1, 2, 3, 4, 5, 6, 7, 8, 9]
    ∃ long : 8 < s.size,
      let p := thirds cmp s long
      let x := pivot cmp (Run.ofStore s) (Nat.zero_lt_of_lt long)
      p.cells.store.toList.Perm s.toList ∧ Zones cmp x p.cells p.lt p.gt p.gt ∧
      (∀ x, cmp x x = .eq) ∧ p.lt < p.gt ∧
      (∀ call next, (round cmp s).parts = some (call, next) →
        next.size < s.size ∧ call.size ≤ (s.size - 1) / 2) ∧
      ∃ rounds ≤ 2 * s.size + 1, (Pending.advance cmp)^[rounds] ⟨s.toList, [⟨0, s.size⟩]⟩ =
        ⟨(quicksort (m := Id) cmp s).toList, []⟩ := by
  intro cmp s
  have long : 8 < s.size := by decide
  have self : ∀ x, cmp x x = .eq := fun x => if_pos rfl
  obtain ⟨splits, ends⟩ := quicksort_rounds cmp s
  obtain ⟨perm, -, -, zones⟩ := splits long
  obtain ⟨some, shorter, run⟩ := ends self
  exact ⟨long, perm, zones, self, some long, shorter, run⟩

end Bisection
