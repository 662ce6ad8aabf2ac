import Bisection.Proofs.Sort.Quarters

/-!
# Sorting by a comparator that need not be an order

All that is asked of the comparator here is that an element is equal to itself. Then the pivot of a
split is in the middle zone, so both outer parts are shorter than the run and the loop that sorts a
leaf ends. A merge takes one element for each place of its destination, and there is one left for
each, wherever the right run is cut. So nothing is lost and nothing is taken twice, though the
elements need not be in any order then.
-/

namespace Bisection
set_option autoImplicit false

variable {α : Type}

/-! ## Leaves -/

namespace Quicksort

/-- The first split of a leaf that is too long for insertion. -/
abbrev thirds (cmp : α → α → Ordering) (s : Store α) (long : insertionLimit < s.size) :
    Split α s.size :=
  split (m := Id) cmp (Run.ofStore s) (Nat.zero_lt_of_lt long)

/-- What the loop that sorts a leaf ends with, if it ends. It goes on with an outer part whatever
its length is, so there are comparators and leaves for which it ends with nothing. -/
inductive Ends (cmp : α → α → Ordering) : Store α → List α → Prop
  | insertion {s : Store α} (short : s.size ≤ insertionLimit) :
    Ends cmp s (Run.toVector (insertionSort (m := Id) cmp (Run.ofStore s))).toList
  | level {s : Store α} {p : Split α s.size} (long : insertionLimit < s.size)
    (first : thirds cmp s long = p) (whole : p.lt = 0 ∧ p.gt = s.size) :
    Ends cmp s p.cells.store.toList
  | parts {s : Store α} {p : Split α s.size} {left right : List α} (long : insertionLimit < s.size)
    (first : thirds cmp s long = p) (cut : ¬ (p.lt = 0 ∧ p.gt = s.size))
    (hleft : Ends cmp (p.cells.store.slice 0 p.lt) left)
    (hright : Ends cmp (p.cells.store.slice p.gt s.size) right) :
    Ends cmp s (left ++ (p.cells.store.slice p.lt p.gt).toList ++ right)

section
variable {cmp : α → α → Ordering}

theorem thirds_spec (cmp : α → α → Ordering) (s : Store α) (long : insertionLimit < s.size) :
    let p := thirds cmp s long
    p.cells.store.toList.Perm s.toList ∧
      ∃ pivot ∈ s.toList, Zones cmp pivot p.cells p.lt p.gt p.gt :=
  split_spec cmp (Run.ofStore s) (Nat.zero_lt_of_lt long)

/-- By a comparator for which an element is equal to itself, the sort of every leaf ends, with what
`quicksort` gives. -/
theorem ends_quicksort (self : ∀ x, cmp x x = .eq) (s : Store α) :
    Ends cmp s (quicksort (m := Id) cmp s).toList := by
  induction s using quicksort.induct with
  | case1 s short =>
    rw [quicksort, dif_pos short]
    exact .insertion short
  | case2 s short left right =>
    have long : insertionLimit < s.size := Nat.lt_of_not_le short
    let p : Split α s.size := thirds cmp s long
    obtain ⟨perm, pivot, mem, zones⟩ := thirds_spec cmp s long
    -- The pivot is in the middle zone, so neither outer part is the whole leaf.
    have some : p.lt < p.gt := zones.lt_lt_gt (perm.mem_iff.mpr mem) (self pivot)
    have inside : p.lt < s.size ∧ 0 < p.gt :=
      ⟨Nat.lt_of_lt_of_le some p.gt_le, Nat.zero_lt_of_lt some⟩
    rw [toList_quicksort cmp s short (Nat.zero_lt_of_lt long)]
    split
    · next whole => exact .level long rfl (whole.resolve_right (not_not_intro inside))
    · next cut => exact .parts long rfl (not_or.mp cut).1 (left _ inside) (right _ inside)

/-- The loop ends with one thing only. -/
theorem Ends.unique {s : Store α} {out out' : List α} (h : Ends cmp s out)
    (h' : Ends cmp s out') : out = out' := by
  induction h generalizing out' with
  | insertion short =>
    cases h' with
    | insertion => rfl
    | level long => exact absurd short (Nat.not_le.mpr long)
    | parts long => exact absurd short (Nat.not_le.mpr long)
  | level long first whole =>
    subst first
    cases h' with
    | insertion short => exact absurd short (Nat.not_le.mpr long)
    | level _ first' => rw [first']
    | parts _ first' cut => exact absurd whole (first' ▸ cut)
  | parts long first cut _ _ ihleft ihright =>
    subst first
    cases h' with
    | insertion short => exact absurd short (Nat.not_le.mpr long)
    | level _ first' whole => exact absurd (first' ▸ whole) cut
    | parts _ first' _ hleft hright =>
      subst first'
      rw [ihleft hleft, ihright hright]

/-- By a comparator for which everything is less than everything, itself included, the left part of
every split is the whole leaf, and the loop does not end. -/
theorem not_ends_of_lt (less : ∀ x y, cmp x y = .lt) {s : Store α} {out : List α}
    (long : insertionLimit < s.size) : ¬ Ends cmp s out := by
  -- No zone but the left one holds anything.
  have last (s : Store α) (long : insertionLimit < s.size) : (thirds cmp s long).lt = s.size := by
    let p : Split α s.size := thirds cmp s long
    obtain ⟨-, pivot, -, zones⟩ := thirds_spec cmp s long
    apply Nat.le_antisymm (Nat.le_trans p.lt_le_gt p.gt_le)
    apply Nat.le_of_not_lt
    intro inside
    have order := less (p.cells[p.lt]) pivot
    rcases Nat.lt_or_ge p.lt p.gt with level | above
    · exact absurd ((zones.level p.lt inside (Nat.le_refl _) level).symm.trans order) (by decide)
    · exact absurd ((zones.above p.lt inside above).symm.trans order) (by decide)
  intro ends
  induction ends with
  | insertion short => exact absurd short (Nat.not_le.mpr long)
  | @level s p _ first whole =>
    have := last s long
    rw [first, whole.1] at this
    rw [← this] at long
    exact absurd long (by decide)
  | @parts s p _ _ _ first _ _ _ ih =>
    apply ih
    have := last s long
    rw [first] at this
    rw [Store.size_slice, p.cells.size_eq, this]
    omega

end

end Quicksort

/-! ## Merges -/

namespace Merge

/-- What the loop over the places of a destination writes there, if it reaches the last one: for
each place the first element of what is left of one of the runs. Behind the ends of both runs there
is nothing it could write. -/
inductive Ends (cmp : α → α → Ordering) : List α → List α → (places : Nat) → List α → Prop
  | done {left right : List α} : Ends cmp left right 0 []
  | takeLeft {x y : α} {left right out : List α} {places : Nat} (order : cmp x y ≠ .gt)
    (rest : Ends cmp left (y :: right) places out) :
    Ends cmp (x :: left) (y :: right) (places + 1) (x :: out)
  | takeRight {x y : α} {left right out : List α} {places : Nat} (order : cmp x y = .gt)
    (rest : Ends cmp (x :: left) right places out) :
    Ends cmp (x :: left) (y :: right) (places + 1) (y :: out)
  | onlyLeft {x : α} {left out : List α} {places : Nat} (rest : Ends cmp left [] places out) :
    Ends cmp (x :: left) [] (places + 1) (x :: out)
  | onlyRight {y : α} {right out : List α} {places : Nat} (rest : Ends cmp [] right places out) :
    Ends cmp [] (y :: right) (places + 1) (y :: out)

section
variable (cmp : α → α → Ordering)

theorem ends_mergeLists (left right : List α) :
    Ends cmp left right (left.length + right.length) (mergeLists cmp left right) := by
  unfold mergeLists
  induction left generalizing right with
  | nil =>
    rw [List.nil_merge]
    induction right with
    | nil => exact .done
    | cons y right ih => exact .onlyRight ih
  | cons x left ihleft =>
    induction right with
    | nil =>
      rw [List.merge_right]
      have rest := ihleft []
      rw [List.merge_right] at rest
      exact .onlyLeft rest
    | cons y right ihright =>
      rw [List.cons_merge_cons]
      split
      · next le =>
        rw [List.length_cons, Nat.add_right_comm]
        exact .takeLeft (Ordering.ne_gt_iff_isLE.mpr le) (ihleft (y :: right))
      · next gt =>
        have order : cmp x y = .gt := Decidable.of_not_not (mt Ordering.ne_gt_iff_isLE.mp gt)
        exact .takeRight order ihright

end

/-- The loop ends for as many places as there are elements, and for no more. -/
theorem Ends.places_le {cmp : α → α → Ordering} {left right out : List α} {places : Nat}
    (h : Ends cmp left right places out) : places ≤ left.length + right.length := by
  induction h with
  | done => exact Nat.zero_le _
  | takeLeft _ _ ih =>
    rw [List.length_cons] at ih
    rw [List.length_cons, List.length_cons]
    omega
  | takeRight _ _ ih =>
    rw [List.length_cons] at ih
    rw [List.length_cons, List.length_cons]
    omega
  | onlyLeft _ ih =>
    rw [List.length_cons]
    omega
  | onlyRight _ ih =>
    rw [List.length_cons]
    omega

end Merge

/-- Wherever `search` cuts the right run, a merge gives the elements of both runs. -/
theorem merge_perm (t : Threshold) (cmp : α → α → Ordering) (search : Merge.CutSearch Id α)
    {a b : Nat} (left : Vector α a) (right : Vector α b) (dest : Vector α (a + b)) :
    (merge (m := Id) t cmp left right dest search).toList.Perm (left.toList ++ right.toList) := by
  induction a, b, left, right, dest using merge.induct t with
  | case1 a b left right dest short =>
    rw [merge, dif_pos short]
    show (Merge.mergeRuns (m := Id) cmp left right dest).toList.Perm _
    rw [Merge.toList_mergeRuns]
    exact mergeLists_perm cmp _ _
  | case2 a b left right dest long mid hmid lower upper =>
    let cut : Fin (b + 1) := search (fun x => cmp x left[mid] == .lt) right
    have hcut := cut.isLt
    let below : Vector α (mid + cut) := merge (m := Id) t cmp (Merge.lower left mid (by omega))
      (Merge.lower right cut (by omega)) (Merge.lower dest (mid + cut) (by omega)) search
    let above : Vector α (a - mid + (b - cut)) := merge (m := Id) t cmp (Merge.upper left mid)
      (Merge.upper right cut) ((Merge.upper dest (mid + cut)).cast (by omega)) search
    have step : merge (m := Id) t cmp left right dest search =
        (Merge.glue below (above.cast (by omega)) (by omega) : Vector α (a + b)) := by
      rw [merge, dif_neg long]
      rfl
    have first : below.toList.Perm (left.toList.take mid ++ right.toList.take cut) := by
      rw [← Merge.toList_lower left mid (by omega), ← Merge.toList_lower right cut (by omega)]
      exact lower cut
    have second : above.toList.Perm (left.toList.drop mid ++ right.toList.drop cut) := by
      rw [← Merge.toList_upper left, ← Merge.toList_upper right]
      exact upper cut
    have apart : left.toList ++ right.toList =
        (left.toList.take mid ++ left.toList.drop mid) ++
          (right.toList.take cut ++ right.toList.drop cut) := by
      rw [List.take_append_drop, List.take_append_drop]
    rw [step, Merge.toList_glue, Vector.toList_cast, apart, List.append_assoc]
    refine (first.append second).trans ?_
    rw [List.append_assoc]
    exact List.Perm.append_left _ (List.perm_append_comm_assoc _ _ _)

/-- A sort by a comparator for which an element is equal to itself gives the elements it was given,
whatever else the comparator answers and wherever the merges cut: the sort of every leaf ends, and
every merge finds an element for each place of its destination. -/
theorem sortBy_keeps (t : Threshold) (cmp : α → α → Ordering) (self : ∀ x, cmp x x = .eq)
    (search : Merge.CutSearch Id α) (s : Store α) :
    let sorted : Array α := sortBy (m := Id) t cmp s search
    sorted.toList.Perm s.toList ∧
      (∀ leaf : Store α, ∀ out, Quicksort.Ends cmp leaf out ↔
        out = (quicksort (m := Id) cmp leaf).toList) ∧
      ∀ {a b : Nat} (left : Vector α a) (right : Vector α b) (dest : Vector α (a + b)),
        Merge.Ends cmp left.toList right.toList (a + b)
          (Merge.mergeRuns (m := Id) cmp left right dest).toList := by
  intro sorted
  refine ⟨?_, fun leaf out => ?_, fun left right dest => ?_⟩
  · unfold sorted sortBy
    split
    · exact quicksort_perm cmp s
    · let data : Vector α s.size := ⟨s.toArray, s.size_toArray⟩
      have given : data.toList = s.toList := s.toList_toArray
      rw [← given]
      apply sortIntoPlace_rel (R := List.Perm) t search (quicksort_perm cmp)
      intro a b left right given given' dest hleft hright
      exact (merge_perm t cmp search left right dest).trans (hleft.append hright)
  · constructor
    · intro ends
      exact ends.unique (Quicksort.ends_quicksort self leaf)
    · intro eq
      rw [eq]
      exact Quicksort.ends_quicksort self leaf
  · have ends := Merge.ends_mergeLists cmp left.toList right.toList
    rw [Vector.length_toList, Vector.length_toList, ← Merge.toList_mergeRuns cmp left right dest]
      at ends
    exact ends

/-- Modulo three every number is less than the next, all the way around. The right runs are cut at
their ends. -/
theorem sortBy_keeps_cycle :
    let cmp (x y : Nat) : Ordering :=
      if x % 3 = y % 3 then .eq else if (x + 1) % 3 = y % 3 then .lt else .gt
    let sorted : Array Nat := sortBy (m := Id) ⟨1, by decide⟩ cmp
      (.cells #[0, 1, 2, 3, 4, 5, 6, 7, 8, 9]) fun {b} _ _ => Fin.last b
    sorted.toList.Perm [0, 1, 2, 3, 4, 5, 6, 7, 8, 9] ∧
      (∀ leaf : Store Nat, ∀ out, Quicksort.Ends cmp leaf out ↔
        out = (quicksort (m := Id) cmp leaf).toList) ∧
      ∀ {a b : Nat} (left : Vector Nat a) (right : Vector Nat b) (dest : Vector Nat (a + b)),
        Merge.Ends cmp left.toList right.toList (a + b)
          (Merge.mergeRuns (m := Id) cmp left right dest).toList := by
  intro cmp
  apply sortBy_keeps
  intro x
  exact if_pos rfl

end Bisection
