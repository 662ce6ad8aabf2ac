import Bisection.Proofs.Sort.Order
import Bisection.Sort.Merge

/-!
# What a merge writes

The sequential merge writes the merge of its two runs as lists, whatever the runs and the
comparator are. The parallel merge cuts both runs so that the elements before the cuts may all
stand before those behind: for runs in order it writes what the sequential merge writes, and no
trace of the cuts or of the destination's former contents is left.
-/

namespace Bisection
set_option autoImplicit false

variable {α : Type}

/-- The merge of two lists that takes the left element of two that are equal. -/
def mergeLists (cmp : α → α → Ordering) (xs ys : List α) : List α :=
  xs.merge ys fun x y => (cmp x y).isLE

section
variable (cmp : α → α → Ordering)

theorem mergeLists_perm (xs ys : List α) : (mergeLists cmp xs ys).Perm (xs ++ ys) := by
  unfold mergeLists
  exact List.merge_perm_append _

theorem InOrder.mergeLists [Std.TransCmp cmp] {xs ys : List α} (hxs : InOrder cmp xs)
    (hys : InOrder cmp ys) : InOrder cmp (mergeLists cmp xs ys) := by
  apply List.pairwise_merge
  · intro x y z
    exact Std.TransCmp.isLE_trans
  · intro x y
    rw [Bool.or_eq_true]
    exact isLE_total x y
  · exact hxs
  · exact hys

/-- Two lists merge in two parts if they are cut so that nothing before the cut of one need stand
behind the cut of the other. -/
theorem mergeLists_append (xs xs' ys ys' : List α)
    (hle : ∀ x ∈ xs, ∀ y ∈ ys', (cmp x y).isLE) (hgt : ∀ x ∈ xs', ∀ y ∈ ys, ¬ (cmp x y).isLE) :
    mergeLists cmp (xs ++ xs') (ys ++ ys') = mergeLists cmp xs ys ++ mergeLists cmp xs' ys' := by
  unfold mergeLists
  induction xs generalizing ys with
  | nil =>
    induction ys with
    | nil => simp
    | cons y ys ih =>
      cases xs' with
      | nil => simp
      | cons x xs' =>
        rw [List.nil_append, List.cons_append,
          List.cons_merge_cons_neg _ _ _ (hgt x (by simp) y (by simp))]
        rw [← List.nil_append (x :: xs'), ih fun x hx y hy => hgt x hx y (by simp [hy])]
        simp
  | cons x xs ihx =>
    have hxs : ∀ x ∈ xs, ∀ y ∈ ys', (cmp x y).isLE := fun x hx y hy => hle x (by simp [hx]) y hy
    induction ys with
    | nil =>
      cases ys' with
      | nil => simp
      | cons y ys' =>
        have first := ihx [] hxs (by simp)
        rw [List.cons_append, List.nil_append,
          List.cons_merge_cons_pos _ _ _ (hle x (by simp) y (by simp))]
        rw [← List.nil_append (y :: ys'), first]
        simp
    | cons y ys ihy =>
      have hys : ∀ x ∈ xs', ∀ y ∈ ys, ¬ (cmp x y).isLE := fun x hx y hy => hgt x hx y (by simp [hy])
      rw [List.cons_append, List.cons_append, List.cons_merge_cons, List.cons_merge_cons]
      split
      · have := ihx (y :: ys) hxs hgt
        rw [List.cons_append] at this
        rw [this, List.cons_append]
      · have := ihy hys
        rw [List.cons_append] at this
        rw [this, List.cons_append]

end

namespace Merge

section
variable {n k : Nat}

theorem drop_toList (v : Vector α n) (h : k < n) :
    v.toList.drop k = v[k] :: v.toList.drop (k + 1) := by
  rw [List.drop_eq_getElem_cons (by simpa using h), Vector.getElem_toList]

theorem take_toList_set (v : Vector α n) (h : k < n) (x : α) :
    (v.set k x h).toList.take (k + 1) = v.toList.take k ++ [x] := by
  rw [Vector.toList_set, List.take_add_one, List.take_set_of_le (Nat.le_refl k),
    List.getElem?_set_self (by simpa using h)]
  rfl

end

variable (cmp : α → α → Ordering)

/-- The sequential merge keeps what it has written and adds the merge of what is left. -/
theorem toList_mergeRunsFrom {a b : Nat} (left : Vector α a) (right : Vector α b) (i j : Nat)
    (dest : Vector α (a + b)) (hi : i ≤ a) (hj : j ≤ b) :
    (mergeRunsFrom (m := Id) cmp left right i j dest hi hj).toList =
      dest.toList.take (i + j) ++
        mergeLists cmp (left.toList.drop i) (right.toList.drop j) := by
  induction i, j, dest, hi, hj using mergeRunsFrom.induct left right with
  | case1 i j dest hi hj more hl hr takeRight takeLeft =>
    rw [mergeRunsFrom, dif_pos more, dif_pos hl, dif_pos hr, drop_toList left hl,
      drop_toList right hr]
    dsimp only [bind, pure]
    unfold mergeLists
    rw [List.cons_merge_cons]
    cases order : cmp left[i] right[j] with
    | gt =>
      dsimp only
      rw [takeRight, if_neg (by simp), ← Nat.add_assoc, take_toList_set, List.append_assoc,
        ← drop_toList left hl]
      rfl
    | lt =>
      dsimp only
      rw [takeLeft, if_pos (by simp), Nat.add_right_comm, take_toList_set, List.append_assoc,
        ← drop_toList right hr]
      rfl
    | eq =>
      dsimp only
      rw [takeLeft, if_pos (by simp), Nat.add_right_comm, take_toList_set, List.append_assoc,
        ← drop_toList right hr]
      rfl
  | case2 i j dest hi hj more hl hr ih =>
    have none : right.toList.drop j = [] := List.drop_eq_nil_of_le (by simp; omega)
    rw [mergeRunsFrom, dif_pos more, dif_pos hl, dif_neg hr, ih, Nat.add_right_comm,
      take_toList_set, drop_toList left hl, none]
    unfold mergeLists
    simp
  | case3 i j dest hi hj more hl hr ih =>
    have none : left.toList.drop i = [] := List.drop_eq_nil_of_le (by simp; omega)
    rw [mergeRunsFrom, dif_pos more, dif_neg hl, ih, ← Nat.add_assoc, take_toList_set,
      drop_toList right hr, none]
    unfold mergeLists
    simp
  | case4 i j dest hi hj done =>
    have noLeft : left.toList.drop i = [] := List.drop_eq_nil_of_le (by simp; omega)
    have noRight : right.toList.drop j = [] := List.drop_eq_nil_of_le (by simp; omega)
    rw [mergeRunsFrom, dif_neg done, noLeft, noRight]
    change dest.toList = _ ++ mergeLists cmp [] []
    unfold mergeLists
    rw [List.take_of_length_le (by simp; omega), List.nil_merge, List.append_nil]

/-- The sequential merge writes over everything that was in its destination. -/
theorem toList_mergeRuns {a b : Nat} (left : Vector α a) (right : Vector α b)
    (dest : Vector α (a + b)) :
    (mergeRuns (m := Id) cmp left right dest).toList =
      mergeLists cmp left.toList right.toList :=
  toList_mergeRunsFrom cmp left right 0 0 dest (Nat.zero_le a) (Nat.zero_le b)

/-- The bisection keeps all elements before its range `below`, and all behind it not. -/
theorem partitionPointFrom_spec {b : Nat} {below : α → Bool} (xs : Vector α b)
    (mono : ∀ i j (_ : i < b) (_ : j < b), i ≤ j → below xs[j] → below xs[i]) (base n : Nat)
    (h : base + n ≤ b) (pos : 0 < n) (lo : ∀ i (_ : i < b), i < base → below xs[i])
    (hi : ∀ i (_ : i < b), base + n ≤ i → ¬ below xs[i]) :
    let cut : Fin (b + 1) := partitionPointFrom (m := Id) below xs base n h pos
    ∀ i (_ : i < b), below xs[i] ↔ i < cut.val := by
  intro cut
  induction base, n, h, pos using partitionPointFrom.induct with
  | case1 base n h pos more half inside right left =>
    have step : cut = if below xs[base + half]
        then (partitionPointFrom (m := Id) below xs (base + half) (n - half) (by omega) (by omega))
        else partitionPointFrom (m := Id) below xs base (n - half) (by omega) (by omega) := by
      show partitionPointFrom (m := Id) below xs base n h pos = _
      rw [partitionPointFrom, dif_pos more]
      rfl
    rw [step]
    split
    · next yes =>
      apply right
      · intro i hi before
        exact mono i (base + half) hi inside (Nat.le_of_lt before) yes
      · intro i hi' behind
        exact hi i hi' (by omega)
    · next no =>
      apply left lo
      intro i hi behind yes
      exact no (mono (base + half) i inside hi (by omega) yes)
  | case2 base n h pos one inside =>
    have step : cut = if below xs[base] then ⟨base + 1, by omega⟩ else ⟨base, by omega⟩ := by
      show partitionPointFrom (m := Id) below xs base n h pos = _
      rw [partitionPointFrom, dif_neg one]
      rfl
    rw [step]
    intro i hi'
    split
    · next yes =>
      constructor
      · intro found
        refine Decidable.byContradiction fun outside => hi i hi' ?_ found
        dsimp only at outside
        omega
      · intro before
        exact mono i base hi' inside (Nat.le_of_lt_succ before) yes
    · next no =>
      constructor
      · intro found
        refine Decidable.byContradiction fun outside => ?_
        exact no (mono base i inside hi' (Nat.le_of_not_lt outside) found)
      · exact lo i hi'

theorem partitionPoint_spec {b : Nat} {below : α → Bool} (xs : Vector α b)
    (mono : ∀ i j (_ : i < b) (_ : j < b), i ≤ j → below xs[j] → below xs[i]) :
    let cut : Fin (b + 1) := partitionPoint (m := Id) below xs
    ∀ i (_ : i < b), below xs[i] ↔ i < cut.val := by
  intro cut i hi
  have step :
      cut = partitionPointFrom (m := Id) below xs 0 b (by omega) (Nat.zero_lt_of_lt hi) := by
    show partitionPoint (m := Id) below xs = _
    rw [partitionPoint, dif_pos (Nat.zero_lt_of_lt hi)]
  rw [step]
  apply partitionPointFrom_spec xs mono
  · intro i _ before
    exact absurd before (Nat.not_lt_zero i)
  · intro i hi behind
    omega

end Merge

namespace Merge

theorem forall_mem_take {n : Nat} {v : Vector α n} {k : Nat} {P : α → Prop}
    (h : ∀ i (_ : i < n), i < k → P v[i]) : ∀ x ∈ v.toList.take k, P x := by
  intro x hx
  obtain ⟨i, hi, rfl⟩ := List.mem_take_iff_getElem.mp hx
  rw [Vector.length_toList, Nat.lt_min] at hi
  exact h i hi.2 hi.1

theorem forall_mem_drop {n : Nat} {v : Vector α n} {k : Nat} {P : α → Prop}
    (h : ∀ i (_ : i < n), k ≤ i → P v[i]) : ∀ x ∈ v.toList.drop k, P x := by
  intro x hx
  obtain ⟨i, hi, rfl⟩ := List.mem_drop_iff_getElem.mp hx
  rw [Vector.length_toList] at hi
  exact h (k + i) (Nat.add_comm i k ▸ hi) (Nat.le_add_right k i)

variable {cmp : α → α → Ordering} [Std.TransCmp cmp]

/-- The cuts of a parallel merge: what stands before the one of either run may stand before what
stands behind the one of the other, and need not stand behind it. -/
theorem cut_spec {a b : Nat} {left : Vector α a} {right : Vector α b}
    (hleft : InOrder cmp left.toList) (hright : InOrder cmp right.toList) {mid : Nat}
    (hmid : mid < a) :
    let cut : Fin (b + 1) := partitionPoint (m := Id) (fun x => cmp x left[mid] == .lt) right
    (∀ x ∈ left.toList.take mid, ∀ y ∈ right.toList.drop cut.val, (cmp x y).isLE) ∧
      ∀ x ∈ left.toList.drop mid, ∀ y ∈ right.toList.take cut.val, ¬ (cmp x y).isLE := by
  intro cut
  have below (j : Nat) (hj : j < b) : cmp right[j] left[mid] = .lt ↔ j < cut.val := by
    let less (x : α) : Bool := cmp x left[mid] == .lt
    have mono : ∀ i j (_ : i < b) (_ : j < b), i ≤ j → less right[j] → less right[i] := by
      intro i j hi hj hij hlt
      have hlt : cmp right[j] left[mid] = .lt := beq_iff_eq.mp hlt
      exact beq_iff_eq.mpr (Std.TransCmp.lt_of_isLE_of_lt (hright.isLE_getElem hij hj) hlt)
    have spec : less right[j] ↔ j < cut.val := partitionPoint_spec right mono j hj
    rw [← spec]
    exact beq_iff_eq.symm
  constructor
  · apply forall_mem_take
    intro i hi before
    apply forall_mem_drop
    intro j hj behind
    have above : (cmp left[mid] right[j]).isLE :=
      isLE_of_not_lt (mt (below j hj).mp (Nat.not_lt.mpr behind))
    exact Std.TransCmp.isLE_trans (hleft.isLE_getElem (Nat.le_of_lt before) hmid) above
  · apply forall_mem_drop
    intro i hi behind
    apply forall_mem_take
    intro j hj before
    apply Std.OrientedCmp.not_isLE_of_lt
    exact Std.TransCmp.lt_of_lt_of_isLE ((below j hj).mpr before) (hleft.isLE_getElem behind hi)

end Merge

/-- The parallel merge of two runs in order writes their merge, for every threshold and whatever
was in its destination. -/
theorem toList_merge {cmp : α → α → Ordering} [Std.TransCmp cmp] (t : Threshold) {a b : Nat}
    (left : Vector α a) (right : Vector α b) (dest : Vector α (a + b))
    (hleft : InOrder cmp left.toList) (hright : InOrder cmp right.toList) :
    (merge (m := Id) t cmp left right dest).toList =
      mergeLists cmp left.toList right.toList := by
  induction a, b, left, right, dest using merge.induct t with
  | case1 a b left right dest short =>
    rw [merge, dif_pos short]
    exact Merge.toList_mergeRuns cmp left right dest
  | case2 a b left right dest long mid hmid lower upper =>
    let cut : Fin (b + 1) :=
      Merge.partitionPoint (m := Id) (fun x => cmp x left[mid] == .lt) right
    have hcut := cut.isLt
    have step : merge (m := Id) t cmp left right dest =
        (Merge.glue
          (merge (m := Id) t cmp (Merge.lower left mid (by omega))
            (Merge.lower right cut (by omega)) (Merge.lower dest (mid + cut) (by omega)))
          (Vector.cast (by omega) (merge (m := Id) t cmp (Merge.upper left mid)
            (Merge.upper right cut) ((Merge.upper dest (mid + cut)).cast (by omega))))
          (by omega) : Vector α (a + b)) := by
      rw [merge, dif_neg long]
      rfl
    obtain ⟨hle, hgt⟩ := Merge.cut_spec hleft hright hmid
    have first := lower cut (hleft.sublist (by simp [List.take_sublist]))
      (hright.sublist (by simp [List.take_sublist]))
    have second := upper cut (hleft.sublist (by simp [List.drop_sublist]))
      (hright.sublist (by simp [List.drop_sublist]))
    rw [step, Merge.toList_glue, Vector.toList_cast, first, second]
    simp only [Merge.toList_lower, Merge.toList_upper]
    rw [← mergeLists_append cmp _ _ _ _ hle hgt, List.take_append_drop, List.take_append_drop]

end Bisection
