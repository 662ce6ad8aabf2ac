import Bisection.Proofs.Sort.Order
import Bisection.Sort.Quicksort

/-!
# What the sort of a leaf does

The sort of a leaf only ever exchanges two elements, so whatever the comparator answers it gives the
elements it was given. Insertion keeps the elements up to an index in order but for one, which moves
down until it is in order as well. The split keeps three zones around the pivot, and every element
ends in the zone that the comparator names. A comparator that is a total preorder puts the parts of
a split, once sorted, in order.
-/

namespace Bisection
set_option autoImplicit false

namespace Quicksort
variable {α : Type} {n : Nat}

/-! ## Insertion -/

section
variable (cmp : α → α → Ordering)

theorem sink_succ (v : Run α n) (j : Nat) (hj : j + 1 < n) :
    sink (m := Id) cmp v (j + 1) hj =
      if cmp v[j + 1] v[j] = .lt
        then (sink (m := Id) cmp (v.swap (j + 1) j hj (by omega)) j (by omega) : Run α n)
        else v := by
  rw [sink]
  dsimp only [bind, pure]
  cases cmp v[j + 1] v[j] <;> rfl

theorem sink_perm (v : Run α n) (j : Nat) (hj : j < n) :
    let w : Run α n := sink (m := Id) cmp v j hj
    w.store.toList.Perm v.store.toList := by
  induction v, j, hj using sink.induct with
  | case1 v hj => exact .refl _
  | case2 v j hj ih =>
    intro w
    unfold w
    rw [sink_succ]
    split
    · exact ih.trans (v.swap_perm hj (Nat.lt_of_succ_lt hj))
    · exact .refl _

theorem insertFrom_perm (i : Nat) (v : Run α n) :
    let w : Run α n := insertFrom (m := Id) cmp i v
    w.store.toList.Perm v.store.toList := by
  induction i, v using insertFrom.induct (n := n) with
  | case1 i v hi ih =>
    intro w
    unfold w
    rw [insertFrom, dif_pos hi]
    exact (ih _).trans (sink_perm cmp v i hi)
  | case2 i v hi =>
    intro w
    unfold w
    rw [insertFrom, dif_neg hi]
    exact .refl _

end

/-- The elements before `i` are in order. -/
def Sorted (cmp : α → α → Ordering) (v : Run α n) (i : Nat) : Prop :=
  ∀ a b (_ : a < b) (_ : b < n), b < i → (cmp v[a] v[b]).isLE

/-- The elements up to `i` are in order, but the one at `j` need not come after those before it. -/
def Sinking (cmp : α → α → Ordering) (v : Run α n) (i j : Nat) : Prop :=
  ∀ a b (_ : a < b) (_ : b < n), b ≤ i → b ≠ j → (cmp v[a] v[b]).isLE

section
variable {cmp : α → α → Ordering}

theorem Sinking.swap {v : Run α n} {i j : Nat} (h : Sinking cmp v i (j + 1)) (hj : j + 1 < n)
    (lt : cmp v[j + 1] v[j] = .lt) :
    Sinking cmp (v.swap (j + 1) j hj (Nat.lt_of_succ_lt hj)) i j := by
  intro a b hab hb hbi hbj
  have ha : a < n := Nat.lt_trans hab hb
  have at_b := v.getElem_swap hj (Nat.lt_of_succ_lt hj) hb
  have at_a := v.getElem_swap hj (Nat.lt_of_succ_lt hj) ha
  rw [at_a, at_b, if_neg hbj]
  by_cases hb' : b = j + 1
  · subst hb'
    rw [if_pos rfl, if_neg (by omega)]
    split
    · rw [lt]
      decide
    · exact h a j (by omega) (by omega) (by omega) (by omega)
  · rw [if_neg hb']
    split
    · exact h j b (by omega) hb hbi hb'
    · split
      · exact h (j + 1) b (by omega) hb hbi hb'
      · exact h a b hab hb hbi hb'

theorem Sinking.stop [Std.TransCmp cmp] {v : Run α n} {i j : Nat} (h : Sinking cmp v i (j + 1))
    (hj : j + 1 < n) (le : cmp v[j + 1] v[j] ≠ .lt) (hi : j + 1 ≤ i) : Sorted cmp v (i + 1) := by
  intro a b hab hb hbi
  by_cases hb' : b = j + 1
  · subst hb'
    rcases Nat.lt_or_eq_of_le (Nat.le_of_lt_succ hab) with before | rfl
    · have below := h a j before (by omega) (by omega) (by omega)
      exact Std.TransCmp.isLE_trans below (isLE_of_not_lt le)
    · exact isLE_of_not_lt le
  · exact h a b hab hb (Nat.le_of_lt_succ hbi) hb'

variable [Std.TransCmp cmp]

theorem sink_sorted {i : Nat} (v : Run α n) (j : Nat) (hj : j < n) (hi : j ≤ i)
    (h : Sinking cmp v i j) :
    let w : Run α n := sink (m := Id) cmp v j hj
    Sorted cmp w (i + 1) := by
  induction v, j, hj using sink.induct with
  | case1 v hj =>
    intro w a b hab hb hbi
    exact h a b hab hb (Nat.le_of_lt_succ hbi) (Nat.ne_zero_of_lt hab)
  | case2 v j hj ih =>
    intro w
    unfold w
    rw [sink_succ]
    split
    · next lt => exact ih (Nat.le_of_lt hi) (h.swap hj lt)
    · next le => exact h.stop hj le hi

theorem insertFrom_sorted (i : Nat) (v : Run α n) (h : Sorted cmp v i) :
    let w : Run α n := insertFrom (m := Id) cmp i v
    Sorted cmp w n := by
  induction i, v using insertFrom.induct (n := n) with
  | case1 i v hi ih =>
    intro w
    unfold w
    rw [insertFrom, dif_pos hi]
    apply ih
    apply sink_sorted v i hi (Nat.le_refl i)
    intro a b hab hb hbi hne
    exact h a b hab hb (Nat.lt_of_le_of_ne hbi hne)
  | case2 i v hi =>
    intro w
    unfold w
    rw [insertFrom, dif_neg hi]
    intro a b hab hb _
    exact h a b hab hb (by omega)

omit [Std.TransCmp cmp] in
theorem Sorted.inOrder {v : Run α n} (h : Sorted cmp v n) : InOrder cmp v.store.toList := by
  refine List.pairwise_iff_getElem.mpr fun a b ha hb hab => ?_
  have hb' : b < n := by simpa [v.size_eq] using hb
  have at_a := v.getElem?_toList a (Nat.lt_trans hab hb')
  have at_b := v.getElem?_toList b hb'
  rw [List.getElem?_eq_getElem ha, Option.some.injEq] at at_a
  rw [List.getElem?_eq_getElem hb, Option.some.injEq] at at_b
  rw [at_a, at_b]
  exact h a b hab hb' hb'

end

/-! ## The split -/

/-- Where the elements of a run stand around a pivot: less than it before `lt`, equal to it from
there up to `i`, and greater from `gt` on. -/
structure Zones (cmp : α → α → Ordering) (pivot : α) (v : Run α n) (lt i gt : Nat) : Prop where
  below : ∀ k (_ : k < n), k < lt → cmp v[k] pivot = .lt
  level : ∀ k (_ : k < n), lt ≤ k → k < i → cmp v[k] pivot = .eq
  above : ∀ k (_ : k < n), gt ≤ k → cmp v[k] pivot = .gt

namespace Zones
variable {cmp : α → α → Ordering} {pivot : α} {v : Run α n} {lt i gt : Nat}

theorem start (v : Run α n) : Zones cmp pivot v 0 0 n where
  below k _ before := absurd before (Nat.not_lt_zero k)
  level k _ _ before := absurd before (Nat.not_lt_zero k)
  above _ hk behind := absurd hk (Nat.not_lt.mpr behind)

theorem less (h : Zones cmp pivot v lt i gt) (hlt : lt ≤ i) (hi : i < gt) (hgt : gt ≤ n)
    (order : cmp (v[i]) pivot = .lt) :
    Zones cmp pivot (v.swap lt i (by omega) (by omega)) (lt + 1) (i + 1) gt := by
  have hi' : i < n := Nat.lt_of_lt_of_le hi hgt
  have hlt' : lt < n := Nat.lt_of_le_of_lt hlt hi'
  refine ⟨fun k hk before => ?_, fun k hk behind before => ?_, fun k hk behind => ?_⟩
  · rw [v.getElem_swap hlt' hi' hk]
    split
    · exact order
    · rw [if_neg (by omega)]
      exact h.below k hk (by omega)
  · rw [v.getElem_swap hlt' hi' hk, if_neg (by omega)]
    split
    · exact h.level lt hlt' (Nat.le_refl lt) (by omega)
    · exact h.level k hk (by omega) (by omega)
  · rw [v.getElem_swap hlt' hi' hk, if_neg (by omega), if_neg (by omega)]
    exact h.above k hk behind

theorem greater (h : Zones cmp pivot v lt i gt) (hlt : lt ≤ i) (hi : i < gt) (hgt : gt ≤ n)
    (order : cmp (v[i]) pivot = .gt) :
    Zones cmp pivot (v.swap i (gt - 1) (by omega) (by omega)) lt i (gt - 1) := by
  have hi' : i < n := Nat.lt_of_lt_of_le hi hgt
  have hgt' : gt - 1 < n := by omega
  refine ⟨fun k hk before => ?_, fun k hk behind before => ?_, fun k hk behind => ?_⟩
  · rw [v.getElem_swap hi' hgt' hk, if_neg (by omega), if_neg (by omega)]
    exact h.below k hk before
  · rw [v.getElem_swap hi' hgt' hk, if_neg (by omega), if_neg (by omega)]
    exact h.level k hk behind before
  · rw [v.getElem_swap hi' hgt' hk]
    split
    · next here =>
      have last : gt - 1 = i := by omega
      simp only [last]
      exact order
    · split
      · exact order
      · exact h.above k hk (by omega)

theorem equal (h : Zones cmp pivot v lt i gt) (hi : i < gt) (hgt : gt ≤ n)
    (order : cmp (v[i]) pivot = .eq) : Zones cmp pivot v lt (i + 1) gt := by
  refine ⟨h.below, fun k hk behind before => ?_, h.above⟩
  rcases Nat.lt_or_eq_of_le (Nat.le_of_lt_succ before) with before | rfl
  · exact h.level k hk behind before
  · exact order

end Zones

section
variable (cmp : α → α → Ordering)

/-- The split keeps all elements, and puts each in the zone that the comparator names. -/
theorem splitFrom_spec (pivot : α) (v : Run α n) (lt i gt : Nat) (hlt : lt ≤ i) (hi : i ≤ gt)
    (hgt : gt ≤ n) (zones : Zones cmp pivot v lt i gt) :
    let s : Split α n := splitFrom (m := Id) cmp pivot v lt i gt hlt hi hgt
    s.cells.store.toList.Perm v.store.toList ∧ Zones cmp pivot s.cells s.lt s.gt s.gt := by
  induction v, lt, i, gt, hlt, hi, hgt using splitFrom.induct with
  | case1 v lt i gt hlt hi hgt more less greater equal =>
    intro s
    unfold s
    rw [splitFrom, dif_pos more]
    dsimp only [bind, pure]
    cases order : cmp v[i] pivot with
    | lt =>
      obtain ⟨perm, ends⟩ := less (zones.less hlt more hgt order)
      exact ⟨perm.trans (v.swap_perm _ _), ends⟩
    | gt =>
      obtain ⟨perm, ends⟩ := greater (zones.greater hlt more hgt order)
      exact ⟨perm.trans (v.swap_perm _ _), ends⟩
    | eq => exact equal (zones.equal more hgt order)
  | case2 v lt i gt hlt hi hgt done =>
    intro s
    have step : s = ⟨v, lt, gt, by omega, hgt⟩ := by
      unfold s
      rw [splitFrom, dif_neg done]
      rfl
    rw [step]
    have last : i = gt := Nat.le_antisymm hi (Nat.le_of_not_lt done)
    exact ⟨.refl _, last ▸ zones⟩

theorem medianToMiddle_perm (v : Run α n) (h : 0 < n) :
    let w : Run α n := medianToMiddle (m := Id) cmp v h
    w.store.toList.Perm v.store.toList := by
  have hmid := Nat.div_lt_self h (show 1 < 2 by decide)
  -- The last element is looked at in the same way whether the middle one was moved before or not.
  have last (u : Run α n) (hu : u.store.toList.Perm v.store.toList) :
      let w := u.swap (n - 1) (n / 2) (Nat.sub_one_lt_of_lt h) hmid
      (w.swap (n / 2) 0 hmid h).store.toList.Perm v.store.toList ∧
        w.store.toList.Perm v.store.toList := by
    have hw := (u.swap_perm (Nat.sub_one_lt_of_lt h) hmid).trans hu
    exact ⟨(Run.swap_perm _ hmid h).trans hw, hw⟩
  intro w
  unfold w medianToMiddle
  dsimp only [bind, pure]
  split
  · have hu := v.swap_perm hmid h
    split
    · split
      · exact (last _ hu).1
      · exact (last _ hu).2
    · exact hu
  · have hv : v.store.toList.Perm v.store.toList := .refl _
    split
    · split
      · exact (last _ hv).1
      · exact (last _ hv).2
    · exact hv

/-- A split is made around one of the elements. -/
theorem split_spec (v : Run α n) (h : 0 < n) :
    let s : Split α n := split (m := Id) cmp v h
    s.cells.store.toList.Perm v.store.toList ∧
      ∃ pivot ∈ v.store.toList, Zones cmp pivot s.cells s.lt s.gt s.gt := by
  have inside := Nat.div_lt_self h (show 1 < 2 by decide)
  let w : Run α n := medianToMiddle (m := Id) cmp v h
  have kept : w.store.toList.Perm v.store.toList := medianToMiddle_perm cmp v h
  obtain ⟨perm, zones⟩ := splitFrom_spec cmp w[n / 2] w 0 0 n (Nat.le_refl 0) (Nat.zero_le n)
    (Nat.le_refl n) (.start w)
  refine ⟨perm.trans kept, w[n / 2], ?_, zones⟩
  rw [← kept.mem_iff]
  exact List.mem_of_getElem? (w.getElem?_toList (n / 2) inside)

end

section
variable {cmp : α → α → Ordering} {pivot : α} {s : Split α n}

theorem forall_slice {P : α → Prop} {v : Run α n} {lo hi : Nat}
    (h : ∀ k (_ : k < n), lo ≤ k → k < hi → P v[k]) : ∀ x ∈ (v.store.slice lo hi).toList, P x := by
  intro x hx
  rw [Store.toList_slice] at hx
  obtain ⟨k, hk, rfl⟩ := List.mem_drop_iff_getElem.mp hx
  rw [List.length_take, Store.length_toList, v.size_eq, Nat.lt_min] at hk
  have here := v.getElem?_toList (lo + k) (by omega)
  rw [← List.getElem?_take_of_lt (show lo + k < hi by omega), List.getElem?_eq_some_iff] at here
  obtain ⟨_, here⟩ := here
  rw [here]
  exact h (lo + k) (by omega) (Nat.le_add_right lo k) (by omega)

/-- Around an element that is equal to itself some element is in the middle zone. -/
theorem Zones.lt_lt_gt (h : Zones cmp pivot s.cells s.lt s.gt s.gt)
    (mem : pivot ∈ s.cells.store.toList) (self : cmp pivot pivot = .eq) : s.lt < s.gt := by
  obtain ⟨k, here⟩ := List.mem_iff_getElem?.mp mem
  have hk : k < n := by
    have := (List.getElem?_eq_some_iff.mp here).1
    rwa [Store.length_toList, s.cells.size_eq] at this
  rw [s.cells.getElem?_toList k hk, Option.some.injEq] at here
  have from_lt : s.lt ≤ k := by
    refine Nat.le_of_not_lt fun before => ?_
    have := h.below k hk before
    rw [here, self] at this
    cases this
  have to_gt : k < s.gt := by
    refine Nat.lt_of_not_le fun behind => ?_
    have := h.above k hk behind
    rw [here, self] at this
    cases this
  exact Nat.lt_of_le_of_lt from_lt to_gt

end

end Quicksort

open Quicksort

section
variable {α : Type} (cmp : α → α → Ordering)

/-- The sort of a leaf that is too long for insertion is a split, with both outer parts sorted
unless the split left the leaf whole. -/
theorem toList_quicksort (s : Store α) (h : ¬ s.size ≤ insertionLimit) (pos : 0 < s.size) :
    let p : Split α s.size := split (m := Id) cmp (Run.ofStore s) pos
    (quicksort (m := Id) cmp s).toList =
      if (p.lt = 0 ∧ p.gt = s.size) ∨ ¬ (p.lt < s.size ∧ 0 < p.gt) then p.cells.store.toList
      else (quicksort (m := Id) cmp (p.cells.store.slice 0 p.lt)).toList ++
        (p.cells.store.slice p.lt p.gt).toList ++
        (quicksort (m := Id) cmp (p.cells.store.slice p.gt s.size)).toList := by
  intro p
  rw [quicksort, dif_neg h]
  dsimp only [bind, pure]
  show (Vector.toList (if p.lt = 0 ∧ p.gt = s.size then _ else _)) = _
  by_cases whole : p.lt = 0 ∧ p.gt = s.size
  · rw [if_pos whole, if_pos (.inl whole), Run.toList_toVector]
  · by_cases inside : p.lt < s.size ∧ 0 < p.gt
    · have cut : ¬ ((p.lt = 0 ∧ p.gt = s.size) ∨ ¬ (p.lt < s.size ∧ 0 < p.gt)) := by
        rw [not_or, Decidable.not_not]
        exact ⟨whole, inside⟩
      have middle : (p.cells.store.slice p.lt p.gt).toArray.toVector.toList =
          (p.cells.store.slice p.lt p.gt).toList := Store.toList_toArray _
      -- Which part is sorted first makes no difference.
      rw [if_neg whole, dif_pos inside, if_neg cut]
      split
      · rw [Vector.toList_cast, Vector.toList_append, Vector.toList_append, middle]
      · rw [Vector.toList_cast, Vector.toList_append, Vector.toList_append, middle]
    · rw [if_neg whole, dif_neg inside, if_pos (.inr inside), Run.toList_toVector]

/-- Whatever the comparator answers, the sort of a leaf gives the elements it was given. -/
theorem quicksort_perm (s : Store α) :
    (quicksort (m := Id) cmp s).toList.Perm s.toList := by
  induction s using quicksort.induct with
  | case1 s short =>
    rw [quicksort, dif_pos short]
    show (Run.toVector _).toList.Perm _
    rw [Run.toList_toVector]
    exact insertFrom_perm cmp 1 (Run.ofStore s)
  | case2 s long left right =>
    obtain ⟨perm, -⟩ := split_spec cmp (Run.ofStore s) (by omega)
    rw [toList_quicksort cmp s long (by omega)]
    split
    · exact perm
    · next cut =>
      have inside := Decidable.of_not_not (not_or.mp cut).2
      refine ((left _ inside).append (.refl _) |>.append (right _ inside)).trans ?_
      let p : Split α s.size := split (m := Id) cmp (Run.ofStore s) (by omega)
      have parts := p.cells.store.toList_slices p.lt_le_gt
      rw [p.cells.size_eq] at parts
      rw [parts]
      exact perm

variable {cmp} [Std.TransCmp cmp]

/-- The sort of a leaf puts its elements in order. -/
theorem quicksort_inOrder (s : Store α) : InOrder cmp (quicksort (m := Id) cmp s).toList := by
  induction s using quicksort.induct with
  | case1 s short =>
    rw [quicksort, dif_pos short]
    show InOrder cmp (Run.toVector _).toList
    rw [Run.toList_toVector]
    apply Sorted.inOrder
    apply insertFrom_sorted
    intro a b hab _ hb
    omega
  | case2 s long left right =>
    let p : Split α s.size := split (m := Id) cmp (Run.ofStore s) (by omega)
    obtain ⟨perm, pivot, mem, zones⟩ : p.cells.store.toList.Perm s.toList ∧
        ∃ pivot ∈ s.toList, Zones cmp pivot p.cells p.lt p.gt p.gt :=
      split_spec cmp (Run.ofStore s) (by omega)
    have lt : ∀ x ∈ (p.cells.store.slice 0 p.lt).toList, cmp x pivot = .lt :=
      forall_slice fun k hk _ before => zones.below k hk before
    have eq : ∀ x ∈ (p.cells.store.slice p.lt p.gt).toList, cmp x pivot = .eq :=
      forall_slice fun k hk behind before => zones.level k hk behind before
    have gt : ∀ x ∈ (p.cells.store.slice p.gt s.size).toList, cmp x pivot = .gt :=
      forall_slice fun k hk behind _ => zones.above k hk behind
    have some : p.lt < p.gt := zones.lt_lt_gt (perm.mem_iff.mpr mem) Std.ReflCmp.compare_self
    have inside : p.lt < s.size ∧ 0 < p.gt :=
      ⟨Nat.lt_of_lt_of_le some p.gt_le, Nat.zero_lt_of_lt some⟩
    rw [toList_quicksort cmp s long (by omega)]
    split
    · next whole =>
      obtain ⟨atStart, atEnd⟩ : p.lt = 0 ∧ p.gt = s.size :=
        whole.resolve_right (not_not_intro inside)
      have parts := p.cells.store.toList_slices p.lt_le_gt
      rw [p.cells.size_eq] at parts
      show InOrder cmp p.cells.store.toList
      rw [← parts]
      apply InOrder.parts pivot _ _ lt eq gt
      · rw [atStart, Store.toList_slice]
        exact .nil
      · rw [atEnd, Store.toList_slice,
          List.drop_of_length_le (by rw [List.length_take]; exact Nat.min_le_left _ _)]
        exact .nil
    · apply InOrder.parts pivot (left p inside) (right p inside)
      · intro x hx
        exact lt x ((quicksort_perm cmp _).mem_iff.mp hx)
      · exact eq
      · intro x hx
        exact gt x ((quicksort_perm cmp _).mem_iff.mp hx)

end

end Bisection
