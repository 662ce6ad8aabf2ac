import Bisection.Proofs.Agreement.Sharing

/-!
# Whether a window is sorted

A check for order is a search for an index whose element is less than the one before it. The first
element of a window has none before it there, so the indices searched are those from the second on,
and every leaf compares its first element with the last one of the leaf before. Between any two
elements out of order there are two next to each other that are, as what is not greater is
transitive. Whatever the searchers do, they compare elements of the window only.
-/

namespace Bisection
set_option autoImplicit false

section
variable {α : Type}

/-- No element of a window is greater than a later one. -/
def Window.Ordered (w : Window α) (cmp : α → α → Ordering) : Prop :=
  ∀ i j x y, w.lo ≤ i → i < j → j < w.hi → w.get? i = some x → w.get? j = some y → cmp x y ≠ .gt

namespace Window
variable {w : Window α} {cmp : α → α → Ordering}

theorem descends_iff {i : Nat} : w.descends cmp i = true ↔
    ∃ x y, w.get? (i - 1) = some x ∧ w.get? i = some y ∧ cmp x y = .gt := by
  unfold descends
  cases w.get? (i - 1) with
  | none => simp
  | some x => cases w.get? i <;> simp

theorem Ordered.no_descent (ordered : w.Ordered cmp) {i : Nat} (above : w.lo + 1 ≤ i)
    (below : i < w.hi) : w.descends cmp i = false := by
  apply Bool.eq_false_iff.mpr
  intro descent
  obtain ⟨x, y, before, here, greater⟩ := descends_iff.mp descent
  exact ordered (i - 1) i x y (Nat.le_sub_one_of_lt above) (by omega) below before here greater

/-- From an element on, no element is less, as long as none is less than the one before it. -/
theorem Ordered.of_no_descent (trans : ∀ x y z, cmp x y ≠ .gt → cmp y z ≠ .gt → cmp x z ≠ .gt)
    (none : ∀ i, w.lo + 1 ≤ i → i < w.hi → w.descends cmp i = false) : w.Ordered cmp := by
  intro i j x y above later
  have next {k : Nat} {y z : α} (le : i ≤ k) (below : k + 1 < w.hi) (here : w.get? k = some y)
      (after : w.get? (k + 1) = some z) : cmp y z ≠ .gt := by
    intro greater
    have descent := descends_iff.mpr ⟨y, z, here, after, greater⟩
    rw [none (k + 1) (by omega) below] at descent
    cases descent
  induction j, later using Nat.le_induction generalizing y with
  | base => exact fun below here after => next (Nat.le_refl i) below here after
  | succ k later ih =>
    intro below here after
    obtain ⟨z, between⟩ := w.exists_get? (Nat.lt_of_succ_lt below)
    exact trans x z y (ih z (Nat.lt_of_succ_lt below) here between)
      (next (Nat.le_of_succ_le later) below between after)

theorem ordered_iff_no_descent
    (trans : ∀ x y z, cmp x y ≠ .gt → cmp y z ≠ .gt → cmp x z ≠ .gt) :
    w.Ordered cmp ↔ ∀ i, w.lo + 1 ≤ i → i < w.hi → w.descends cmp i = false :=
  ⟨fun ordered _ => ordered.no_descent, .of_no_descent trans⟩

theorem ascending_iff (trans : ∀ x y z, cmp x y ≠ .gt → cmp y z ≠ .gt → cmp x z ≠ .gt) :
    w.ascending cmp = true ↔ w.Ordered cmp := by
  have size := w.lo_add_size
  rw [ordered_iff_no_descent trans, ascending, Bool.or_eq_true, Option.isNone_iff_eq_none,
    List.find?_eq_none, decide_eq_true_eq]
  constructor
  · rintro (few | none) i above below
    · omega
    · exact Bool.eq_false_iff.mpr (none i (List.mem_range'_1.mpr ⟨above, by omega⟩))
  · intro none
    right
    intro i mem
    obtain ⟨above, below⟩ := List.mem_range'_1.mp mem
    exact Bool.eq_false_iff.mp (none i above (by omega))

/-- Elements in order make an ordered window. -/
theorem Ordered.of_inOrder (inOrder : InOrder cmp (w.upTo w.hi)) : w.Ordered cmp := by
  intro i j x y above later below here after
  have before : i < w.hi := Nat.lt_trans later below
  have above' : w.lo ≤ j := Nat.le_trans above (Nat.le_of_lt later)
  rw [← w.getElem?_upTo above before] at here
  rw [← w.getElem?_upTo above' below] at after
  obtain ⟨lt, rfl⟩ := List.getElem?_eq_some_iff.mp here
  obtain ⟨lt', rfl⟩ := List.getElem?_eq_some_iff.mp after
  apply Ordering.isLE_iff_ne_gt.mp
  exact List.pairwise_iff_getElem.mp inOrder _ _ lt lt' (Nat.sub_lt_sub_right above later)

end Window

/-! ## What is read -/

namespace Searcher
variable {w w' : Window α} {cmp : α → α → Ordering} {t : Threshold} {s : Searcher}

/-- The indices of the elements that a searcher for a descent compares in its next step. -/
def compares : Searcher → List Nat
  | scan lo hi => if lo < hi then [lo - 1, lo] else []
  | _ => []

/-- A step depends on nothing but the elements that it compares. -/
theorem step_congr (same : ∀ i ∈ s.compares, w'.get? i = w.get? i) (stale : Bool)
    (cell : MatchCell) :
    s.step t (w'.descends cmp) stale cell = s.step t (w.descends cmp) stale cell := by
  cases s with
  | look lo hi => rfl
  | offer i => rfl
  | scan lo hi =>
    have same : ∀ i ∈ if lo < hi then [lo - 1, lo] else [], w'.get? i = w.get? i := same
    rw [Searcher.step, Searcher.step]
    by_cases more : lo < hi
    · rw [if_pos more] at same
      have alike : w'.descends cmp lo = w.descends cmp lo := by
        rw [Window.descends, Window.descends, same (lo - 1) List.mem_cons_self,
          same lo (List.mem_cons_of_mem _ (List.mem_singleton_self _))]
      rw [alike]
    · rw [if_neg more, if_neg more]

/-- A searcher that keeps to the indices from the second on compares elements of the window. -/
theorem Keeps.compares {accepts : Nat → Bool} (keeps : s.Keeps accepts (w.lo + 1) w.hi) :
    ∀ i ∈ s.compares, w.lo ≤ i ∧ i < w.hi := by
  intro i mem
  cases s with
  | look lo hi => cases mem
  | offer i => cases mem
  | scan lo hi =>
    obtain ⟨above, below⟩ := keeps
    have mem : i ∈ if lo < hi then [lo - 1, lo] else [] := mem
    by_cases more : lo < hi
    · rw [if_pos more] at mem
      simp only [List.mem_cons, List.not_mem_nil, or_false] at mem
      omega
    · rw [if_neg more] at mem
      cases mem

end Searcher

namespace Hunt
variable {w w' : Window α} {cmp : α → α → Ordering} {t : Threshold} {n : Nat} {now : Hunt}

/-- The same steps lead to the same state in any array that has the same elements in the window. -/
theorem Reaches.congr (fits : w.hi ≤ maxSize)
    (same : ∀ i, w.lo ≤ i → i < w.hi → w'.get? i = w.get? i)
    (run : Reaches t (w.descends cmp) n (.start (w.lo + 1) w.hi) now) :
    Reaches t (w'.descends cmp) n (.start (w.lo + 1) w.hi) now := by
  generalize begun : start (w.lo + 1) w.hi = before at run ⊢
  induction run with
  | refl h => exact .refl h
  | @step n p h h' run lt stale ih =>
    subst begun
    obtain ⟨sound, -⟩ := run.sound fits (sound_start _ _)
    have keeps := sound.keeps h'.left[p] (List.getElem_mem lt)
    have step : h'.left[p].step t (w'.descends cmp) stale h'.cell =
        h'.left[p].step t (w.descends cmp) stale h'.cell :=
      Searcher.step_congr (fun i mem => (keeps.compares i mem).elim (same i)) stale h'.cell
    have alike : h'.stepAt t (w.descends cmp) p stale = h'.stepAt t (w'.descends cmp) p stale := by
      rw [stepAt, stepAt, List.getElem?_eq_getElem lt]
      dsimp only
      rw [step]
    rw [alike]
    exact .step (ih rfl) lt stale

end Hunt

end

/-! ## Sorting first -/

namespace Window

section
variable {α : Type} {cmp : α → α → Ordering} [Std.TransCmp cmp] (w : Window α)

theorem sorts_part : Sorts cmp
    (Array.toList (Bisection.sortBy (m := Id) (w.array.leafThreshold w.size) cmp w.part))
    (w.upTo w.hi) :=
  w.toList_part ▸ sorts_sortBy _ w.part

theorem ordered_sortBy : (w.sortBy (m := Id) cmp).Ordered cmp := by
  apply Ordered.of_inOrder
  rw [sortBy_eq_refill, upTo_refill]
  exact w.sorts_part.inOrder

theorem hi_sortBy : (w.sortBy (m := Id) cmp).hi = w.hi := by
  have sorts : Sorts cmp _ (w.upTo w.hi) := w.sorts_part
  have length := sorts.perm.length_eq
  rw [Array.length_toList, length_upTo] at length
  rw [sortBy_eq_refill]
  show w.lo + Array.size _ = w.hi
  rw [length, lo_add_size]

end

/-! ## The check -/

section
variable {α : Type} (w : Window α) (cmp : α → α → Ordering)

/-- A check of a window for order comes to this, by one worker and by those of its pool. -/
structure ChecksTo (sorted : Bool) : Prop where
  alone : w.isSortedBy (m := Id) cmp = sorted
  together : ∀ ι : Type, (w.checkOrder (fun x y => .ok (cmp x y)) : Concurrent ι Abort Bool).Always
    fun _ r => r = .ok sorted

/-- What a search for a descent has come to after `n` steps. -/
structure SearchedFor (t : Threshold) (n : Nat) (now : Hunt) : Prop where
  /-- There are not many more steps than indices. -/
  ends : n ≤ 4 * w.size + 2
  /-- When nobody searches any more, the cell tells whether the window is sorted. -/
  told : now.left = [] → (now.cell.get = none ↔ w.Ordered cmp)
  /-- What is compared next is in the window, -/
  inside : ∀ s ∈ now.left, ∀ i ∈ s.compares, w.lo ≤ i ∧ i < w.hi
  /-- and what there is outside of it makes no difference. -/
  elsewhere : ∀ w' : Window α, (∀ i, w.lo ≤ i → i < w.hi → w'.get? i = w.get? i) →
    Hunt.Reaches t (w'.descends cmp) n (.start (w.lo + 1) w.hi) now

variable {w cmp}

theorem checksTo_ascending (fits : w.hi ≤ maxSize) : w.ChecksTo cmp (w.ascending cmp) where
  alone := w.isSortedBy_id fits cmp
  together _ := Concurrent.always_of_same (same_checkOrder (fun _ _ => rfl) fits)

theorem searchedFor_of_reaches (fits : w.hi ≤ maxSize)
    (trans : ∀ x y z, cmp x y ≠ .gt → cmp y z ≠ .gt → cmp x z ≠ .gt) {t : Threshold} {n : Nat}
    {now : Hunt} (run : Hunt.Reaches t (w.descends cmp) n (.start (w.lo + 1) w.hi) now) :
    w.SearchedFor cmp t n now := by
  obtain ⟨sound, -, steps⟩ := run.sound fits (Hunt.sound_start _ _)
  constructor
  case ends =>
    have size := w.lo_add_size
    simp only [Hunt.cost, Hunt.start, List.map_cons, List.map_nil, List.sum_cons, List.sum_nil,
      Searcher.cost] at steps
    omega
  case told =>
    intro done
    rw [ordered_iff_no_descent trans]
    exact sound.get_eq_none_iff done
  case inside => exact fun s mem => (sound.keeps s mem).compares
  case elsewhere => exact fun w' same => run.congr fits same

end

/-- By a comparator that is a total preorder, a check tells whether there are no two elements in the
window of which the first is greater, with any threshold and any number of workers, and compares
elements of the window only. After a sort by the comparator the answer is yes. -/
theorem isSortedBy_iff_ordered {ε ι α : Type} (w : Window α) (cmp : α → α → Ordering)
    (fits : w.hi ≤ maxSize) (reverse : ∀ x y, cmp x y = (cmp y x).swap)
    (trans : ∀ x y z, cmp x y ≠ .gt → cmp y z ≠ .gt → cmp x z ≠ .gt) :
    (∃ sorted, w.ChecksTo cmp sorted ∧ (sorted = true ↔ w.Ordered cmp)) ∧
    (∀ t n now, Hunt.Reaches t (w.descends cmp) n (.start (w.lo + 1) w.hi) now →
      w.SearchedFor cmp t n now) ∧
    let after : Window α := w.sortBy (m := Id) cmp
    (w.sortBy fun x y => pure (cmp x y) : Concurrent ι ε (Window α)).Always
      (fun _ r => r = .ok after) ∧
    after.lo = w.lo ∧ after.hi = w.hi ∧ after.ChecksTo cmp true := by
  have preorder : Std.TransCmp cmp := transCmp_of_ne_gt reverse trans
  have hi : (w.sortBy (m := Id) cmp).hi = w.hi := w.hi_sortBy
  refine ⟨?iff, fun t n now run => searchedFor_of_reaches fits trans run, ?sorts, rfl, hi, ?yes⟩
  case iff => exact ⟨_, checksTo_ascending fits, ascending_iff trans⟩
  case sorts => exact Concurrent.always_of_same (same_sortBy_id fun _ _ => .pure _)
  case yes =>
    exact (ascending_iff trans).mpr w.ordered_sortBy ▸ checksTo_ascending (hi.symm ▸ fits)

/-- By halves, a window of equal elements and a greater one is sorted between a greater and a lesser
element, and the whole array is not. -/
theorem isSortedBy_iff_ordered_halves :
    let cmp (x y : Nat) : Ordering := compare (x / 2) (y / 2)
    let w : Window Nat :=
      ⟨⟨default, some ⟨1, Nat.one_pos⟩, .cells #[9, 3, 2, 4, 0]⟩, 1, 4, by decide, by decide⟩
    w.Ordered cmp ∧ ¬ w.array.whole.Ordered cmp := by
  intro cmp w
  have reverse (x y : Nat) : cmp x y = (cmp y x).swap := by
    have swap : compare (x / 2) (y / 2) = (compare (y / 2) (x / 2)).swap :=
      Std.OrientedCmp.eq_swap
    exact swap
  have trans (x y z : Nat) (hxy : cmp x y ≠ .gt) (hyz : cmp y z ≠ .gt) : cmp x z ≠ .gt := by
    have le : (compare (x / 2) (z / 2)).isLE :=
      Std.TransCmp.isLE_trans (Ordering.ne_gt_iff_isLE.mp hxy) (Ordering.ne_gt_iff_isLE.mp hyz)
    exact Ordering.ne_gt_iff_isLE.mpr le
  constructor
  · obtain ⟨⟨sorted, checks, iff⟩, -⟩ :=
      isSortedBy_iff_ordered (ε := Empty) (ι := Unit) w cmp (by decide) reverse trans
    have yes : (w.isSortedBy (m := Id) cmp).run = true := by decide +kernel
    exact iff.mp (checks.alone.symm.trans yes)
  · obtain ⟨⟨sorted, checks, iff⟩, -⟩ :=
      isSortedBy_iff_ordered (ε := Empty) (ι := Unit) w.array.whole cmp (by decide) reverse trans
    have no : (w.array.whole.isSortedBy (m := Id) cmp).run = false := by decide +kernel
    exact fun ordered => Bool.false_ne_true (no.symm.trans (checks.alone.trans (iff.mpr ordered)))

end Window

end Bisection
