import Bisection.Proofs.Agreement.Endings
import Bisection.Proofs.Window.Folds
import Mathlib.Order.Bounds.Defs

/-!
# The least and the greatest element, and the calls that find them

Of the elements that no other is less than, a summary tells the first. This is so of a single
element, and of two adjacent parts if it is so of each, since the later of two is taken only if it
is less (`Extremes.Leads.append`). The greatest element is the least one in the opposite order.

Each element but the first is compared once for the least and once for the greatest element,
wherever the window is cut and however the halves take turns: both halves leave out one comparison
for each of the two, and joining them makes it.
-/

namespace Bisection
set_option autoImplicit false

/-! ## Computations with so many calls -/

namespace Concurrent
variable {ι ε β γ : Type} {x : Concurrent ι ε β} {y : Concurrent ι ε γ}
  {f : β → Concurrent ι ε γ} {b : β} {c : γ} {n k : Nat}

/-- There is a run, and all runs come to this result with this number of calls. -/
def Costs (x : Concurrent ι ε β) (n : Nat) (b : β) : Prop :=
  x.Always fun calls r => r = .ok b ∧ calls.length = n

theorem costs_pure (b : β) : (pure b : Concurrent ι ε β).Costs 0 b :=
  always_ends ⟨rfl, rfl⟩

theorem costs_call (i : ι) (b : β) : (call i (.ok b) : Concurrent ι ε β).Costs 1 b :=
  always_call ⟨rfl, rfl⟩

theorem Costs.bind (first : x.Costs n b) (next : (f b).Costs k c) : (x >>= f).Costs (n + k) c := by
  have first : x.Always fun calls r => ∃ b', r = .ok b' ∧ b' = b ∧ calls.length = n :=
    first.mono fun _ _ ends => ⟨b, ends.1, rfl, ends.2⟩
  refine Always.then first ?_
  rintro calls b' ⟨rfl, length⟩
  refine next.mono fun later r ends => ?_
  rw [List.length_append, length, ends.2]
  exact ⟨ends.1, rfl⟩

theorem Costs.map (costs : x.Costs n b) (f : β → γ) : (f <$> x).Costs n (f b) := by
  rw [map_eq_pure_bind]
  exact Costs.bind (k := 0) costs (costs_pure (f b))

theorem Costs.join (left : x.Costs n b) (right : y.Costs k c) :
    (Fork.join x y).Costs (n + k) (b, c) := by
  refine (left.beside right).mono fun calls r ends => ?_
  obtain ⟨ours, theirs, r₁, r₂, ⟨rfl, rfl⟩, ⟨rfl, rfl⟩, perm, rfl⟩ := ends
  rw [perm.length_eq, List.length_append]
  exact ⟨rfl, rfl⟩

end Concurrent

open Concurrent

namespace Extremes
variable {α ε : Type} {cmp : α → α → Ordering} {lo : Nat} {xs ys : List α}

/-! ## The first of the least elements -/

/-- Of elements at the indices from `lo` on, the first that no other is less than. -/
structure Leads (cmp : α → α → Ordering) (lo : Nat) (xs : List α) (l : Located α) : Prop where
  lo_le : lo ≤ l.index
  at_index : xs[l.index - lo]? = some l.elem
  least : ∀ y ∈ xs, (cmp l.elem y).isLE
  first : ∀ k y, k < l.index - lo → xs[k]? = some y → cmp l.elem y = .lt

theorem leads_singleton [Std.ReflCmp cmp] (lo : Nat) (x : α) : Leads cmp lo [x] ⟨lo, x⟩ where
  lo_le := Nat.le_refl lo
  at_index := by rw [Nat.sub_self, List.getElem?_cons_zero]
  least y mem := by
    rw [List.mem_singleton.mp mem]
    exact Std.ReflCmp.isLE_rfl
  first k y before := by
    rw [Nat.sub_self] at before
    exact absurd before (Nat.not_lt_zero k)

/-- Of two adjacent parts the first least element is that of the left one, unless that of the right
one is less. -/
theorem Leads.append [Std.TransCmp cmp] {l r : Located α} (left : Leads cmp lo xs l)
    (right : Leads cmp (lo + xs.length) ys r) :
    Leads cmp lo (xs ++ ys) (earliest cmp l r) := by
  obtain ⟨inside, -⟩ := List.getElem?_eq_some_iff.mp left.at_index
  have beyond := right.lo_le
  by_cases less : cmp r.elem l.elem = .lt
  · rw [earliest_of_lt less]
    have below (y : α) (mem : y ∈ xs) : cmp r.elem y = .lt :=
      Std.TransCmp.lt_of_lt_of_isLE less (left.least y mem)
    refine ⟨by omega, ?_, fun y mem => ?_, fun k y before at_k => ?_⟩
    · rw [List.getElem?_append_right (by omega), Nat.sub_sub]
      exact right.at_index
    · rcases List.mem_append.mp mem with mem | mem
      · rw [below y mem]
        rfl
      · exact right.least y mem
    · rcases Nat.lt_or_ge k xs.length with lt | ge
      · rw [List.getElem?_append_left lt] at at_k
        exact below y (List.mem_of_getElem? at_k)
      · rw [List.getElem?_append_right ge] at at_k
        exact right.first (k - xs.length) y (by omega) at_k
  · rw [earliest_of_not_lt less]
    have le : (cmp l.elem r.elem).isLE := isLE_of_not_lt less
    refine ⟨left.lo_le, ?_, fun y mem => ?_, fun k y before at_k => ?_⟩
    · rw [List.getElem?_append_left inside]
      exact left.at_index
    · rcases List.mem_append.mp mem with mem | mem
      · exact left.least y mem
      · exact Std.TransCmp.isLE_trans le (right.least y mem)
    · rw [List.getElem?_append_left (by omega)] at at_k
      exact left.first k y before at_k

/-- The extremes of some elements are the first least one in an order, and the first least one in
the opposite order. -/
structure Bounds (cmp : α → α → Ordering) (lo : Nat) (xs : List α) (e : Extremes α) : Prop where
  least : Leads cmp lo xs e.least
  greatest : Leads (fun x y => cmp y x) lo xs e.greatest

theorem exists_ofList (cmp : α → α → Ordering) [Std.TransCmp cmp] (lo : Nat)
    (nonempty : xs ≠ []) :
    ∃ e, ofList cmp lo xs = some e ∧ Bounds cmp lo xs e := by
  induction xs using List.reverseRecOn with
  | nil => exact absurd rfl nonempty
  | append_singleton xs x ih =>
    have last : ofList cmp (lo + xs.length) [x] = some (one (lo + xs.length) x) := rfl
    rw [ofList_append, last]
    by_cases empty : xs = []
    · subst empty
      exact ⟨_, rfl, leads_singleton lo x, leads_singleton lo x⟩
    · obtain ⟨e, found, bounds⟩ := ih empty
      rw [found, beside_some]
      exact ⟨_, rfl, bounds.least.append (leads_singleton _ x),
        bounds.greatest.append (leads_singleton _ x)⟩

/-! ## The comparisons -/

/-- A comparator that tells what it is asked about. -/
def compared (ε : Type) (cmp : α → α → Ordering) (x y : α) : Concurrent (α × α) ε Ordering :=
  .call (x, y) (.ok (cmp x y))

theorem costs_compared (x y : α) : (compared ε cmp x y).Costs 1 (cmp x y) := costs_call _ _

theorem costs_lesser (x y : Located α) :
    (lesser (compared ε cmp) x y).Costs 1 (earliest cmp x y) := by
  rw [lesser, earliest]
  refine Costs.bind (k := 0) (costs_compared y.elem x.elem) ?_
  cases cmp y.elem x.elem <;> exact costs_pure _

theorem costs_greater [Std.OrientedCmp cmp] (x y : Located α) :
    (greater (compared ε cmp) x y).Costs 1 (earliest (fun x y => cmp y x) x y) := by
  have back : cmp y.elem x.elem = (cmp x.elem y.elem).swap := Std.OrientedCmp.eq_swap
  rw [greater, earliest]
  refine Costs.bind (k := 0) (costs_compared y.elem x.elem) ?_
  rw [back]
  cases cmp x.elem y.elem <;> exact costs_pure _

theorem costs_join [Std.OrientedCmp cmp] (x y : Extremes α) :
    (join (compared ε cmp) (some x) (some y)).Costs 2 (beside cmp (some x) (some y)) := by
  have merge : (merge (compared ε cmp) x y).Costs 2 ⟨earliest cmp x.least y.least,
      earliest (fun x y => cmp y x) x.greatest y.greatest⟩ := by
    refine Costs.bind (n := 1) (k := 1) (costs_lesser x.least y.least) ?_
    exact Costs.bind (k := 0) (costs_greater x.greatest y.greatest) (costs_pure _)
  rw [beside_some]
  exact merge.map some

theorem costs_visit {found : Option (Extremes α)} {n i : Nat} {x : α}
    (joined : (join (compared ε cmp) found (some (one i x))).Costs n
      (beside cmp found (some (one i x)))) :
    (visit (compared ε cmp) (found, i) x).Costs n (beside cmp found (some (one i x)), i + 1) :=
  Costs.bind (k := 0) joined (costs_pure _)

/-- Each element after the first is compared twice. -/
theorem costs_visits [Std.OrientedCmp cmp] (e : Extremes α) (i : Nat) (xs : List α) :
    (xs.foldlM (visit (compared ε cmp)) (some e, i)).Costs (2 * xs.length)
      ((xs.zipIdx i).foldl (fun found (p : α × Nat) => beside cmp found (some (one p.2 p.1)))
        (some e), i + xs.length) := by
  induction xs generalizing e i with
  | nil => exact costs_pure _
  | cons x xs ih =>
    have visited : (visit (compared ε cmp) (some e, i) x).Costs 2 _ := costs_visit (costs_join e _)
    have calls : 2 * (xs.length + 1) = 2 + 2 * xs.length := by omega
    have last : i + (xs.length + 1) = i + 1 + xs.length := by omega
    rw [List.foldlM_cons, List.zipIdx_cons, List.foldl_cons, List.length_cons, calls, last]
    rw [beside_some] at visited ⊢
    exact visited.bind (ih _ (i + 1))

theorem costs_leaf [Std.OrientedCmp cmp] (s : Store α) (lo : Nat) :
    (leaf (compared ε cmp) s lo).Costs (2 * (s.size - 1)) (ofList cmp lo s.toList) := by
  rw [leaf_eq_visit, ← Store.length_toList]
  cases s.toList with
  | nil => exact (costs_pure (none, lo)).map Prod.fst
  | cons x xs =>
    have first : (join (compared ε cmp) none (some (one lo x))).Costs 0
        (beside cmp none (some (one lo x))) := costs_pure _
    have visited : ((x :: xs).foldlM (visit (compared ε cmp)) (none, lo)).Costs (0 + 2 * xs.length)
        (ofList cmp lo (x :: xs), lo + 1 + xs.length) := by
      rw [List.foldlM_cons]
      exact (costs_visit first).bind (costs_visits (one lo x) (lo + 1) xs)
    rw [Nat.zero_add] at visited
    exact visited.map Prod.fst

/-- A bisection compares each element but the first twice: each half leaves out its first element,
and joining the halves makes up for one of them. -/
theorem costs_forkPieces [Std.TransCmp cmp] (t : Threshold) (s : Store α) (lo : Nat) :
    (forkPieces t (leaf (compared ε cmp)) (join (compared ε cmp)) s lo).Costs (2 * (s.size - 1))
      (ofList cmp lo s.toList) := by
  refine halves_induction t ?short ?long s lo
  case short =>
    intro s lo short
    rw [forkPieces_of_le short]
    exact costs_leaf s lo
  case long =>
    intro s lo long left right
    have two : 2 ≤ s.size := Threshold.two_le long
    have sizeLeft : (Piece.left s).size = s.size / 2 := size_left s
    have sizeRight : (Piece.right s).size = s.size - s.size / 2 := size_right s
    have halves : 2 * (s.size - 1) = 2 * (s.size / 2 - 1) + 2 * (s.size - s.size / 2 - 1) + 2 := by
      omega
    have inLeft : (Piece.left s).toList ≠ [] :=
      List.ne_nil_of_length_pos (by rw [Store.length_toList]; omega)
    have inRight : (Piece.right s).toList ≠ [] :=
      List.ne_nil_of_length_pos (by rw [Store.length_toList]; omega)
    obtain ⟨e, found, -⟩ := exists_ofList cmp lo inLeft
    obtain ⟨e', found', -⟩ := exists_ofList cmp (lo + Piece.size s / 2) inRight
    rw [sizeLeft, found] at left
    rw [sizeRight, found'] at right
    rw [forkPieces_of_lt long, ofList_halves, found, found', halves]
    exact (left.join right).bind (costs_join e e')

end Extremes

namespace Window
variable {α ε : Type} (w : Window α) {cmp : α → α → Ordering}

/-! ## Summaries -/

/-- An index of the window whose element compares to none of its elements as told. -/
def Avoids (cmp : α → α → Ordering) (o : Ordering) (i : Nat) : Prop :=
  w.lo ≤ i ∧ i < w.hi ∧ ∃ x, w.get? i = some x ∧
    ∀ k y, w.lo ≤ k → k < w.hi → w.get? k = some y → cmp x y ≠ o

/-- The first least element of a window is at the lowest index whose element is not greater than
any. -/
theorem isLeast_of_leads [Std.OrientedCmp cmp] {l : Located α}
    (leads : Extremes.Leads cmp w.lo (w.upTo w.hi) l) :
    w.get? l.index = some l.elem ∧ IsLeast {i | w.Avoids cmp .gt i} l.index := by
  have above := leads.lo_le
  have below : l.index < w.hi := by
    obtain ⟨inside, -⟩ := List.getElem?_eq_some_iff.mp leads.at_index
    rw [length_upTo] at inside
    exact (Nat.sub_lt_sub_iff_right above).mp inside
  have here : w.get? l.index = some l.elem := by
    rw [← w.getElem?_upTo above below]
    exact leads.at_index
  refine ⟨here, ⟨above, below, l.elem, here, fun k y above below at_k => ?_⟩, ?_⟩
  · rw [← w.getElem?_upTo above below] at at_k
    exact Ordering.isLE_iff_ne_gt.mp (leads.least y (List.mem_of_getElem? at_k))
  · rintro j ⟨above', below', x, at_j, avoids⟩
    by_contra before
    rw [← w.getElem?_upTo above' below'] at at_j
    have less := leads.first (j - w.lo) x (by omega) at_j
    exact avoids l.index l.elem above below here (Std.OrientedCmp.gt_iff_lt.mpr less)

theorem avoids_swap [Std.OrientedCmp cmp] (i : Nat) :
    w.Avoids (fun x y => cmp y x) .gt i ↔ w.Avoids cmp .lt i := by
  simp only [Avoids, ne_eq, Std.OrientedCmp.gt_iff_lt]

theorem summaryBy_id [Std.TransCmp cmp] :
    w.summaryBy (m := Id) cmp = summarized w.size (Extremes.ofList cmp w.lo (w.upTo w.hi)) := by
  have found : forkPieces (m := Id) _ (Extremes.leaf cmp) (Extremes.join cmp) _ w.lo = _ :=
    Extremes.forkPieces_id (w.array.leafThreshold w.size) w.part w.lo
  rw [toList_part] at found
  rw [← found]
  rfl

theorem costs_summaryBy [Std.TransCmp cmp] :
    (w.summaryBy (Extremes.compared ε cmp)).Costs (2 * (w.size - 1))
      (summarized w.size (Extremes.ofList cmp w.lo (w.upTo w.hi))) := by
  have found : (forkPieces (w.array.leafThreshold w.size) (Extremes.leaf (Extremes.compared ε cmp))
      (Extremes.join (Extremes.compared ε cmp)) w.part w.lo).Costs _ _ :=
    Extremes.costs_forkPieces _ w.part w.lo
  rw [toList_part, size_part] at found
  rw [summaryBy, begin_silent (fun _ => rfl), pure_bind]
  exact Costs.bind (k := 0) found (costs_pure _)

/-- A summary of a window by a total preorder counts its elements, and tells the lowest index whose
element is not greater than any, the lowest index whose element is not less than any, and these
elements; there is none of it in an empty window. However the halves take turns, the comparator is
called twice for each element but the first, at any threshold. -/
theorem summaryBy_extremes (cmp : α → α → Ordering) [Std.TransCmp cmp] :
    let s : Summary α := w.summaryBy (m := Id) cmp
    s.count = w.hi - w.lo ∧
    (w.lo = w.hi → s.min = none ∧ s.max = none ∧ s.minIndex = none ∧ s.maxIndex = none) ∧
    (w.lo < w.hi → ∃ i j, s.minIndex = some i ∧ IsLeast {i | w.Avoids cmp .gt i} i ∧
      s.min = w.get? i ∧ s.maxIndex = some j ∧ IsLeast {j | w.Avoids cmp .lt j} j ∧
      s.max = w.get? j) ∧
    (w.summaryBy fun x y => .call (x, y) (.ok (cmp x y)) : Concurrent (α × α) ε (Summary α)).Always
      fun calls r => r = .ok s ∧ calls.length = 2 * (w.hi - w.lo - 1) := by
  intro s
  have value : s = summarized w.size (Extremes.ofList cmp w.lo (w.upTo w.hi)) := w.summaryBy_id
  have length : (w.upTo w.hi).length = w.hi - w.lo := w.length_upTo
  have calls : (w.summaryBy (Extremes.compared ε cmp)).Costs (2 * (w.hi - w.lo - 1)) s := by
    rw [value]
    exact w.costs_summaryBy
  refine ⟨?_, fun empty => ?_, fun nonempty => ?_, calls⟩
  · rw [value]
    rfl
  · have vanish : w.upTo w.hi = [] := List.length_eq_zero_iff.mp (by omega)
    rw [value, vanish]
    exact ⟨rfl, rfl, rfl, rfl⟩
  · have some_elem : w.upTo w.hi ≠ [] := List.ne_nil_of_length_pos (by omega)
    obtain ⟨e, found, bounds⟩ := Extremes.exists_ofList cmp w.lo some_elem
    obtain ⟨least, lowest⟩ := w.isLeast_of_leads bounds.least
    obtain ⟨greatest, lowest'⟩ := w.isLeast_of_leads bounds.greatest
    simp only [avoids_swap] at lowest'
    rw [value, found]
    exact ⟨_, _, rfl, lowest, least.symm, rfl, lowest', greatest.symm⟩

/-- By their halves 1 and 0 are both least, and 9 and 8 both greatest: the first of each is told. -/
theorem summaryBy_extremes_ties :
    let cmp : Nat → Nat → Ordering := compareOn (· / 2)
    let array : BulkArray Nat := ⟨default, some ⟨1, by decide⟩, .cells #[0, 5, 1, 8, 0, 9, 4, 9]⟩
    let w : Window Nat := ⟨array, 1, 7, by decide, by decide⟩
    let s : Summary Nat := w.summaryBy (m := Id) cmp
    Std.TransCmp cmp ∧ s.minIndex = some 2 ∧ s.maxIndex = some 3 ∧
    (w.summaryBy fun x y => .call (x, y) (.ok (cmp x y)) :
      Concurrent (Nat × Nat) Empty (Summary Nat)).Always fun calls r =>
        r = .ok s ∧ calls.length = 10 := by
  intro cmp array w s
  have order : Std.TransCmp cmp := inferInstanceAs (Std.TransCmp (compareOn _))
  obtain ⟨-, -, -, calls⟩ := w.summaryBy_extremes cmp (ε := Empty)
  exact ⟨order, by decide +kernel, by decide +kernel, calls⟩

end Window

end Bisection
