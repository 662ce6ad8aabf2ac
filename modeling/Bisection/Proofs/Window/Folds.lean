import Bisection.Proofs.Sort.Order
import Bisection.Proofs.Window.Reduction
import Bisection.Proofs.Window.Values

/-!
# Folds of a window

What is combined along a tree is the fold from the left if it is combined associatively. This is so
for the totals, by assumption on the operator, and for the extremes, since the earlier of two equal
elements is kept and comparators are total preorders.
-/

namespace Bisection
set_option autoImplicit false

/-! ## Running totals -/

namespace Scan
variable {α : Type} {op : α → α → α} (assoc : Std.Associative op) (t : Threshold)
include assoc

/-- A scan leaves the running totals of a single leaf. -/
theorem result_eq_running (mode : Mode) (base : α) (xs : List α) :
    Reference.result t op mode true base xs = Reference.running op mode base xs := by
  refine List.ext_getElem? fun i => ?_
  by_cases lt : i < xs.length
  · have start : Bracketing op [base] base := .single base
    obtain ⟨y, at_i, brackets⟩ := start.result t mode true lt
    obtain ⟨z, at_i', brackets'⟩ := start.running mode lt
    rw [at_i, at_i', brackets.eq_foldl assoc, brackets'.eq_foldl assoc]
  · rw [List.getElem?_eq_none (by simpa using lt), List.getElem?_eq_none (by simpa using lt)]

theorem edgeTotal_eq_foldl (base : α) (xs : List α) :
    Reference.edgeTotal t op base xs = xs.foldl op base :=
  ((Bracketing.single base).edgeTotal xs).eq_foldl assoc

theorem scan_plain (mode : Mode) (base : α) (elems : Store α) :
    let found : Store α × α := scan (m := Id) t op mode base elems
    found.1.toArray = (Reference.running op mode base elems.toList).toArray ∧
      found.2 = elems.toList.foldl op base := by
  intro found
  obtain ⟨final, total⟩ := scan_id t op mode base elems
  rw [result_eq_running assoc] at final
  rw [edgeTotal_eq_foldl assoc] at total
  exact ⟨Array.toList_inj.mp ((Store.toList_toArray _).trans final), total⟩

end Scan

/-! ## Extremes -/

namespace Extremes
variable {α : Type} {cmp : α → α → Ordering}

/-- The lesser of two by plain comparisons. -/
def earliest (cmp : α → α → Ordering) (x y : Located α) : Located α :=
  if cmp y.elem x.elem = .lt then y else x

theorem lesser_id (x y : Located α) : lesser (m := Id) cmp x y = earliest cmp x y := by
  rw [lesser, earliest]
  cases cmp y.elem x.elem <;> rfl

theorem greater_id [Std.OrientedCmp cmp] (x y : Located α) :
    greater (m := Id) cmp x y = earliest (fun x y => cmp y x) x y := by
  have back : cmp y.elem x.elem = (cmp x.elem y.elem).swap := Std.OrientedCmp.eq_swap
  rw [greater, earliest, back]
  cases cmp x.elem y.elem <;> rfl

theorem earliest_of_lt {x y : Located α} (less : cmp y.elem x.elem = .lt) :
    earliest cmp x y = y := if_pos less

theorem earliest_of_not_lt {x y : Located α} (other : ¬ cmp y.elem x.elem = .lt) :
    earliest cmp x y = x := if_neg other

/-- Of three in a row the earliest that no other is less than, however they are paired. -/
theorem earliest_assoc [Std.TransCmp cmp] (x y z : Located α) :
    earliest cmp (earliest cmp x y) z = earliest cmp x (earliest cmp y z) := by
  by_cases first : cmp y.elem x.elem = .lt
  · by_cases second : cmp z.elem y.elem = .lt
    · have third : cmp z.elem x.elem = .lt := Std.TransCmp.lt_trans second first
      rw [earliest_of_lt first, earliest_of_lt second, earliest_of_lt third]
    · rw [earliest_of_lt first, earliest_of_not_lt second, earliest_of_lt first]
  · by_cases second : cmp z.elem y.elem = .lt
    · rw [earliest_of_not_lt first, earliest_of_lt second]
    · have third : ¬ cmp z.elem x.elem = .lt := fun less => by
        have le : (cmp x.elem z.elem).isLE :=
          Std.TransCmp.isLE_trans (isLE_of_not_lt first) (isLE_of_not_lt second)
        have back : cmp x.elem z.elem = (cmp z.elem x.elem).swap := Std.OrientedCmp.eq_swap
        rw [back, less] at le
        cases le
      rw [earliest_of_not_lt first, earliest_of_not_lt second, earliest_of_not_lt first,
        earliest_of_not_lt third]

/-- The extremes of two adjacent parts by plain comparisons. -/
def beside (cmp : α → α → Ordering) (x y : Option (Extremes α)) : Option (Extremes α) :=
  join (m := Id) cmp x y

theorem beside_none (x : Option (Extremes α)) : beside cmp x none = x := by
  cases x <;> rfl

theorem none_beside (x : Option (Extremes α)) : beside cmp none x = x := by
  cases x <;> rfl

theorem beside_some [Std.OrientedCmp cmp] (x y : Extremes α) :
    beside cmp (some x) (some y) = some ⟨earliest cmp x.least y.least,
      earliest (fun x y => cmp y x) x.greatest y.greatest⟩ := by
  rw [← lesser_id, ← greater_id]
  rfl

instance [Std.TransCmp cmp] : Std.Associative (beside cmp) where
  assoc x y z := by
    rcases x with - | x
    · rw [none_beside, none_beside]
    · rcases y with - | y
      · rw [beside_none, none_beside]
      · rcases z with - | z
        · rw [beside_none, beside_none]
        · simp only [beside_some, earliest_assoc]

/-- The extremes of elements that start at an index. -/
def ofList (cmp : α → α → Ordering) (lo : Nat) (xs : List α) : Option (Extremes α) :=
  (xs.zipIdx lo).foldl (fun found p => beside cmp found (some (one p.2 p.1))) none

theorem ofList_append [Std.TransCmp cmp] (lo : Nat) (xs ys : List α) :
    ofList cmp lo (xs ++ ys) =
      beside cmp (ofList cmp lo xs) (ofList cmp (lo + xs.length) ys) := by
  have fold (ps : List (α × Nat)) (found : Option (Extremes α)) :
      ps.foldl (fun found p => beside cmp found (some (one p.2 p.1))) found =
        beside cmp found
          (ps.foldl (fun found p => beside cmp found (some (one p.2 p.1))) none) := by
    have all : (ps.map fun p => some (one p.2 p.1)).foldl (beside cmp) (beside cmp found none) =
        beside cmp found ((ps.map fun p => some (one p.2 p.1)).foldl (beside cmp) none) :=
      List.foldl_assoc
    rwa [beside_none, List.foldl_map, List.foldl_map] at all
  rw [ofList, List.zipIdx_append, List.foldl_append, fold]
  rfl

/-- The first of elements that are alike is both the least and the greatest. -/
theorem ofList_replicate [Std.TransCmp cmp] (x : α) (lo n : Nat) :
    ofList cmp lo (List.replicate (n + 1) x) = some (one lo x) := by
  have self : cmp x x = .eq := Std.ReflCmp.compare_self
  have kept (i : Nat) : ¬ cmp (Located.mk i x).elem x = .lt := by
    rw [self]
    decide
  induction n with
  | zero => rfl
  | succ n ih =>
    rw [List.replicate_succ', ofList_append, ih]
    show beside cmp (some (one lo x)) (some (one _ x)) = _
    rw [beside_some, one, one, earliest_of_not_lt (kept _), earliest_of_not_lt (kept _)]

/-- What a leaf does with the extremes so far, the index of the next element, and the element. -/
def visit {m : Type → Type} [Monad m] (cmp : α → α → m Ordering) (p : Option (Extremes α) × Nat)
    (x : α) : m (Option (Extremes α) × Nat) := do
  pure (← join cmp p.1 (some (one p.2 x)), p.2 + 1)

theorem leaf_eq_visit {m : Type → Type} [Monad m] [LawfulMonad m] (cmp : α → α → m Ordering)
    (s : Store α) (lo : Nat) :
    leaf cmp s lo = Prod.fst <$> s.toList.foldlM (visit cmp) (none, lo) := by
  rw [leaf, Store.foldlM_eq_foldlM_toList, map_eq_pure_bind]
  rfl

theorem leaf_id (s : Store α) (lo : Nat) : leaf (m := Id) cmp s lo = ofList cmp lo s.toList := by
  have round (xs : List α) (found : Option (Extremes α)) (lo : Nat) :
      (xs.foldlM (m := Id) (visit cmp) (found, lo)).1 =
        (xs.zipIdx lo).foldl (fun found p => beside cmp found (some (one p.2 p.1))) found := by
    induction xs generalizing found lo with
    | nil => rfl
    | cons x xs ih => exact ih _ _
  rw [leaf_eq_visit]
  exact round s.toList none lo

/-- The extremes of a store are those of both its halves. -/
theorem ofList_halves [Std.TransCmp cmp] (s : Store α) (lo : Nat) :
    ofList cmp lo s.toList = beside cmp (ofList cmp lo (Piece.left s).toList)
      (ofList cmp (lo + Piece.size s / 2) (Piece.right s).toList) := by
  have halves : ofList cmp lo ((Piece.left s).toList ++ (Piece.right s).toList) = _ :=
    ofList_append lo (Piece.left s).toList (Piece.right s).toList
  have size : (Piece.left s).size = Piece.size s / 2 := size_left s
  rwa [Store.length_toList, size, toList_left, toList_right, List.take_append_drop,
    ← toList_left, ← toList_right] at halves

/-- However the elements are cut, their extremes are found. -/
theorem forkPieces_id [Std.TransCmp cmp] (t : Threshold) (s : Store α) (lo : Nat) :
    forkPieces (m := Id) t (leaf cmp) (join cmp) s lo = ofList cmp lo s.toList := by
  refine forkPieces_eq (m := Id) (fun s lo => ofList cmp lo s.toList) (fun s lo _ => leaf_id s lo)
    (fun s lo _ => ?_) s lo
  exact (ofList_halves s lo).symm

end Extremes

namespace Window

section
variable {ε α : Type} {m : Type → Type} [Monad m] [LawfulMonad m] [Fork ε m] [Reports m]
  {w : Window α} {T : Tracking w.lo m Id} {f : α → α → m α} {g : α → α → α}
  (same : ∀ x y, T.Same (f x y) (g x y)) (assoc : Std.Associative g)

include same assoc

theorem same_reduce (base : α) :
    T.Same (w.reduce base f) ((w.upTo w.hi).foldl g base) := by
  have tracks : T.Same (w.reduce base f) (w.alone.whole.reduce (m := Id) base g) :=
    tracks_reduce same
  rwa [reduce_id, reduced_eq_foldl assoc, upTo_alone] at tracks

theorem same_cumulate (base : α) : T.Same (w.cumulate base f)
    (w.refill (Scan.Reference.running g .inclusive base (w.upTo w.hi)).toArray) := by
  obtain ⟨elems, -⟩ := Scan.scan_plain assoc (w.alone.leafThreshold w.alone.whole.size) .inclusive
    base w.alone.whole.part
  have tracks : T.Rel w.Left (w.cumulate base f) (w.alone.whole.cumulate (m := Id) base g) :=
    tracks_cumulate same
  refine same_of_left tracks ?_
  rw [← upTo_alone, ← toList_part, ← elems]
  rfl

theorem same_precumulate (base : α) : T.Same (w.precumulate base f)
    (w.refill (Scan.Reference.running g .exclusive base (w.upTo w.hi)).toArray,
      (w.upTo w.hi).foldl g base) := by
  obtain ⟨elems, total⟩ := Scan.scan_plain assoc (w.alone.leafThreshold w.alone.whole.size)
    .exclusive base w.alone.whole.part
  have tracks : T.Rel (fun p q => w.Left p.1 q.1 ∧ p.2 = q.2) (w.precumulate base f)
    (w.alone.whole.precumulate (m := Id) base g) := tracks_precumulate same
  have back := same_of_rel tracks (fun q => (w.refill q.1.elems, q.2)) fun p q related => by
    obtain ⟨⟨xs, -, left, right⟩, eq⟩ := related
    rw [← eq, right, elems_refill, ← left]
  rw [← upTo_alone, ← toList_part, ← elems, ← total, ← elems_refill w.alone.whole (Store.toArray _)]
  exact back

end

/-- A summary of extremes that were found. -/
def summarized {α : Type} (count : Nat) (found : Option (Extremes α)) : Summary α where
  count := count
  min := found.map (·.least.elem)
  max := found.map (·.greatest.elem)
  minIndex := found.map (·.least.index)
  maxIndex := found.map (·.greatest.index)

section
variable {ε α : Type} {m : Type → Type} [Monad m] [LawfulMonad m] [Fork ε m] [Reports m]
  {w : Window α} {T : Tracking w.lo m Id}

theorem same_summaryBy {f : α → α → m Ordering} {g : α → α → Ordering} [Std.TransCmp g]
    (same : ∀ x y, T.Same (f x y) (g x y)) : T.Same (w.summaryBy f)
      ((summarized w.size (Extremes.ofList g 0 (w.upTo w.hi))).moved w.lo) := by
  have tracks : T.Rel (fun s s' => s = s'.moved w.lo) (w.summaryBy f)
    (w.alone.whole.summaryBy (m := Id) g) := tracks_summaryBy same
  have value : w.alone.whole.summaryBy (m := Id) g =
      summarized w.size (Extremes.ofList g 0 (w.upTo w.hi)) := by
    have found : forkPieces (m := Id) _ (Extremes.leaf g) (Extremes.join g) _ 0 = _ :=
      Extremes.forkPieces_id (w.alone.leafThreshold w.alone.whole.size) w.alone.whole.part 0
    rw [toList_part, upTo_alone] at found
    rw [← w.size_alone, ← found]
    rfl
  rw [← value]
  exact same_of_rel tracks _ fun _ _ eq => eq

/-- A summary in the natural order is one by its comparator, also where it makes no comparison. -/
theorem same_summary [Ord α] [Std.TransOrd α] : T.Same w.summary
    ((summarized w.size (Extremes.ofList compare 0 (w.upTo w.hi))).moved w.lo) := by
  rw [summary]
  cases uniform : w.part.uniform? with
  | some x =>
    obtain ⟨elems, nonempty, -⟩ := w.upTo_of_uniform? uniform
    obtain ⟨n, size⟩ := Nat.exists_eq_add_one.mpr nonempty
    rw [elems, size, Extremes.ofList_replicate]
    exact (same_begin T w _ _).bind_same fun _ => T.pure rfl
  | none => exact same_summaryBy fun _ _ => T.pure rfl

end

end Window

end Bisection
