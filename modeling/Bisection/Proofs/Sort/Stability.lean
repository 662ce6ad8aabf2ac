import Bisection.Proofs.Pieces.Concurrency
import Bisection.Proofs.Sort.Quarters

/-!
# Elements that compare equal

A total preorder may find distinct elements equal. A sort is stable if such elements keep their
order, and then there is only one outcome that it can have. A merge takes the left one of two equal
elements, so the merge of two runs in order is stable, and as the parallel merge writes the same it
is stable too. Insertion exchanges neighbours only if the later one is less than the earlier one.
Thus a sort is stable if all its leaves are short enough for insertion.
-/

namespace Bisection
set_option autoImplicit false

variable {α : Type} {cmp : α → α → Ordering}

/-! ## Ties -/

/-- The elements of a list that are equal to `z`, in their order. -/
def ties (cmp : α → α → Ordering) (z : α) (xs : List α) : List α :=
  xs.filter fun x => (cmp z x).isEq

/-- A list holds the elements of another in order, those that are equal in the order in which the
other has them. -/
structure SortsStably (cmp : α → α → Ordering) (sorted given : List α) : Prop
    extends Sorts cmp sorted given where
  ties : ∀ z, ties cmp z sorted = ties cmp z given

/-- A list is the stable merge of two runs: it has the elements of each run in their order, is in
order itself, and has those of the left run before those of the right one that are equal to them. -/
structure StableMerge (cmp : α → α → Ordering) (left right merged : List α) : Prop
    extends SortsStably cmp merged (left ++ right) where
  turns : Interleaved left right merged

theorem ties_append (z : α) (xs ys : List α) :
    ties cmp z (xs ++ ys) = ties cmp z xs ++ ties cmp z ys :=
  List.filter_append xs ys

theorem ties_cons_of_eq {z x : α} (eq : cmp z x = .eq) (xs : List α) :
    ties cmp z (x :: xs) = x :: ties cmp z xs :=
  List.filter_cons_of_pos (Ordering.isEq_iff_eq_eq.mpr eq)

theorem ties_cons_of_ne {z x : α} (ne : cmp z x ≠ .eq) (xs : List α) :
    ties cmp z (x :: xs) = ties cmp z xs :=
  List.filter_cons_of_neg (mt Ordering.isEq_iff_eq_eq.mp ne)

theorem mem_ties {z x : α} {xs : List α} : x ∈ ties cmp z xs ↔ x ∈ xs ∧ cmp z x = .eq := by
  rw [ties, List.mem_filter, Ordering.isEq_iff_eq_eq]

section
variable [Std.TransCmp cmp]

/-- An element is not equal to what is greater than an element that it is equal to. -/
theorem ne_eq_of_lt {x y z : α} (less : cmp x y = .lt) (eq : cmp z x = .eq) : cmp z y ≠ .eq := by
  rw [Std.TransCmp.congr_left eq, less]
  exact nofun

theorem ties_eq_nil_of_lt {x z : α} {xs : List α} (less : ∀ y ∈ xs, cmp x y = .lt)
    (eq : cmp z x = .eq) : ties cmp z xs = [] := by
  refine List.eq_nil_iff_forall_not_mem.mpr fun y mem => ?_
  obtain ⟨mem, tied⟩ := mem_ties.mp mem
  exact ne_eq_of_lt (less y mem) eq tied

/-- A list in order is determined by its ties. -/
theorem InOrder.eq_of_ties {xs ys : List α} (hxs : InOrder cmp xs) (hys : InOrder cmp ys)
    (same : ∀ z, ties cmp z xs = ties cmp z ys) : xs = ys := by
  have self (x : α) : cmp x x = .eq := Std.ReflCmp.compare_self
  have mem {xs ys : List α} (same : ∀ z, ties cmp z xs = ties cmp z ys) {x : α} (h : x ∈ xs) :
      x ∈ ys := by
    have kept : x ∈ ties cmp x xs := mem_ties.mpr ⟨h, self x⟩
    rw [same] at kept
    exact (mem_ties.mp kept).1
  induction xs generalizing ys with
  | nil =>
    cases ys with
    | nil => rfl
    | cons y ys => cases mem (fun z => (same z).symm) List.mem_cons_self
  | cons x xs ih =>
    cases ys with
    | nil => cases mem same List.mem_cons_self
    | cons y ys =>
      obtain ⟨lowest, behind⟩ := List.pairwise_cons.mp hxs
      obtain ⟨lowest', behind'⟩ := List.pairwise_cons.mp hys
      -- Each of the first elements is somewhere in the other list, so neither is greater.
      have le : (cmp x y).isLE := by
        rcases List.mem_cons.mp (mem (fun z => (same z).symm) List.mem_cons_self) with rfl | h
        · exact Std.ReflCmp.isLE_rfl
        · exact lowest y h
      have ge : (cmp y x).isLE := by
        rcases List.mem_cons.mp (mem same List.mem_cons_self) with rfl | h
        · exact Std.ReflCmp.isLE_rfl
        · exact lowest' x h
      have eq : cmp x y = .eq := Std.OrientedCmp.isLE_antisymm le ge
      have first := same x
      rw [ties_cons_of_eq (self x), ties_cons_of_eq eq, List.cons.injEq] at first
      obtain ⟨rfl, -⟩ := first
      have rest (z : α) : ties cmp z xs = ties cmp z ys := by
        have at_z := same z
        by_cases tied : cmp z x = .eq
        · rw [ties_cons_of_eq tied, ties_cons_of_eq tied] at at_z
          exact List.tail_eq_of_cons_eq at_z
        · rwa [ties_cons_of_ne tied, ties_cons_of_ne tied] at at_z
      rw [ih behind behind' rest]

/-- A stable sort has one outcome only. -/
theorem SortsStably.unique {sorted sorted' given : List α} (sorts : SortsStably cmp sorted given)
    (sorts' : SortsStably cmp sorted' given) : sorted = sorted' :=
  sorts.inOrder.eq_of_ties sorts'.inOrder fun z => (sorts.ties z).trans (sorts'.ties z).symm

end

/-! ## Merges -/

/-- A merge takes its elements from both lists in turns. -/
theorem interleaved_mergeLists (cmp : α → α → Ordering) (xs ys : List α) :
    Interleaved xs ys (mergeLists cmp xs ys) := by
  unfold mergeLists
  induction xs generalizing ys with
  | nil =>
    rw [List.nil_merge]
    exact .append [] ys
  | cons x xs ihx =>
    induction ys with
    | nil =>
      have all := Interleaved.append (x :: xs) []
      rw [List.append_nil] at all
      rwa [List.merge_right]
    | cons y ys ihy =>
      rw [List.cons_merge_cons]
      split
      · exact .left (ihx (y :: ys))
      · exact .right ihy

section
variable [Std.TransCmp cmp]

/-- Of equal elements, a merge has those of a list in order before those of the other list. -/
theorem ties_mergeLists {xs : List α} (hxs : InOrder cmp xs) (ys : List α) (z : α) :
    ties cmp z (mergeLists cmp xs ys) = ties cmp z xs ++ ties cmp z ys := by
  unfold mergeLists
  induction xs generalizing ys with
  | nil =>
    rw [List.nil_merge]
    rfl
  | cons x xs ihx =>
    obtain ⟨lowest, rest⟩ := List.pairwise_cons.mp hxs
    induction ys with
    | nil =>
      rw [List.merge_right]
      exact (List.append_nil _).symm
    | cons y ys ihy =>
      rw [List.cons_merge_cons]
      split
      · by_cases tied : cmp z x = .eq
        · rw [ties_cons_of_eq tied, ties_cons_of_eq tied, ihx rest, List.cons_append]
        · rw [ties_cons_of_ne tied, ties_cons_of_ne tied, ihx rest]
      · next greater =>
        by_cases tied : cmp z y = .eq
        · -- Nothing that is left of the left list is equal to `y`.
          have less : cmp y x = .lt :=
            Std.OrientedCmp.gt_iff_lt.mp (Ordering.isLE_eq_false.mp (eq_false_of_ne_true greater))
          have none : ties cmp z (x :: xs) = [] := by
            refine ties_eq_nil_of_lt (fun w mem => ?_) tied
            rcases List.mem_cons.mp mem with rfl | mem
            · exact less
            · exact Std.TransCmp.lt_of_lt_of_isLE less (lowest w mem)
          rw [ties_cons_of_eq tied, ties_cons_of_eq tied, ihy, none]
          rfl
        · rw [ties_cons_of_ne tied, ties_cons_of_ne tied, ihy]

theorem stableMerge_mergeLists {xs ys : List α} (hxs : InOrder cmp xs) (hys : InOrder cmp ys) :
    StableMerge cmp xs ys (mergeLists cmp xs ys) where
  perm := mergeLists_perm cmp xs ys
  inOrder := hxs.mergeLists cmp hys
  ties z := by rw [ties_mergeLists hxs, ties_append]
  turns := interleaved_mergeLists cmp xs ys

theorem SortsStably.merge (t : Threshold) {a b : Nat} {left : Vector α a} {right : Vector α b}
    {given given' : List α} (hleft : SortsStably cmp left.toList given)
    (hright : SortsStably cmp right.toList given') (dest : Vector α (a + b)) :
    SortsStably cmp (merge (m := Id) t cmp left right dest).toList (given ++ given') where
  toSorts := hleft.toSorts.merge t hright.toSorts dest
  ties z := by
    rw [toList_merge t left right dest hleft.inOrder hright.inOrder,
      ties_mergeLists hleft.inOrder, hleft.ties, hright.ties, ties_append]

end

/-! ## Insertion -/

namespace Run
variable {n : Nat}

/-- The elements of a run around two neighbours. -/
theorem toList_neighbours (v : Run α n) {j : Nat} (here : j < n) (next : j + 1 < n) :
    v.store.toList =
      v.store.toList.take j ++ v[j] :: v[j + 1] :: v.store.toList.drop (j + 2) := by
  have at_j := v.getElem?_toList j here
  have at_next := v.getElem?_toList (j + 1) next
  obtain ⟨lt, at_j⟩ := List.getElem?_eq_some_iff.mp at_j
  obtain ⟨lt', at_next⟩ := List.getElem?_eq_some_iff.mp at_next
  have back := List.take_append_drop j v.store.toList
  rw [List.drop_eq_getElem_cons lt, List.drop_eq_getElem_cons lt', at_j, at_next] at back
  exact back.symm

theorem getElem?_toList_swap (v : Run α n) {i j k : Nat} (hi : i < n) (hj : j < n) (at_i : k ≠ i)
    (at_j : k ≠ j) : (v.swap i j hi hj).store.toList[k]? = v.store.toList[k]? := by
  by_cases hk : k < n
  · rw [getElem?_toList _ k hk, getElem?_toList _ k hk, getElem_swap v hi hj hk, if_neg at_i,
      if_neg at_j]
  · have outside (w : Run α n) : w.store.toList[k]? = none := by
      apply List.getElem?_eq_none
      rw [Store.length_toList, w.size_eq]
      exact Nat.le_of_not_lt hk
    rw [outside, outside]

/-- Two neighbours that were exchanged. -/
theorem toList_swap_neighbours (v : Run α n) {j : Nat} (here : j < n) (next : j + 1 < n) :
    (v.swap (j + 1) j next here).store.toList =
      v.store.toList.take j ++ v[j + 1] :: v[j] :: v.store.toList.drop (j + 2) := by
  have front : (v.swap (j + 1) j next here).store.toList.take j = v.store.toList.take j := by
    refine List.ext_getElem? fun k => ?_
    rw [List.getElem?_take, List.getElem?_take]
    split
    · exact v.getElem?_toList_swap next here (by omega) (by omega)
    · rfl
  have back : (v.swap (j + 1) j next here).store.toList.drop (j + 2) =
      v.store.toList.drop (j + 2) := by
    refine List.ext_getElem? fun k => ?_
    rw [List.getElem?_drop, List.getElem?_drop]
    exact v.getElem?_toList_swap next here (by omega) (by omega)
  rw [toList_neighbours (v.swap (j + 1) j next here) here next, front, back,
    v.getElem_swap next here here, v.getElem_swap next here next,
    if_neg (Nat.ne_of_lt (Nat.lt_succ_self j)), if_pos rfl, if_pos rfl]

end Run

namespace Quicksort
variable [Std.TransCmp cmp] {n : Nat}

/-- Exchanging two neighbours the later of which is less keeps all ties. -/
theorem ties_swap (v : Run α n) {j : Nat} (here : j < n) (next : j + 1 < n)
    (less : cmp v[j + 1] v[j] = .lt) (z : α) :
    ties cmp z (v.swap (j + 1) j next here).store.toList = ties cmp z v.store.toList := by
  have around := congrArg (ties cmp z) (v.toList_neighbours here next)
  rw [ties_append] at around
  rw [v.toList_swap_neighbours here next, ties_append, around]
  refine congrArg _ ?_
  by_cases tied : cmp z v[j + 1] = .eq
  · have apart := ne_eq_of_lt less tied
    rw [ties_cons_of_eq tied, ties_cons_of_ne apart, ties_cons_of_ne apart, ties_cons_of_eq tied]
  · rw [ties_cons_of_ne tied]
    by_cases tied' : cmp z v[j] = .eq
    · rw [ties_cons_of_eq tied', ties_cons_of_eq tied', ties_cons_of_ne tied]
    · rw [ties_cons_of_ne tied', ties_cons_of_ne tied', ties_cons_of_ne tied]

theorem ties_sink (v : Run α n) (j : Nat) (hj : j < n) (z : α) :
    let w : Run α n := sink (m := Id) cmp v j hj
    ties cmp z w.store.toList = ties cmp z v.store.toList := by
  induction v, j, hj using sink.induct with
  | case1 v hj => exact rfl
  | case2 v j hj ih =>
    intro w
    unfold w
    rw [sink_succ]
    split
    · next less => exact ih.trans (ties_swap v (Nat.lt_of_succ_lt hj) hj less z)
    · rfl

theorem ties_insertFrom (i : Nat) (v : Run α n) (z : α) :
    let w : Run α n := insertFrom (m := Id) cmp i v
    ties cmp z w.store.toList = ties cmp z v.store.toList := by
  induction i, v using insertFrom.induct (n := n) with
  | case1 i v hi ih =>
    intro w
    unfold w
    rw [insertFrom, dif_pos hi]
    exact (ih _).trans (ties_sink v i hi z)
  | case2 i v hi =>
    intro w
    unfold w
    rw [insertFrom, dif_neg hi]
    rfl

end Quicksort

/-! ## Sorts -/

section
variable [Std.TransCmp cmp]

/-- The sort of a leaf that is short enough for insertion is stable. -/
theorem sortsStably_quicksort {s : Store α} (short : s.size ≤ Quicksort.insertionLimit) :
    SortsStably cmp (quicksort (m := Id) cmp s).toList s.toList where
  toSorts := sorts_quicksort s
  ties z := by
    rw [quicksort, dif_pos short]
    show ties cmp z (Run.toVector _).toList = _
    rw [Run.toList_toVector]
    exact Quicksort.ties_insertFrom 1 (Run.ofStore s) z

theorem sortsStably_sortIntoPlace {t : Threshold} (small : t.val ≤ Quicksort.insertionLimit)
    {n : Nat} (data work : Vector α n) :
    let out : Vector α n × Vector α n := sortIntoPlace (m := Id) t cmp data work
    SortsStably cmp out.1.toList data.toList := by
  apply sortIntoPlace_rel_of_leaves t Merge.partitionPoint
  · intro leaf short
    exact sortsStably_quicksort (Nat.le_trans short small)
  · intro a b left right given given' dest hleft hright
    exact hleft.merge t hright dest

/-- A sort all of whose leaves are sorted by insertion is stable. -/
theorem sortsStably_sortBy {t : Threshold} {s : Store α}
    (short : t.val ≤ Quicksort.insertionLimit ∨ s.size ≤ Quicksort.insertionLimit) :
    let sorted : Array α := sortBy (m := Id) t cmp s
    SortsStably cmp sorted.toList s.toList := by
  intro sorted
  unfold sorted sortBy
  split
  · next leaf =>
    exact sortsStably_quicksort (short.elim (Nat.le_trans leaf) id)
  · next long =>
    have small : t.val ≤ Quicksort.insertionLimit :=
      short.elim id fun few => Nat.le_trans (Nat.le_of_not_le long) few
    let data : Vector α s.size := ⟨s.toArray, s.size_toArray⟩
    have given : data.toList = s.toList := s.toList_toArray
    rw [← given]
    exact sortsStably_sortIntoPlace small data data

theorem sortsStably_mergeSort (xs : List α) :
    SortsStably cmp (xs.mergeSort fun x y => (cmp x y).isLE) xs where
  toSorts := sorts_mergeSort xs
  ties z := by
    -- The elements that are equal to `z` are in order, so they keep theirs.
    have level : (ties cmp z xs).Pairwise fun x y => (cmp x y).isLE := by
      refine List.pairwise_of_forall_mem_list fun x hx y hy => ?_
      rw [← Std.TransCmp.congr_left (mem_ties.mp hx).2, (mem_ties.mp hy).2]
      rfl
    have part : (ties cmp z xs).Sublist (xs.mergeSort fun x y => (cmp x y).isLE) :=
      List.sublist_mergeSort (fun _ _ _ => Std.TransCmp.isLE_trans)
        (fun x y => (Bool.or_eq_true _ _).mpr (isLE_total x y)) level List.filter_sublist
    have kept := part.filter fun x => (cmp z x).isEq
    rw [List.filter_eq_self.mpr fun x mem => Ordering.isEq_iff_eq_eq.mpr (mem_ties.mp mem).2]
      at kept
    exact (kept.eq_of_length ((List.mergeSort_perm _ _).filter _).length_eq.symm).symm

end

/-- For every threshold the merge of two runs in order is what a merge of one element after the
other writes, whatever was in its destination. This is the stable merge: each run keeps its order,
and of equal elements those of the left run come first. No other list is a stable merge of the
runs. -/
theorem merge_stable (t : Threshold) (cmp : α → α → Ordering) [Std.TransCmp cmp] {a b : Nat}
    (left : Vector α a) (right : Vector α b) (hleft : InOrder cmp left.toList)
    (hright : InOrder cmp right.toList) (dest dest' : Vector α (a + b)) :
    let merged : Vector α (a + b) := merge (m := Id) t cmp left right dest
    merged = Merge.mergeRuns (m := Id) cmp left right dest' ∧
    StableMerge cmp left.toList right.toList merged.toList ∧
    ∀ out, StableMerge cmp left.toList right.toList out → out = merged.toList := by
  intro merged
  have written : merged.toList = mergeLists cmp left.toList right.toList :=
    toList_merge t left right dest hleft hright
  have stable : StableMerge cmp left.toList right.toList merged.toList := by
    rw [written]
    exact stableMerge_mergeLists hleft hright
  refine ⟨?_, stable, fun out other => other.toSortsStably.unique stable.toSortsStably⟩
  rw [← Vector.toList_inj, written]
  exact (Merge.toList_mergeRuns cmp left right dest').symm

/-- Halves are compared, so each number ties with its neighbour. -/
theorem merge_stable_halves :
    let cmp : Nat → Nat → Ordering := compareOn (· / 2)
    let left : Vector Nat 4 := #v[3, 2, 5, 4]
    let right : Vector Nat 4 := #v[2, 3, 4, 7]
    let dest : Vector Nat 8 := #v[0, 0, 0, 0, 0, 0, 0, 0]
    let merged : Vector Nat 8 := merge (m := Id) ⟨1, by decide⟩ cmp left right dest
    Std.TransCmp cmp ∧ InOrder cmp left.toList ∧ InOrder cmp right.toList ∧
    merged = Merge.mergeRuns (m := Id) cmp left right dest ∧
    StableMerge cmp left.toList right.toList merged.toList ∧
    ∀ out, StableMerge cmp left.toList right.toList out → out = merged.toList := by
  intro cmp left right dest merged
  have order : Std.TransCmp cmp := inferInstanceAs (Std.TransCmp (compareOn _))
  have hleft : InOrder cmp left.toList := by decide
  have hright : InOrder cmp right.toList := by decide
  exact ⟨order, hleft, hright, merge_stable _ cmp left right hleft hright dest dest⟩

/-- If the threshold is at most eight, or there are no more than eight elements, a sort is the
stable sort: equal elements keep the order in which they were given. There is one stable sort only,
so thresholds up to eight make no difference. -/
theorem sortBy_stable (cmp : α → α → Ordering) [Std.TransCmp cmp] (s : Store α) :
    let stable := s.toList.mergeSort fun x y => (cmp x y).isLE
    (∀ out, SortsStably cmp out s.toList ↔ out = stable) ∧
    (∀ t : Threshold, t.val ≤ 8 ∨ s.size ≤ 8 →
      Array.toList (sortBy (m := Id) t cmp s) = stable) ∧
    ∀ t t' : Threshold, t.val ≤ 8 → t'.val ≤ 8 →
      sortBy (m := Id) t cmp s = sortBy (m := Id) t' cmp s := by
  intro stable
  have sorts : SortsStably cmp stable s.toList := sortsStably_mergeSort s.toList
  have each (t : Threshold) (short : t.val ≤ 8 ∨ s.size ≤ 8) :
      Array.toList (sortBy (m := Id) t cmp s) = stable :=
    SortsStably.unique (sortsStably_sortBy short) sorts
  refine ⟨fun out => ⟨fun sorts' => sorts'.unique sorts, fun eq => eq ▸ sorts⟩, each,
    fun t t' small small' => Array.toList_inj.mp ?_⟩
  exact (each t (.inl small)).trans (each t' (.inl small')).symm

/-- Ten numbers of which halves are compared, in quarters. -/
theorem sortBy_stable_halves :
    let cmp : Nat → Nat → Ordering := compareOn (· / 2)
    let s : Store Nat := .cells #[9, 5, 1, 8, 4, 0, 7, 3, 6, 2]
    let sorted : Array Nat := sortBy (m := Id) ⟨1, by decide⟩ cmp s
    Std.TransCmp cmp ∧ SortsStably cmp sorted.toList s.toList ∧
    sorted = sortBy (m := Id) ⟨8, by decide⟩ cmp s := by
  intro cmp s sorted
  have order : Std.TransCmp cmp := inferInstanceAs (Std.TransCmp (compareOn _))
  obtain ⟨only, each, same⟩ := sortBy_stable cmp s
  exact ⟨order, (only _).mpr (each _ (.inl (by decide))), same _ _ (by decide) (by decide)⟩

end Bisection
