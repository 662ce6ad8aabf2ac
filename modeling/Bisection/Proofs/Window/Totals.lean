import Bisection.Proofs.Scan.Bracketing
import Bisection.Proofs.Scan.Interleaving
import Bisection.Window.Totals

/-!
# The running totals of a window

What `cumulate` and `precumulate` leave in an array: at each index of the window a bracketing of the
base value and the elements of the window up to that index, and outside of the window what was
there. With an associative operator these are the folds from the left.
-/

namespace Bisection
set_option autoImplicit false

namespace Scan
variable {α : Type}

/-- A scan by plain functions leaves what the recursion does. -/
theorem scan_id (t : Threshold) (op : α → α → α) (mode : Mode) (base : α) (elems : Store α) :
    let found : Store α × α := scan (m := Id) t op mode base elems
    found.1.toList = Reference.result t op mode true base elems.toList ∧
      found.2 = Reference.edgeTotal t op base elems.toList := by
  by_cases empty : elems.size = 0
  · have nil : elems.toList = [] := by simpa [← List.length_eq_zero_iff] using empty
    have eq : scan (m := Id) t op mode base elems = (elems, base) := by
      rw [scan, if_pos empty]
      rfl
    rw [eq, nil, Reference.result_of_le _ _ (Nat.zero_le _),
      Reference.edgeTotal_of_le _ (Nat.zero_le _)]
    exact ⟨nil, rfl⟩
  · let J : Job α := ⟨t, op, mode, base, elems, Nat.pos_of_ne_zero empty⟩
    obtain ⟨n, run, -⟩ :=
      Machine.exists_reaches_run J.plan (Machine.stepBound J.nodes.size) J.start
    obtain ⟨L, accounts, -⟩ := run.accounts (.start J)
    obtain ⟨-, final, total⟩ := accounts.result (Machine.tasks_run J)
    have ends := accounts.stop
    have eq : scan (m := Id) t op mode base elems =
        (let m := J.start.run J.plan (Machine.stepBound J.nodes.size)
        (m.memory.elems, (m.memory.total? 0).getD base)) := by
      rw [scan, if_neg empty]
      change (Machine.run J.plan (Machine.stepBound J.nodes.size) J.start >>= _ : Id _) = _
      generalize (Machine.run J.plan (Machine.stepBound J.nodes.size) J.start) = m at ends
      obtain ⟨memory, tasks, stop⟩ := m
      obtain rfl : stop = none := ends
      rfl
    rw [eq]
    refine ⟨final, ?_⟩
    dsimp only
    rw [total, Job.total_root]
    rfl

end Scan

namespace Window
variable {α : Type}

/-- The elements of a window before an index. -/
def upTo (w : Window α) (i : Nat) : List α := (w.array.toList.take i).drop w.lo

theorem toList_part (w : Window α) : w.part.toList = w.upTo w.hi := by
  rw [part, Store.toList_slice]
  rfl

theorem size_part (w : Window α) : w.part.size = w.hi - w.lo := by
  have within : w.hi ≤ w.array.store.size := w.hi_le_size
  rw [part, Store.size_slice, Nat.min_eq_left within]

theorem length_upTo (w : Window α) : (w.upTo w.hi).length = w.size := by
  rw [← toList_part, Store.length_toList]
  exact w.size_part

theorem upTo_eq_take (w : Window α) {i : Nat} (lo : w.lo ≤ i) (hi : i ≤ w.hi) :
    w.upTo i = (w.upTo w.hi).take (i - w.lo) := by
  rw [upTo, upTo, List.take_drop, List.take_take, Nat.add_sub_cancel' lo, Nat.min_eq_left hi]

/-- What is in the array of a window after its elements were replaced by as many others. -/
theorem get?_refill (w : Window α) {xs : Array α} (size : xs.size = w.hi - w.lo) (i : Nat) :
    (w.refill xs).get? i =
      if w.lo ≤ i ∧ i < w.hi then xs[i - w.lo]? else w.get? i := by
  have within := w.hi_le_size
  have order := w.lo_le_hi
  have front : (w.array.store.toList.take w.lo).length = w.lo := by
    rw [List.length_take, Store.length_toList]
    exact Nat.min_eq_left (Nat.le_trans order within)
  rw [get?, get?, refill, ← Store.getElem?_toList, Store.toList_splice, List.append_assoc,
    List.getElem?_append, front, List.getElem?_append, Array.length_toList, size]
  split
  · next before =>
    rw [if_neg (by omega), List.getElem?_take, if_pos before, Store.getElem?_toList]
  · next behind =>
    split
    · next inside =>
      rw [if_pos (by omega), Array.getElem?_toList]
    · next outside =>
      rw [if_neg (by omega), List.getElem?_drop, ← Store.getElem?_toList]
      congr 1
      omega

/-- A window whose elements are replaced by what a scan of them leaves. -/
theorem scan_bracketing (w : Window α) (t : Threshold) (mode : Scan.Mode) (base : α)
    (op : α → α → α) :
    let found : Store α × α := Scan.scan (m := Id) t op mode base w.part
    let after := w.refill found.1.toArray
    (after.lo = w.lo ∧ after.hi = w.hi ∧ after.array.size = w.array.size) ∧
      (∀ i, ¬ (w.lo ≤ i ∧ i < w.hi) → after.get? i = w.get? i) ∧
      (∀ i, w.lo ≤ i → i < w.hi → ∃ y, after.get? i = some y ∧
        Scan.Bracketing op (base :: w.upTo (mode.taken i)) y) ∧
      Scan.Bracketing op (base :: w.upTo w.hi) found.2 := by
  obtain ⟨elems, total⟩ := Scan.scan_id t op mode base w.part
  generalize (Scan.scan (m := Id) t op mode base w.part : Store α × α) = found at elems total
  have within : w.hi ≤ w.array.store.size := w.hi_le_size
  have order := w.lo_le_hi
  have size : found.1.toArray.size = w.hi - w.lo := by
    rw [Store.size_toArray, ← Store.length_toList, elems, Scan.Reference.length_result,
      Store.length_toList, size_part]
  have start : Scan.Bracketing op [base] base := .single base
  refine ⟨⟨rfl, ?_, ?_⟩, fun i outside => ?_, fun i lo hi => ?_, ?_⟩
  · simp only [refill, size]
    omega
  · simp only [refill, BulkArray.size, Store.size_splice, size]
    omega
  · rw [get?_refill w size, if_neg outside]
  · have lt : i - w.lo < w.part.toList.length := by
      rw [Store.length_toList, size_part]
      omega
    obtain ⟨y, at_i, brackets⟩ := start.result t mode true lt
    have taken : w.upTo (mode.taken i) = w.part.toList.take (mode.taken (i - w.lo)) := by
      rw [toList_part, upTo_eq_take w]
      · congr 1
        cases mode with
        | inclusive =>
          show i + 1 - w.lo = i - w.lo + 1
          omega
        | exclusive => rfl
      · cases mode with
        | inclusive => exact Nat.le_succ_of_le lo
        | exclusive => exact lo
      · cases mode with
        | inclusive => exact hi
        | exclusive => exact Nat.le_of_lt hi
    refine ⟨y, ?_, taken ▸ brackets⟩
    rw [get?_refill w size, if_pos ⟨lo, hi⟩, ← Array.getElem?_toList, Store.toList_toArray, elems,
      at_i]
  · rw [total, ← toList_part]
    exact start.edgeTotal w.part.toList

/-- At each index of the window `cumulate` leaves a bracketing of the base value and the elements up
to and with it, and `precumulate` one of the base value and the elements before it. The total
brackets the base value and all elements. If the operator is associative these are the folds from
the left. The elements outside of the window stay, and nothing happens in an empty one. -/
theorem totals_bracket (w : Window α) (base : α) (op : α → α → α) :
    let after : Window α := w.cumulate (m := Id) base op
    let before : Window α × α := w.precumulate (m := Id) base op
    (after.array.size = w.array.size ∧ before.1.array.size = w.array.size) ∧
    (∀ i, ¬ (w.lo ≤ i ∧ i < w.hi) →
      after.get? i = w.get? i ∧ before.1.get? i = w.get? i) ∧
    (∀ i, w.lo ≤ i → i < w.hi →
      (∃ y, after.get? i = some y ∧ Scan.Bracketing op (base :: w.upTo (i + 1)) y) ∧
      ∃ y, before.1.get? i = some y ∧ Scan.Bracketing op (base :: w.upTo i) y) ∧
    Scan.Bracketing op (base :: w.upTo w.hi) before.2 ∧
    (Std.Associative op →
      (∀ i, w.lo ≤ i → i < w.hi →
        after.get? i = some ((w.upTo (i + 1)).foldl op base) ∧
        before.1.get? i = some ((w.upTo i).foldl op base)) ∧
      before.2 = (w.upTo w.hi).foldl op base) ∧
    (w.lo = w.hi → after.array.toList = w.array.toList ∧
      before.1.array.toList = w.array.toList ∧ before.2 = base) := by
  intro after before
  obtain ⟨⟨-, -, sizeAfter⟩, outsideAfter, insideAfter, -⟩ :=
    w.scan_bracketing (w.array.leafThreshold w.size) .inclusive base op
  obtain ⟨⟨-, -, sizeBefore⟩, outsideBefore, insideBefore, total⟩ :=
    w.scan_bracketing (w.array.leafThreshold w.size) .exclusive base op
  change ∀ i, _ → after.get? i = _ at outsideAfter
  change ∀ i, _ → before.1.get? i = _ at outsideBefore
  change ∀ i, _ → _ → ∃ y, after.get? i = _ ∧ _ at insideAfter
  change ∀ i, _ → _ → ∃ y, before.1.get? i = _ ∧ _ at insideBefore
  change Scan.Bracketing op (base :: w.upTo w.hi) before.2 at total
  have same {w' : Window α} (empty : w.lo = w.hi)
      (outside : ∀ i, ¬ (w.lo ≤ i ∧ i < w.hi) → w'.get? i = w.get? i) :
      w'.array.toList = w.array.toList := by
    refine List.ext_getElem? fun i => ?_
    have := outside i (by omega)
    rwa [get?, get?, ← Store.getElem?_toList, ← Store.getElem?_toList] at this
  refine ⟨⟨sizeAfter, sizeBefore⟩, fun i out => ⟨outsideAfter i out, outsideBefore i out⟩,
    fun i lo hi => ⟨insideAfter i lo hi, insideBefore i lo hi⟩, total, fun assoc => ⟨?_, ?_⟩,
    fun empty => ⟨same empty outsideAfter, same empty outsideBefore, ?_⟩⟩
  · intro i lo hi
    obtain ⟨y, at_i, brackets⟩ := insideAfter i lo hi
    obtain ⟨z, at_i', brackets'⟩ := insideBefore i lo hi
    rw [at_i, at_i', brackets.eq_foldl assoc, brackets'.eq_foldl assoc]
    exact ⟨rfl, rfl⟩
  · exact total.eq_foldl assoc
  · have none : w.upTo w.hi = [] := by
      rw [upTo, empty, List.drop_take_self]
    rw [none] at total
    exact total.eq_of_singleton

end Window

end Bisection
