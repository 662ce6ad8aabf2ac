import Bisection.Command.Run
import Bisection.Proofs.Scan.Partial
import Bisection.Proofs.Window.Folds
import Mathlib.Algebra.Order.BigOperators.Group.List
import Mathlib.Algebra.Ring.Int.Defs
import Mathlib.Data.Nat.Choose.Basic

/-!
# Sums that fit

A sum of numbers of 64 bits fits if the exact sum does. Then so does the sum of each part of the
numbers. A reduction and a scan add neighbouring parts only, in whatever order and with whatever
brackets, so that no addition wraps around, and one that fails for sums that are too large is never
asked for such a sum.
-/

namespace Bisection
set_option autoImplicit false

/-! ## Reductions by an operator that serves -/

namespace Window
variable {ε α : Type} {m : Type → Type} [Monad m] [LawfulMonad m] [Fork ε m] [Reports m] {d : Nat}
  {T : Tracking d m Id} {f : α → α → m α} {op : α → α → α}

theorem comesTo_forkPieces (t : Threshold) (s : Store α) (along : T.Along f op s.toList)
    (lo : Nat) : T.ComesTo (forkPieces t (fun s _ => s.reduceM f) (joinTotals f) s lo)
      (Scan.Reference.innerTotal t op s.toList) := by
  revert along
  refine halves_induction t ?short ?long s lo
  case short =>
    intro s lo short along
    have few : s.toList.length ≤ t.val := by rwa [Store.length_toList]
    rw [forkPieces_of_le short, Scan.Reference.innerTotal_of_le few, ← Scan.reduceM_id]
    exact along.reduceM
  case long =>
    intro s lo long left right along
    have long : ¬ s.size ≤ t.val := long
    have many : ¬ s.toList.length ≤ t.val := by rwa [Store.length_toList]
    have parts : s.toList.take (s.size / 2) ++ s.toList.drop (s.size / 2) <:+: s.toList := by
      rw [List.take_append_drop]
    obtain ⟨x, y, front, back, total⟩ := Scan.Reference.exists_innerTotal_halves op many
    rw [Store.length_toList] at front back
    rw [toList_left] at left
    rw [toList_right] at right
    have join := Tracking.comesTo_join
      (left (along.of_inside (List.take_prefix _ _).isInfix))
      (right (along.of_inside (List.drop_suffix _ _).isInfix))
    have call := along _ _ x y parts (.innerTotal front) (.innerTotal back)
    rw [total, forkPieces_of_lt long]
    rw [front, back] at join
    exact join.bind (call.map some)

/-- A reduction by an operator that serves along the base value and the elements. -/
theorem comesTo_reduce (w : Window α) {base : α} (along : T.Along f op (base :: w.upTo w.hi)) :
    T.ComesTo (w.reduce base f) (w.reduced base op) := by
  have begun : T.ComesTo (w.begin .reduce w.size) (w.array.leafThreshold w.size) :=
    (T.comesTo_note (.processing .reduce w.size (w.array.leafThreshold w.size).val)).bind (.pure _)
  have inner := along.of_inside (List.suffix_cons base (w.upTo w.hi)).isInfix
  rw [← toList_part] at inner
  have total := comesTo_forkPieces (w.array.leafThreshold w.size) w.part inner w.lo
  rw [toList_part] at total
  refine begun.bind (total.bind ?_)
  rw [reduced]
  cases found : Scan.Reference.innerTotal (w.array.leafThreshold w.size) op (w.upTo w.hi) with
  | none => exact .pure base
  | some x => exact along [base] _ base x (List.infix_refl _) (.single base) (.innerTotal found)

end Window

/-! ## Numbers of 64 bits -/

namespace Command

/-- The exact sum of numbers. -/
def exactSum (xs : List Word64) : Int := (xs.map Fixed.val).sum

/-- An addition that is right for all sums that fit. -/
def Adds (add : Word64 → Word64 → Except Abort Word64) : Prop :=
  ∀ x y, x.val + y.val < 2 ^ 64 → add x y = .ok (x + y)

/-- An addition that fails for all sums that do not fit. -/
def checkedAdd (x y : Word64) : Except Abort Word64 :=
  if x.val + y.val < 2 ^ 64 then .ok (x + y) else .error ⟨"attempt to add with overflow"⟩

theorem adds_checkedAdd : Adds checkedAdd := fun _ _ fits => if_pos fits

theorem count_word : IntKind.count ⟨false, 64⟩ = 2 ^ 64 := Nat.one_shiftLeft 64

theorem val_nonneg (x : Word64) : 0 ≤ x.val := by
  have wrapped : x.val % IntKind.count ⟨false, 64⟩ = x.val := x.wrapped
  rw [← wrapped, count_word]
  exact Int.emod_nonneg _ (by decide)

theorem val_ofInt_of_lt {i : Int} (nonneg : 0 ≤ i) (small : i < 2 ^ 64) :
    (Fixed.ofInt i : Word64).val = i := by
  have wrap : (Fixed.ofInt i : Word64).val = i % IntKind.count ⟨false, 64⟩ := Fixed.val_ofInt i
  rw [wrap, count_word]
  exact Int.emod_eq_of_lt nonneg small

theorem val_add {x y : Word64} (small : x.val + y.val < 2 ^ 64) :
    (x + y).val = x.val + y.val :=
  val_ofInt_of_lt (Int.add_nonneg (val_nonneg x) (val_nonneg y)) small

theorem exactSum_append (xs ys : List Word64) :
    exactSum (xs ++ ys) = exactSum xs + exactSum ys := by
  rw [exactSum, List.map_append, List.sum_append, exactSum, exactSum]

theorem exactSum_singleton (x : Word64) : exactSum [x] = x.val := by
  rw [exactSum, List.map_singleton, List.sum_singleton]

theorem exactSum_nonneg (xs : List Word64) : 0 ≤ exactSum xs := by
  refine List.sum_nonneg fun i mem => ?_
  obtain ⟨x, -, rfl⟩ := List.mem_map.mp mem
  exact val_nonneg x

theorem exactSum_le_of_inside {xs ys : List Word64} (inside : xs <:+: ys) :
    exactSum xs ≤ exactSum ys := by
  obtain ⟨front, back, rfl⟩ := inside
  have := exactSum_nonneg front
  have := exactSum_nonneg back
  rw [exactSum_append, exactSum_append]
  omega

/-- A sum with any brackets is exact if the exact sum fits. -/
theorem val_of_bracketing {xs : List Word64} {y : Word64}
    (brackets : Scan.Bracketing (· + ·) xs y) (small : exactSum xs < 2 ^ 64) :
    y.val = exactSum xs := by
  induction brackets with
  | single x => exact (exactSum_singleton x).symm
  | @combine xs ys x y left right ihl ihr =>
    rw [exactSum_append] at small ⊢
    have front := exactSum_nonneg xs
    have back := exactSum_nonneg ys
    have x_val := ihl (by omega)
    have y_val := ihr (by omega)
    rw [← x_val, ← y_val] at small ⊢
    exact val_add small

/-- An addition that is right for all sums that fit serves along numbers whose sum fits. -/
theorem Adds.along {ι : Type} {add : Word64 → Word64 → Except Abort Word64} (adds : Adds add)
    {xs : List Word64} (small : exactSum xs < 2 ^ 64) {d : Nat} :
    (Concurrent.total d).Along (fun x y => (.ends (add x y) : Concurrent ι Abort Word64)) (· + ·)
      xs := by
  intro ys zs x y inside left right
  have fits := Int.lt_of_le_of_lt (exactSum_le_of_inside inside) small
  rw [exactSum_append] at fits
  have front := exactSum_nonneg ys
  have back := exactSum_nonneg zs
  have call : add x y = .ok (x + y) := by
    refine adds x y ?_
    rwa [val_of_bracketing left (by omega), val_of_bracketing right (by omega)]
  dsimp only
  rw [call]
  exact .pure (x + y)

theorem plain_along (xs : List Word64) {d : Nat} :
    (Tracking.succeeding d).Along (fun x y => (.ok (x + y) : Except Abort Word64)) (· + ·) xs :=
  fun _ _ x y _ _ _ => .pure (x + y)

/-! ## The numbers below `n` -/

section
variable {n : Nat} (small : n * (n - 1) / 2 < 2 ^ 64)
include small

/-- There are not very many numbers if their sum fits. -/
theorem lt_of_sum_lt : n < 2 ^ 33 := by
  by_contra many
  have le : 2 ^ 33 * (2 ^ 33 - 1) ≤ n * (n - 1) := Nat.mul_le_mul (by omega) (by omega)
  omega

theorem exactSum_ascending :
    exactSum (Fixed.ofInt 0 :: (ascending n).toList) = (n * (n - 1) / 2 : Nat) := by
  have few := lt_of_sum_lt small
  -- By induction on how many numbers are taken. They stay below `n`, so that each is its own value.
  have sum (k : Nat) (le : k ≤ n) :
      exactSum (Fixed.ofInt 0 :: (ascending k).toList) = (k * (k - 1) / 2 : Nat) := by
    induction k with
    | zero =>
      have none : (ascending 0).toList = [] := by simp [ascending]
      rw [none, exactSum_singleton, val_ofInt_of_lt (Int.le_refl 0) (by decide)]
      rfl
    | succ k ih =>
      have last : (ascending (k + 1)).toList = (ascending k).toList ++ [Fixed.ofInt k] := by
        simp [ascending, List.range_succ]
      rw [last, ← List.cons_append, exactSum_append, ih (by omega), Nat.triangle_succ,
        Int.natCast_add, exactSum_singleton, val_ofInt_of_lt (Int.natCast_nonneg k) (by omega)]
  exact sum n (Nat.le_refl n)

/-- What a reduction of the numbers below `n` comes to. -/
theorem val_reduced {w : Window Word64} (elems : w.upTo w.hi = (ascending n).toList) :
    (w.reduced (Fixed.ofInt 0) (· + ·)).val = (n * (n - 1) / 2 : Nat) := by
  have brackets := w.bracketing_reduced (Fixed.ofInt 0) (· + ·)
  rw [elems] at brackets
  have exact_sum := exactSum_ascending small
  rw [val_of_bracketing brackets (by omega), exact_sum]

/-- The last of the running totals of the numbers below `n`. -/
theorem val_last_result (t : Threshold) :
    (Scan.Reference.result t (· + ·) .inclusive true (Fixed.ofInt 0)
      (ascending n).toList).getLast?.map Fixed.val =
        if n = 0 then none else some ((n * (n - 1) / 2 : Nat) : Int) := by
  have length : (ascending n).toList.length = n := by simp [ascending]
  have exact_sum := exactSum_ascending small
  rw [List.getLast?_eq_getElem?, Scan.Reference.length_result, length]
  split
  · next none =>
    subst none
    simp [ascending, Scan.Reference.result_of_le]
  · next some =>
    have start : Scan.Bracketing (· + ·) [Fixed.ofInt 0] (Fixed.ofInt 0 : Word64) := .single _
    have inside : n - 1 < (ascending n).toList.length := by omega
    obtain ⟨y, last, brackets⟩ := start.result t .inclusive true inside
    have all : (ascending n).toList.take (Scan.Mode.inclusive.taken (n - 1)) =
        (ascending n).toList := by
      rw [Scan.Mode.taken, Nat.sub_add_cancel (Nat.pos_of_ne_zero some), List.take_of_length_le]
      exact Nat.le_of_eq length
    rw [all, List.singleton_append] at brackets
    rw [last, Option.map_some, val_of_bracketing brackets (by omega), exact_sum]

end

end Command

end Bisection
