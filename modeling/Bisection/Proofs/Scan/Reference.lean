import Bisection.Scan.Task

/-!
# A scan by recursion

What a scan finds, as a recursion over the halves of the scanned elements that knows of no tasks
and no cells. On the left edge of the tree the total of a part takes in the base value, elsewhere
it is the total of the part alone. The prefix of a right half is the total of the left half on the
left edge, and otherwise the prefix of the whole combined with the total of the left half. A part
that is not cut holds its running totals from its prefix on.

The operator may be any function. The module ends with what the loops of a leaf compute.
-/

namespace Bisection.Scan
set_option autoImplicit false

namespace Reference
variable {α : Type}

/-- A total and the total of what is behind it, if there is anything. -/
def add (op : α → α → α) (x : α) : Option α → α
  | none => x
  | some y => op x y

/-- The elements combined from left to right, if there are any. -/
def leafTotal (op : α → α → α) : List α → Option α
  | [] => none
  | x :: xs => some (xs.foldl op x)

/-- The total of a part that is off the left edge. -/
def innerTotal (t : Threshold) (op : α → α → α) (xs : List α) : Option α :=
  if _h : xs.length ≤ t.val then leafTotal op xs
  else
    let half := xs.length / 2
    (innerTotal t op (xs.take half)).map fun x => add op x (innerTotal t op (xs.drop half))
termination_by xs.length
decreasing_by
  all_goals
    have := Threshold.two_le _h
    simp +zetaDelta
    omega

/-- The total of the base value and a part that starts at the left end. -/
def edgeTotal (t : Threshold) (op : α → α → α) (base : α) (xs : List α) : α :=
  if _h : xs.length ≤ t.val then xs.foldl op base
  else
    let half := xs.length / 2
    add op (edgeTotal t op base (xs.take half)) (innerTotal t op (xs.drop half))
termination_by xs.length
decreasing_by
  all_goals
    have := Threshold.two_le _h
    simp +zetaDelta
    omega

/-- The running totals of the elements from `start` on. -/
def running (op : α → α → α) (mode : Mode) : α → List α → List α
  | _, [] => []
  | start, x :: xs =>
    (match mode with
      | .inclusive => op start x
      | .exclusive => start) :: running op mode (op start x) xs

/-- The prefix of the right half of a part, from the prefix and the left half of the part. -/
def rightPrefix (t : Threshold) (op : α → α → α) (edge : Bool) (start : α) (left : List α) : α :=
  if edge then edgeTotal t op start left else add op start (innerTotal t op left)

/-- What a part holds after the scan, where `start` is its prefix and `edge` tells whether the part
starts at the left end. -/
def result (t : Threshold) (op : α → α → α) (mode : Mode) (edge : Bool) (start : α)
    (xs : List α) : List α :=
  if _h : xs.length ≤ t.val then running op mode start xs
  else
    let half := xs.length / 2
    let left := xs.take half
    result t op mode edge start left ++
      result t op mode false (rightPrefix t op edge start left) (xs.drop half)
termination_by xs.length
decreasing_by
  all_goals
    have := Threshold.two_le _h
    simp +zetaDelta
    omega

variable {t : Threshold} {op : α → α → α} {mode : Mode}

theorem innerTotal_of_le {xs : List α} (h : xs.length ≤ t.val) :
    innerTotal t op xs = leafTotal op xs := by
  rw [innerTotal, dif_pos h]

theorem innerTotal_of_gt {xs : List α} (h : ¬ xs.length ≤ t.val) :
    innerTotal t op xs = (innerTotal t op (xs.take (xs.length / 2))).map fun x =>
      add op x (innerTotal t op (xs.drop (xs.length / 2))) := by
  rw [innerTotal, dif_neg h]

theorem edgeTotal_of_le {xs : List α} (base : α) (h : xs.length ≤ t.val) :
    edgeTotal t op base xs = xs.foldl op base := by
  rw [edgeTotal, dif_pos h]

theorem edgeTotal_of_gt {xs : List α} (base : α) (h : ¬ xs.length ≤ t.val) :
    edgeTotal t op base xs = add op (edgeTotal t op base (xs.take (xs.length / 2)))
      (innerTotal t op (xs.drop (xs.length / 2))) := by
  rw [edgeTotal, dif_neg h]

theorem result_of_le {xs : List α} (edge : Bool) (start : α) (h : xs.length ≤ t.val) :
    result t op mode edge start xs = running op mode start xs := by
  rw [result, dif_pos h]

theorem result_of_gt {xs : List α} (edge : Bool) (start : α) (h : ¬ xs.length ≤ t.val) :
    result t op mode edge start xs = result t op mode edge start (xs.take (xs.length / 2)) ++
      result t op mode false (rightPrefix t op edge start (xs.take (xs.length / 2)))
        (xs.drop (xs.length / 2)) := by
  rw [result, dif_neg h]

@[simp] theorem length_running (op : α → α → α) (mode : Mode) (start : α) (xs : List α) :
    (running op mode start xs).length = xs.length := by
  induction xs generalizing start with
  | nil => rfl
  | cons x xs ih => simp [running, ih]

@[simp] theorem length_result (edge : Bool) (start : α) (xs : List α) :
    (result t op mode edge start xs).length = xs.length := by
  fun_induction result t op mode edge start xs with
  | case1 edge start xs h => exact length_running op mode start xs
  | case2 edge start xs h half left ihl ihr =>
    simp +zetaDelta only [List.length_append, ihl, ihr, List.length_take, List.length_drop]
    omega

/-- A part that is not empty has a total. -/
theorem isSome_innerTotal {xs : List α} (h : xs ≠ []) : (innerTotal t op xs).isSome := by
  fun_induction innerTotal t op xs with
  | case1 xs le =>
    cases xs with
    | nil => exact absurd rfl h
    | cons x xs => rfl
  | case2 xs gt half ihr ihl =>
    have := Threshold.two_le gt
    rw [Option.isSome_map]
    apply ihl
    apply List.ne_nil_of_length_pos
    simp +zetaDelta only [List.length_take]
    omega

theorem eq_nil_of_innerTotal {xs : List α} (none : innerTotal t op xs = none) : xs = [] := by
  cases xs with
  | nil => rfl
  | cons x xs =>
    have known : (innerTotal t op (x :: xs)).isSome := isSome_innerTotal (List.cons_ne_nil x xs)
    rw [none] at known
    cases known

/-- Both halves of a part that is cut have a total, and that of the part combines them. -/
theorem exists_innerTotal_halves (op : α → α → α) {xs : List α} (many : ¬ xs.length ≤ t.val) :
    ∃ x y, innerTotal t op (xs.take (xs.length / 2)) = some x ∧
      innerTotal t op (xs.drop (xs.length / 2)) = some y ∧
      innerTotal t op xs = some (op x y) := by
  have two := Threshold.two_le many
  have front : (innerTotal t op (xs.take (xs.length / 2))).isSome := by
    refine isSome_innerTotal (List.ne_nil_of_length_pos ?_)
    rw [List.length_take]
    omega
  have back : (innerTotal t op (xs.drop (xs.length / 2))).isSome := by
    refine isSome_innerTotal (List.ne_nil_of_length_pos ?_)
    rw [List.length_drop]
    omega
  obtain ⟨x, front⟩ := Option.isSome_iff_exists.mp front
  obtain ⟨y, back⟩ := Option.isSome_iff_exists.mp back
  refine ⟨x, y, front, back, ?_⟩
  rw [innerTotal_of_gt many, front, back]
  rfl

end Reference

section
variable {α : Type}

/-- The loop that sums a leaf. -/
theorem reduceM_id (op : α → α → Id α) (s : Store α) :
    (s.reduceM op : Id (Option α)) = Reference.leafTotal op s.toList := by
  rw [Store.reduceM, Store.foldlM_eq_foldlM_toList]
  cases s.toList with
  | nil => rfl
  | cons x xs =>
    show (xs.foldlM _ (some x) : Id (Option α)) = some (xs.foldl op x)
    induction xs generalizing x with
    | nil => rfl
    | cons y ys ih => exact ih (op x y)

/-- The loop that writes a leaf. -/
theorem runningTotals_id (op : α → α → Id α) (mode : Mode) (start : α) (s : Store α) :
    ((runningTotals op mode start s : Id (Array α × α)).1.toList =
      Reference.running op mode start s.toList) ∧
    (runningTotals op mode start s : Id (Array α × α)).2 = s.toList.foldl op start := by
  -- `f` is a round of the loop, which pushes `y` of the totals after and before its element.
  have fold (f : Array α × α → α → Id (Array α × α)) (y : α → α → α)
      (round : ∀ out total x, f (out, total) x = (out.push (y (op total x) total), op total x))
      (running : ∀ total x xs, Reference.running op mode total (x :: xs) =
        y (op total x) total :: Reference.running op mode (op total x) xs)
      (xs : List α) (out : Array α) (total : α) :
      let last : Id (Array α × α) := xs.foldlM f (out, total)
      last.1.toList = out.toList ++ Reference.running op mode total xs ∧
        last.2 = xs.foldl op total := by
    induction xs generalizing out total with
    | nil => exact ⟨(List.append_nil _).symm, rfl⟩
    | cons x xs ih =>
      obtain ⟨elems, total'⟩ := ih (out.push (y (op total x) total)) (op total x)
      rw [List.foldlM_cons, round, running]
      refine ⟨Eq.trans elems ?_, total'⟩
      rw [Array.toList_push, List.append_assoc]
      rfl
  rw [runningTotals, Store.foldlM_eq_foldlM_toList]
  cases mode with
  | inclusive =>
    exact fold _ (fun after _ => after) (fun _ _ _ => rfl) (fun _ _ _ => rfl) s.toList #[] start
  | exclusive =>
    exact fold _ (fun _ before => before) (fun _ _ _ => rfl) (fun _ _ _ => rfl) s.toList #[] start

end

end Bisection.Scan
