import Bisection.Proofs.Scan.Reference
import Mathlib.Tactic.ByContra

/-!
# Totals as bracketings

However the elements are cut, a total combines them in their order and only the brackets differ.
`Bracketing op xs y` says that `y` is the value of the elements `xs` with some brackets around
them. The recursion of a scan leaves bracketings everywhere, with the base value in front, and all
bracketings of the same elements have the same value if the operator is associative.
-/

namespace Bisection.Scan
set_option autoImplicit false

/-- The value of the elements in their order, under some choice of the brackets. -/
inductive Bracketing {α : Type} (op : α → α → α) : List α → α → Prop where
  | single (x : α) : Bracketing op [x] x
  | combine {xs ys : List α} {x y : α} (left : Bracketing op xs x) (right : Bracketing op ys y) :
      Bracketing op (xs ++ ys) (op x y)

/-- How many of the elements are in the running total at an index. -/
def Mode.taken (mode : Mode) (i : Nat) : Nat :=
  match mode with
  | .inclusive => i + 1
  | .exclusive => i

section
variable {α : Type} {op : α → α → α} {t : Threshold} {mode : Mode} {xs ys front : List α}
  {x y start : α}

namespace Bracketing

theorem ne_nil (h : Bracketing op xs y) : xs ≠ [] := by
  induction h with
  | single x => exact List.cons_ne_nil x []
  | combine left right ihl ihr => exact List.append_ne_nil_of_left_ne_nil ihl _

/-- There are no brackets around a single element. -/
theorem eq_of_singleton (h : Bracketing op [x] y) : y = x := by
  generalize eq : [x] = xs at h
  cases h with
  | single z => exact (List.singleton_inj.1 eq).symm
  | combine left right =>
    have lengthLeft := List.length_pos_iff.2 left.ne_nil
    have lengthRight := List.length_pos_iff.2 right.ne_nil
    have length := congrArg List.length eq
    rw [List.length_append, List.length_singleton] at length
    omega

/-- The elements are combined one by one from the left. -/
theorem foldl (h : Bracketing op front x) (xs : List α) :
    Bracketing op (front ++ xs) (xs.foldl op x) := by
  induction xs generalizing front x with
  | nil => simpa using h
  | cons y ys ih =>
    have next := ih (h.combine (.single y))
    rwa [List.append_assoc] at next

theorem innerTotal (h : Reference.innerTotal t op xs = some y) : Bracketing op xs y := by
  induction xs using Reference.innerTotal.induct t generalizing y with
  | case1 xs le =>
    rw [Reference.innerTotal_of_le le] at h
    cases xs with
    | nil => cases h
    | cons x xs =>
      simp only [Reference.leafTotal, Option.some.injEq] at h
      exact h ▸ (Bracketing.single x).foldl xs
  | case2 xs gt half ihr =>
    rename_i ihl
    obtain ⟨x, z, left, right, total⟩ := Reference.exists_innerTotal_halves op gt
    rw [total] at h
    cases h
    have whole := (ihl left).combine (ihr right)
    rwa [List.take_append_drop] at whole

/-- Combined with the total of what is behind it, if there is anything. -/
theorem add (h : Bracketing op front x) (xs : List α) :
    Bracketing op (front ++ xs) (Reference.add op x (Reference.innerTotal t op xs)) := by
  cases total : Reference.innerTotal t op xs with
  | some y => exact h.combine (innerTotal total)
  | none =>
    rw [Reference.eq_nil_of_innerTotal total, List.append_nil]
    exact h

theorem edgeTotal (h : Bracketing op front x) (xs : List α) :
    Bracketing op (front ++ xs) (Reference.edgeTotal t op x xs) := by
  fun_induction Reference.edgeTotal t op x xs with
  | case1 xs le => exact h.foldl xs
  | case2 xs gt half ih =>
    have whole := ih.add (t := t) (xs.drop half)
    rwa [List.append_assoc, List.take_append_drop] at whole

/-- All bracketings have the value of the one from the left, if the operator is associative. -/
theorem eq_foldl (assoc : Std.Associative op) (h : Bracketing op (x :: xs) y) :
    y = xs.foldl op x := by
  obtain ⟨x', rest, eq, rfl⟩ := exists_foldl h
  obtain ⟨rfl, rfl⟩ := List.cons.inj eq
  rfl
where
  exists_foldl {xs : List α} {y : α} (h : Bracketing op xs y) :
      ∃ x rest, xs = x :: rest ∧ y = rest.foldl op x := by
    induction h with
    | single x => exact ⟨x, [], rfl, rfl⟩
    | combine left right ihl ihr =>
      obtain ⟨x, xs, rfl, rfl⟩ := ihl
      obtain ⟨y, ys, rfl, rfl⟩ := ihr
      refine ⟨x, xs ++ y :: ys, rfl, ?_⟩
      rw [List.foldl_append, List.foldl_cons, List.foldl_assoc]

/-- A running total of a leaf brackets the prefix of the leaf and the elements up to it. -/
theorem running (h : Bracketing op front start) (mode : Mode) {i : Nat} (lt : i < xs.length) :
    ∃ y, (Reference.running op mode start xs)[i]? = some y ∧
      Bracketing op (front ++ xs.take (mode.taken i)) y := by
  induction xs generalizing front start i with
  | nil => simp at lt
  | cons x xs ih =>
    have next := h.combine (.single x)
    cases i with
    | zero =>
      cases mode with
      | inclusive => exact ⟨_, rfl, by simpa [Mode.taken] using next⟩
      | exclusive => exact ⟨_, rfl, by simpa [Mode.taken] using h⟩
    | succ i =>
      obtain ⟨y, at_i, total⟩ := ih next (i := i) (by simpa using lt)
      refine ⟨y, by simpa [Reference.running] using at_i, ?_⟩
      cases mode with
      | inclusive => simpa [Mode.taken] using total
      | exclusive => simpa [Mode.taken] using total

theorem rightPrefix (h : Bracketing op front start) (edge : Bool) (left : List α) :
    Bracketing op (front ++ left) (Reference.rightPrefix t op edge start left) := by
  rw [Reference.rightPrefix]
  split
  · exact h.edgeTotal left
  · exact h.add left

/-- What the recursion leaves at an index brackets what is before the part and the elements of the
part up to the index. -/
theorem result (h : Bracketing op front start) (t : Threshold) (mode : Mode) (edge : Bool)
    {i : Nat} (lt : i < xs.length) :
    ∃ y, (Reference.result t op mode edge start xs)[i]? = some y ∧
      Bracketing op (front ++ xs.take (mode.taken i)) y := by
  induction edge, start, xs using Reference.result.induct t op generalizing front i with
  | case1 edge start xs le =>
    rw [Reference.result_of_le edge start le]
    exact h.running mode lt
  | case2 edge start xs gt half left ihl =>
    rename_i ihr
    have two := Threshold.two_le gt
    have length : left.length = half := by
      simp +zetaDelta only [List.length_take]
      omega
    have eq : Reference.result t op mode edge start xs =
        Reference.result t op mode edge start left ++
          Reference.result t op mode false (Reference.rightPrefix t op edge start left)
            (xs.drop half) := Reference.result_of_gt edge start gt
    by_cases side : i < half
    · obtain ⟨y, at_i, total⟩ := ihl h (i := i) (by omega)
      have within : mode.taken i ≤ half := by
        cases mode <;> simp only [Mode.taken] <;> omega
      have same : left.take (mode.taken i) = xs.take (mode.taken i) := by
        simp +zetaDelta only [List.take_take]
        rw [Nat.min_eq_left within]
      refine ⟨y, ?_, same ▸ total⟩
      rw [eq, List.getElem?_append_left (by rw [Reference.length_result]; omega), at_i]
    · obtain ⟨y, at_i, total⟩ := ihr (h.rightPrefix edge left) (i := i - half)
        (by rw [List.length_drop]; omega)
      have taken : mode.taken i = half + mode.taken (i - half) := by
        cases mode <;> simp only [Mode.taken] <;> omega
      have same : xs.take (mode.taken i) = left ++ (xs.drop half).take (mode.taken (i - half)) := by
        rw [taken, List.take_add]
      refine ⟨y, ?_, ?_⟩
      · rw [eq, List.getElem?_append_right (by rw [Reference.length_result]; omega),
          Reference.length_result, length, at_i]
      · rwa [same, ← List.append_assoc]

end Bracketing

end

end Bisection.Scan
