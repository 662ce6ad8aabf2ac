import Bisection.Store

/-!
# Elements in order

A list is in order by a comparator if no element is greater than a later one. Comparators are
total preorders here: the reverse of a comparison is the comparison the other way, and what is not
greater is transitive.
-/

namespace Bisection
set_option autoImplicit false

variable {α : Type}

/-- No element is greater than a later one. -/
def InOrder (cmp : α → α → Ordering) (xs : List α) : Prop :=
  xs.Pairwise fun x y => (cmp x y).isLE

instance (cmp : α → α → Ordering) (xs : List α) : Decidable (InOrder cmp xs) :=
  inferInstanceAs (Decidable (xs.Pairwise _))

section
variable {cmp : α → α → Ordering}

/-- What is asked of a comparator, said by what is not greater. -/
theorem transCmp_of_ne_gt (reverse : ∀ x y, cmp x y = (cmp y x).swap)
    (trans : ∀ x y z, cmp x y ≠ .gt → cmp y z ≠ .gt → cmp x z ≠ .gt) : Std.TransCmp cmp where
  eq_swap := reverse _ _
  isLE_trans := by
    intro x y z hxy hyz
    rw [Ordering.isLE_iff_ne_gt] at hxy hyz ⊢
    exact trans x y z hxy hyz

theorem isLE_total [Std.OrientedCmp cmp] (x y : α) : (cmp x y).isLE ∨ (cmp y x).isLE := by
  have back : cmp y x = (cmp x y).swap := Std.OrientedCmp.eq_swap
  rw [back]
  cases cmp x y
  · exact .inl rfl
  · exact .inl rfl
  · exact .inr rfl

theorem isLE_of_not_lt [Std.OrientedCmp cmp] {x y : α} (h : cmp x y ≠ .lt) : (cmp y x).isLE := by
  have back : cmp y x = (cmp x y).swap := Std.OrientedCmp.eq_swap
  rw [back]
  revert h
  cases cmp x y <;> decide

theorem InOrder.isLE_getElem [Std.ReflCmp cmp] {n i j : Nat} {v : Vector α n}
    (h : InOrder cmp v.toList) (hij : i ≤ j) (hj : j < n) : (cmp v[i] v[j]).isLE := by
  rcases Nat.lt_or_eq_of_le hij with lt | rfl
  · have := List.pairwise_iff_getElem.mp h i j (by simp; omega) (by simpa using hj) lt
    simpa using this
  · exact Std.ReflCmp.isLE_rfl

/-- What is less than an element, what is equal to it and what is greater, each part in order. -/
theorem InOrder.parts [Std.TransCmp cmp] {below level above : List α} (pivot : α)
    (hbelow : InOrder cmp below) (habove : InOrder cmp above)
    (lt : ∀ x ∈ below, cmp x pivot = .lt) (eq : ∀ x ∈ level, cmp x pivot = .eq)
    (gt : ∀ x ∈ above, cmp x pivot = .gt) : InOrder cmp (below ++ level ++ above) := by
  have le (x : α) (hx : x ∈ below ++ level) : (cmp x pivot).isLE := by
    rcases List.mem_append.mp hx with hx | hx
    · rw [lt x hx]
      decide
    · rw [eq x hx]
      decide
  have ge (y : α) (hy : cmp y pivot ≠ .lt) : (cmp pivot y).isLE := isLE_of_not_lt hy
  refine List.pairwise_append.mpr ⟨List.pairwise_append.mpr ⟨hbelow, ?_, ?_⟩, habove, ?_⟩
  · apply List.Pairwise.imp_of_mem _ (List.pairwise_of_forall fun _ _ => trivial)
    intro x y hx hy _
    exact Std.TransCmp.isLE_trans (le x (List.mem_append_right _ hx)) (ge y (by simp [eq y hy]))
  · intro x hx y hy
    exact Std.TransCmp.isLE_trans (le x (List.mem_append_left _ hx)) (ge y (by simp [eq y hy]))
  · intro x hx y hy
    exact Std.TransCmp.isLE_trans (le x hx) (ge y (by simp [gt y hy]))

end

end Bisection
