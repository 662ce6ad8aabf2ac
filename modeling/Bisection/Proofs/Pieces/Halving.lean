import Bisection.Pieces
import Mathlib.Algebra.GroupWithZero.Nat

/-!
# The tree of a bisection

A range that is halved down to the threshold makes a tree of spans, which depends on the range and
the threshold alone. Its leaves tile the range. They are no longer than the threshold, and at least
half as long once the range was cut at all, so none of them is empty. The spans of one level are of
nearly the same length: they differ by one at most.
-/

namespace Bisection
set_option autoImplicit false

/-- A range that was cut in two, over and over. -/
inductive Halving where
  /-- A span that was left whole. -/
  | leaf (span : Span)
  /-- A span that was cut, and its two halves. -/
  | node (span : Span) (left right : Halving)
deriving DecidableEq, Repr

/-- The `n` indices from `lo` on, halved down to the threshold. -/
def halving (t : Threshold) (lo n : Nat) : Halving :=
  if _h : n ≤ t.val then .leaf ⟨lo, lo + n⟩
  else .node ⟨lo, lo + n⟩ (halving t lo (n / 2)) (halving t (lo + n / 2) (n - n / 2))
termination_by n
decreasing_by
  all_goals
    have := Threshold.two_le _h
    omega

/-- The spans, in order, cover `lo..hi` without gap or overlap. -/
def Tiles (lo hi : Nat) : List Span → Prop
  | [] => lo = hi
  | s :: rest => s.lo = lo ∧ lo ≤ s.hi ∧ Tiles s.hi hi rest

theorem Tiles.append {lo mid hi : Nat} {left right : List Span} (front : Tiles lo mid left)
    (back : Tiles mid hi right) : Tiles lo hi (left ++ right) := by
  induction left generalizing lo with
  | nil => exact front.symm ▸ back
  | cons s left ih => exact ⟨front.1, front.2.1, ih front.2.2⟩

/-- The spans of a tiling lie within the range. -/
theorem Tiles.within {lo hi : Nat} {spans : List Span} (tiles : Tiles lo hi spans) :
    lo ≤ hi ∧ ∀ s ∈ spans, lo ≤ s.lo ∧ s.lo ≤ s.hi ∧ s.hi ≤ hi := by
  induction spans generalizing lo with
  | nil => exact ⟨Nat.le_of_eq tiles, nofun⟩
  | cons s spans ih =>
    obtain ⟨rfl, le, rest⟩ := tiles
    obtain ⟨le', inside⟩ := ih rest
    refine ⟨Nat.le_trans le le', List.forall_mem_cons.mpr ⟨⟨Nat.le_refl _, le, le'⟩, ?_⟩⟩
    intro r mem
    obtain ⟨above, rest⟩ := inside r mem
    exact ⟨Nat.le_trans le above, rest⟩

namespace Halving

/-- The whole range. -/
def span : Halving → Span
  | leaf s => s
  | node s _ _ => s

/-- The range of two ranges side by side. -/
def beside (left right : Halving) : Halving := node ⟨left.span.lo, right.span.hi⟩ left right

/-- The spans that were left whole, in order. -/
def leaves : Halving → List Span
  | leaf s => [s]
  | node _ left right => left.leaves ++ right.leaves

/-- The spans that come about by `j` cuts one after the other. -/
def level : Nat → Halving → List Span
  | 0, tree => [tree.span]
  | _ + 1, leaf _ => []
  | j + 1, node _ left right => left.level j ++ right.level j

/-- The leaves tile the `n` indices from `lo` on and are of proper length, and so are the spans of
each level. -/
structure Balanced (t : Threshold) (lo n : Nat) (tree : Halving) : Prop where
  tiles : Tiles lo (lo + n) tree.leaves
  most : ∀ s ∈ tree.leaves, s.size ≤ t.val
  least : t.val < n → ∀ s ∈ tree.leaves, (t.val + 1) / 2 ≤ s.size
  level : ∀ j, ∀ s ∈ tree.level j, s.size = n / 2 ^ j ∨ s.size = (n + (2 ^ j - 1)) / 2 ^ j

end Halving

theorem Span.size_add_right (lo n : Nat) : Span.size ⟨lo, lo + n⟩ = n :=
  Nat.add_sub_cancel_left ..

section
variable {t : Threshold} {lo n : Nat}

theorem halving_of_le (h : n ≤ t.val) : halving t lo n = .leaf ⟨lo, lo + n⟩ := by
  rw [halving, dif_pos h]

theorem halving_of_lt (h : ¬ n ≤ t.val) : halving t lo n =
    .node ⟨lo, lo + n⟩ (halving t lo (n / 2)) (halving t (lo + n / 2) (n - n / 2)) := by
  rw [halving, dif_neg h]

theorem span_halving (t : Threshold) (lo n : Nat) : (halving t lo n).span = ⟨lo, lo + n⟩ := by
  rw [halving]
  split <;> rfl

theorem tiles_leaves (t : Threshold) (lo n : Nat) : Tiles lo (lo + n) (halving t lo n).leaves := by
  induction n using Nat.strongRecOn generalizing lo with
  | ind n ih =>
    by_cases h : n ≤ t.val
    · rw [halving_of_le h]
      exact ⟨rfl, Nat.le_add_right lo n, rfl⟩
    · have two := Threshold.two_le h
      have whole : lo + n / 2 + (n - n / 2) = lo + n := by omega
      rw [halving_of_lt h]
      refine (ih (n / 2) (by omega) lo).append ?_
      exact whole ▸ ih (n - n / 2) (by omega) (lo + n / 2)

/-- Cutting keeps the leaves at half the threshold: a half of more indices than the threshold has
that many. -/
theorem size_of_mem_leaves {s : Span} (mem : s ∈ (halving t lo n).leaves) :
    s.size ≤ t.val ∧ ((t.val + 1) / 2 ≤ n → (t.val + 1) / 2 ≤ s.size) := by
  induction n using Nat.strongRecOn generalizing lo with
  | ind n ih =>
    by_cases h : n ≤ t.val
    · rw [halving_of_le h] at mem
      rw [List.mem_singleton.mp mem, Span.size_add_right]
      exact ⟨h, id⟩
    · have two := Threshold.two_le h
      rw [halving_of_lt h] at mem
      rcases List.mem_append.mp mem with mem | mem
      · obtain ⟨most, least⟩ := ih (n / 2) (by omega) mem
        exact ⟨most, fun _ => least (by omega)⟩
      · obtain ⟨most, least⟩ := ih (n - n / 2) (by omega) mem
        exact ⟨most, fun _ => least (by omega)⟩

/-- A span that is cut `j` times has between `n / 2 ^ j` indices, rounded down, and as many, rounded
up. -/
theorem size_of_mem_level {j : Nat} {s : Span} (mem : s ∈ (halving t lo n).level j) :
    n / 2 ^ j ≤ s.size ∧ s.size ≤ (n + (2 ^ j - 1)) / 2 ^ j := by
  induction j generalizing lo n with
  | zero =>
    rw [Halving.level, span_halving] at mem
    rw [List.mem_singleton.mp mem, Span.size_add_right]
    simp
  | succ j ih =>
    by_cases h : n ≤ t.val
    · rw [halving_of_le h] at mem
      cases mem
    -- Both halves are `n / 2` indices long, rounded down or up.
    have half (k : Nat) (down : n / 2 ≤ k) (up : k ≤ (n + 1) / 2) (mem : k / 2 ^ j ≤ s.size ∧
        s.size ≤ (k + (2 ^ j - 1)) / 2 ^ j) : n / 2 ^ (j + 1) ≤ s.size ∧
        s.size ≤ (n + (2 ^ (j + 1) - 1)) / 2 ^ (j + 1) := by
      have pos : 0 < 2 ^ j := Nat.two_pow_pos j
      have twice : 2 ^ (j + 1) = 2 * 2 ^ j := by rw [Nat.pow_succ, Nat.mul_comm]
      rw [twice, ← Nat.div_div_eq_div_mul, ← Nat.div_div_eq_div_mul]
      have up : k + (2 ^ j - 1) ≤ (n + (2 * 2 ^ j - 1)) / 2 := by omega
      exact ⟨Nat.le_trans (Nat.div_le_div_right down) mem.1,
        Nat.le_trans mem.2 (Nat.div_le_div_right up)⟩
    rw [halving_of_lt h] at mem
    rcases List.mem_append.mp mem with mem | mem
    · exact half (n / 2) (by omega) (by omega) (ih mem)
    · exact half (n - n / 2) (by omega) (by omega) (ih mem)

/-- What is cut out of a range is inside it. -/
theorem within_of_mem_level {j : Nat} {s : Span} (mem : s ∈ (halving t lo n).level j) :
    lo ≤ s.lo ∧ s.lo ≤ s.hi ∧ s.hi ≤ lo + n := by
  induction j generalizing lo n with
  | zero =>
    rw [Halving.level, span_halving] at mem
    rw [List.mem_singleton.mp mem]
    exact ⟨Nat.le_refl lo, Nat.le_add_right lo n, Nat.le_refl _⟩
  | succ j ih =>
    by_cases h : n ≤ t.val
    · rw [halving_of_le h] at mem
      cases mem
    rw [halving_of_lt h] at mem
    rcases List.mem_append.mp mem with mem | mem
    · have inside := ih mem
      omega
    · have inside := ih mem
      omega

theorem balanced_halving (t : Threshold) (lo n : Nat) :
    (halving t lo n).Balanced t lo n where
  tiles := tiles_leaves t lo n
  most _ mem := (size_of_mem_leaves mem).1
  least cut _ mem := (size_of_mem_leaves mem).2 (by omega)
  level j s mem := by
    obtain ⟨down, up⟩ := size_of_mem_level mem
    have pos : 0 < 2 ^ j := Nat.two_pow_pos j
    have gap : (n + (2 ^ j - 1)) / 2 ^ j ≤ n / 2 ^ j + 1 := by
      rw [← Nat.add_div_right n pos]
      exact Nat.div_le_div_right (by omega)
    omega

end

end Bisection
