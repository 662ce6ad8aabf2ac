import Bisection.Threshold

/-!
# The tree of a scan

The range of a scan is bisected into a tree, whose nodes are listed with a node
before its left subtree and that before its right subtree. The root is node 0.
-/

namespace Bisection.Scan
set_option autoImplicit false

/-- A node over the positions from `lo` up to and without `hi`. -/
structure Node where
  lo : Nat
  hi : Nat
  parent : Option Nat
  children : Option (Nat × Nat)
deriving DecidableEq, Repr

/-- The number of nodes over `n` positions. -/
def nodeCount (t : Threshold) (n : Nat) : Nat :=
  if _h : n ≤ t.val then 1 else 1 + nodeCount t (n / 2) + nodeCount t (n - n / 2)
termination_by n
decreasing_by
  all_goals
    have := Threshold.two_le _h
    omega

/-- The nodes over the `n` positions from `lo` on, the first of which is node `id`. -/
def layout (t : Threshold) (id : Nat) (parent : Option Nat) (lo n : Nat) : List Node :=
  if _h : n ≤ t.val then [⟨lo, lo + n, parent, none⟩]
  else
    let half := n / 2
    let left := id + 1
    let right := left + nodeCount t half
    ⟨lo, lo + n, parent, some (left, right)⟩ ::
      (layout t left (some id) lo half ++ layout t right (some id) (lo + half) (n - half))
termination_by n
decreasing_by
  all_goals
    have := Threshold.two_le _h
    omega

/-- The nodes over `n` positions. -/
def nodes (t : Threshold) (n : Nat) : Array Node := (layout t 0 none 0 n).toArray

theorem length_layout (t : Threshold) (id : Nat) (parent : Option Nat) (lo n : Nat) :
    (layout t id parent lo n).length = nodeCount t n := by
  fun_induction layout t id parent lo n with
  | case1 id parent lo n h => rw [nodeCount, dif_pos h]; rfl
  | case2 id parent lo n h half left right ihl ihr =>
    rw [nodeCount, dif_neg h, List.length_cons, List.length_append, ihl, ihr]
    simp +zetaDelta only
    omega

end Bisection.Scan
