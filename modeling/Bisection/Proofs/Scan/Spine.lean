import Bisection.Proofs.Scan.Ledger
import Mathlib.Algebra.GroupWithZero.Nat
import Mathlib.Data.List.Sort
import Mathlib.Logic.Relation

/-!
# The left edge of a scan's tree

The nodes on the left edge are a chain from the root down, each half as long as the one above it.
All of them are cut but the lowest one. `spine` lists those that are cut, from the lowest one up,
and `spineEnds` their lengths.
-/

namespace Bisection.Scan
set_option autoImplicit false

open Stage

/-- Node `p` is on the left edge, and cut. -/
def IsSpine (nodes : Array Node) (p : Nat) : Prop := (kids nodes p).isSome ∧ first nodes p = 0

instance (nodes : Array Node) (p : Nat) : Decidable (IsSpine nodes p) :=
  inferInstanceAs (Decidable ((kids nodes p).isSome ∧ first nodes p = 0))

/-- The nodes on the left edge that are cut, from the lowest one up to the root. -/
def spine (nodes : Array Node) : List Nat :=
  ((List.range nodes.size).filter (IsSpine nodes ·)).reverse

/-- Those of `n`, `n / 2`, `n / 4` and so on that exceed the threshold, the smallest first. -/
def spineEnds (t : Threshold) (n : Nat) : List Nat :=
  if _h : n ≤ t.val then [] else spineEnds t (n / 2) ++ [n]
termination_by n
decreasing_by
  have := Threshold.two_le _h
  omega

theorem mem_spineEnds {t : Threshold} {n e : Nat} :
    e ∈ spineEnds t n ↔ ∃ j, e = n / 2 ^ j ∧ t.val < e := by
  fun_induction spineEnds t n with
  | case1 n le =>
    simp only [List.not_mem_nil, false_iff]
    rintro ⟨j, rfl, lt⟩
    have := Nat.div_le_self n (2 ^ j)
    omega
  | case2 n gt ih =>
    have half (j : Nat) : n / 2 / 2 ^ j = n / 2 ^ (j + 1) := by
      rw [Nat.div_div_eq_div_mul, Nat.pow_succ']
    rw [List.mem_append, ih, List.mem_singleton]
    constructor
    · rintro (⟨j, rfl, lt⟩ | rfl)
      · exact ⟨j + 1, half j, lt⟩
      · exact ⟨0, (Nat.div_one _).symm, Nat.lt_of_not_le gt⟩
    · rintro ⟨_ | j, rfl, lt⟩
      · exact .inr (Nat.div_one n)
      · exact .inl ⟨j, (half j).symm, lt⟩

theorem pairwise_spineEnds (t : Threshold) (n : Nat) : (spineEnds t n).Pairwise (· < ·) := by
  fun_induction spineEnds t n with
  | case1 n le => exact .nil
  | case2 n gt ih =>
    refine List.pairwise_append.mpr ⟨ih, List.pairwise_singleton _ _, fun e mem x last => ?_⟩
    obtain ⟨j, rfl, lt⟩ := mem_spineEnds.mp mem
    have := Nat.div_le_self (n / 2) (2 ^ j)
    have := List.mem_singleton.mp last
    omega

/-- Node `l` is the left child of node `p`. -/
def IsLeftChild (nodes : Array Node) (p l : Nat) : Prop := ∃ r, kids nodes p = some (l, r)

/-- A node, its left child, the left child of that, and so on. -/
abbrev Chain (nodes : Array Node) : Nat → Nat → Prop := Relation.ReflTransGen (IsLeftChild nodes)

theorem rightUnique_isLeftChild (nodes : Array Node) : Relator.RightUnique (IsLeftChild nodes) := by
  rintro p l l' ⟨r, h⟩ ⟨r', h'⟩
  rw [h] at h'
  cases h'
  rfl

section
variable {t : Threshold} {n : Nat} {nodes : Array Node} {L : Ledger} {i p q l r : Nat}

theorem IsSpine.lt (h : IsSpine nodes p) : p < nodes.size := by
  by_contra ge
  have inner := h.1
  simp [kids, Array.getElem?_eq_none (Nat.le_of_not_lt ge)] at inner

theorem mem_spine : p ∈ spine nodes ↔ IsSpine nodes p := by
  rw [spine, List.mem_reverse, List.mem_filter, List.mem_range, decide_eq_true_iff]
  exact ⟨And.right, fun h => ⟨h.lt, h⟩⟩

theorem pairwise_spine (nodes : Array Node) : (spine nodes).Pairwise (· > ·) :=
  List.pairwise_reverse.mpr (List.pairwise_lt_range.filter _)

/-- The left child of a node on the left edge is on the edge, and has half of its length. -/
theorem IsTree.left_of_edge (tree : IsTree t n nodes) (h : kids nodes p = some (l, r))
    (edge : first nodes p = 0) : first nodes l = 0 ∧ last nodes l = last nodes p / 2 := by
  obtain ⟨-, left, middle, -, right⟩ := tree.cut h
  rw [left, middle, right, edge, Nat.zero_add, Nat.sub_zero]
  exact ⟨rfl, rfl⟩

/-- Down a chain on the left edge the indices rise, and the ends fall. -/
theorem IsTree.falls (tree : IsTree t n nodes) (edge : first nodes p = 0)
    (chain : Chain nodes p q) :
    first nodes q = 0 ∧ (q = p ∨ p < q ∧ last nodes q < last nodes p) := by
  induction chain with
  | refl => exact ⟨edge, .inl rfl⟩
  | tail _ child ih =>
    obtain ⟨r, h⟩ := child
    obtain ⟨edge', below⟩ := ih
    obtain ⟨start, half⟩ := tree.left_of_edge h edge'
    have order := tree.order h
    have cut := tree.cut h
    refine ⟨start, .inr ?_⟩
    rcases below with rfl | ⟨lt, less⟩
    · omega
    · omega

/-- A node on the left edge is reached from the root. -/
theorem IsTree.chain (tree : IsTree t n nodes) (lt : i < nodes.size) (edge : first nodes i = 0) :
    Chain nodes 0 i := by
  induction i using Nat.strongRecOn with
  | ind i ih =>
    cases up : above nodes i with
    | none => exact tree.eq_root lt up ▸ .refl
    | some p =>
      obtain ⟨l, r, h, side⟩ := tree.kids_of_above up
      obtain ⟨pl, lr, ltR, -⟩ := tree.order h
      obtain rfl : i = l := side.resolve_right fun right =>
        tree.first_right_ne_zero h (right ▸ edge)
      have start : first nodes p = 0 := (tree.cut h).2.1 ▸ edge
      exact (ih p pl (by omega) start).tail ⟨r, h⟩

/-- Of two nodes on the left edge the one with the greater index is below the other. -/
theorem IsTree.chain_of_lt (tree : IsTree t n nodes) (ltQ : q < nodes.size)
    (edgeP : first nodes p = 0) (edgeQ : first nodes q = 0) (lt : p < q) : Chain nodes p q := by
  have up := tree.chain (Nat.lt_trans lt ltQ) edgeP
  refine (Relation.ReflTransGen.total_of_right_unique (rightUnique_isLeftChild nodes) up
    (tree.chain ltQ edgeQ)).resolve_right fun down => ?_
  have := (tree.falls edgeQ down).2
  omega

/-- The end of a node on the left edge. -/
theorem IsTree.last_of_chain (tree : IsTree t n nodes) (chain : Chain nodes 0 i) :
    ∃ j, last nodes i = n / 2 ^ j := by
  induction chain with
  | refl => exact ⟨0, tree.root.2.2.2.trans (Nat.div_one n).symm⟩
  | tail chain child ih =>
    obtain ⟨r, h⟩ := child
    obtain ⟨j, eq⟩ := ih
    refine ⟨j + 1, ?_⟩
    rw [(tree.left_of_edge h (tree.falls tree.root.2.2.1 chain).1).2, eq,
      Nat.div_div_eq_div_mul, Nat.pow_succ]

/-- A node on the left edge that is longer than the threshold is cut. -/
theorem IsTree.isSpine_of_lt (tree : IsTree t n nodes) (lt : i < nodes.size)
    (edge : first nodes i = 0) (long : t.val < last nodes i) : IsSpine nodes i := by
  refine ⟨Option.isSome_iff_ne_none.mpr fun leaf => ?_, edge⟩
  have := tree.uncut ⟨lt, leaf⟩
  omega

/-- There is a node on the spine for each of the ends. -/
theorem IsTree.exists_spine (tree : IsTree t n nodes) (j : Nat) (long : t.val < n / 2 ^ j) :
    ∃ p, IsSpine nodes p ∧ last nodes p = n / 2 ^ j := by
  induction j with
  | zero =>
    rw [Nat.pow_zero, Nat.div_one] at long ⊢
    obtain ⟨lt, -, edge, whole⟩ := tree.root
    exact ⟨0, tree.isSpine_of_lt lt edge (whole ▸ long), whole⟩
  | succ j ih =>
    rw [Nat.pow_succ, ← Nat.div_div_eq_div_mul] at long ⊢
    obtain ⟨p, spine, eq⟩ := ih (by omega)
    obtain ⟨⟨l, r⟩, h⟩ := Option.isSome_iff_exists.mp spine.1
    obtain ⟨edge, half⟩ := tree.left_of_edge h spine.2
    rw [eq] at half
    have order := tree.order h
    exact ⟨l, tree.isSpine_of_lt (by omega) edge (half ▸ long), half⟩

/-- The ends of the nodes on the spine are those of `n`, `n / 2`, `n / 4` and so on that exceed the
threshold. -/
theorem IsTree.map_last_spine (tree : IsTree t n nodes) :
    (spine nodes).map (last nodes) = spineEnds t n := by
  have rises : ((spine nodes).map (last nodes)).Pairwise (· < ·) := by
    refine List.pairwise_map.mpr ((pairwise_spine nodes).imp_of_mem fun {q p} hq hp lt => ?_)
    have spineQ := mem_spine.mp hq
    have edge := (mem_spine.mp hp).2
    have falls := (tree.falls edge (tree.chain_of_lt spineQ.lt edge spineQ.2 lt)).2
    omega
  refine rises.eq_of_mem_iff (pairwise_spineEnds t n) fun e => ?_
  rw [mem_spineEnds, List.mem_map]
  constructor
  · rintro ⟨p, mem, rfl⟩
    have spine := mem_spine.mp mem
    obtain ⟨⟨l, r⟩, h⟩ := Option.isSome_iff_exists.mp spine.1
    obtain ⟨j, eq⟩ := tree.last_of_chain (tree.chain spine.lt spine.2)
    have cut := (tree.cut h).1
    exact ⟨j, eq, by omega⟩
  · rintro ⟨j, rfl, long⟩
    obtain ⟨p, spine, eq⟩ := tree.exists_spine j long
    exact ⟨p, mem_spine.mpr spine, eq⟩

/-- Down a chain from a node that is summed, all is summed, and reported but for that node. -/
theorem Ledger.Fits.done_of_chain (fits : L.Fits nodes) (summed : news ≤ L.sum p)
    (chain : Chain nodes p q) : q = p ∨ L.sum q = done := by
  induction chain with
  | refl => exact .inl rfl
  | tail _ child ih =>
    obtain ⟨r, h⟩ := child
    refine .inr ((fits.inner h).joined.mp ?_).1
    rcases ih with rfl | eq
    · exact summed
    · rw [eq]
      decide

end

end Bisection.Scan
