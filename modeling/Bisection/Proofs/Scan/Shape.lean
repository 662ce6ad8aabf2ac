import Bisection.Scan.Tree
import Mathlib.Tactic.ByContra

/-!
# The shape of a scan's tree

The nodes of a scan are a list, and the tree is in their indices. This module reads the list as
a tree: the children of a node know it as their parent and share its range, the root is the only
node without a parent, and each position lies in exactly one leaf. What is proved about the tasks
of a scan rests on these facts and not on how the list is built.
-/

namespace Bisection.Scan
set_option autoImplicit false

/-- The children of node `i`, if it has any. -/
def kids (nodes : Array Node) (i : Nat) : Option (Nat × Nat) := nodes[i]?.bind Node.children

/-- The parent of node `i`, if it has one. -/
def above (nodes : Array Node) (i : Nat) : Option Nat := nodes[i]?.bind Node.parent

/-- The first position of node `i`. -/
def first (nodes : Array Node) (i : Nat) : Nat := (nodes[i]?.map Node.lo).getD 0

/-- The position behind the last one of node `i`. -/
def last (nodes : Array Node) (i : Nat) : Nat := (nodes[i]?.map Node.hi).getD 0

/-- Node `i` is a leaf. -/
def IsLeaf (nodes : Array Node) (i : Nat) : Prop := i < nodes.size ∧ kids nodes i = none

section
variable {nodes : Array Node} {i : Nat} {x : Node}

theorem kids_of_getElem? (h : nodes[i]? = some x) : kids nodes i = x.children := by simp [kids, h]

theorem above_of_getElem? (h : nodes[i]? = some x) : above nodes i = x.parent := by simp [above, h]

theorem first_of_getElem? (h : nodes[i]? = some x) : first nodes i = x.lo := by simp [first, h]

theorem last_of_getElem? (h : nodes[i]? = some x) : last nodes i = x.hi := by simp [last, h]

end

/-- The nodes from `id` on start with the tree over the `n` positions from `lo` on. -/
structure Subtree (t : Threshold) (nodes : Array Node) (id : Nat) (parent : Option Nat)
    (lo n : Nat) : Prop where
  pos : 0 < n
  fits : ∃ front back, nodes.toList = front ++ layout t id parent lo n ++ back ∧ front.length = id

namespace Subtree
variable {t : Threshold} {nodes : Array Node} {id lo n : Nat} {parent : Option Nat}

/-- The root of a subtree. -/
theorem getElem?_root (h : Subtree t nodes id parent lo n) :
    nodes[id]? = some ⟨lo, lo + n, parent,
      if n ≤ t.val then none else some (id + 1, id + 1 + nodeCount t (n / 2))⟩ := by
  obtain ⟨front, back, eq, len⟩ := h.fits
  rw [← Array.getElem?_toList, eq, layout]
  split <;> simp [← len]

theorem size_le (h : Subtree t nodes id parent lo n) : id + nodeCount t n ≤ nodes.size := by
  obtain ⟨front, back, eq, len⟩ := h.fits
  have := congrArg List.length eq
  simp only [Array.length_toList, List.length_append, length_layout, len] at this
  omega

theorem left (h : Subtree t nodes id parent lo n) (hn : ¬ n ≤ t.val) :
    Subtree t nodes (id + 1) (some id) lo (n / 2) := by
  have := Threshold.two_le hn
  refine ⟨by omega, ?_⟩
  obtain ⟨front, back, eq, len⟩ := h.fits
  rw [layout, dif_neg hn] at eq
  exact ⟨front ++ [_], _ ++ back, by simpa using eq, by simp [len]⟩

theorem right (h : Subtree t nodes id parent lo n) (hn : ¬ n ≤ t.val) :
    Subtree t nodes (id + 1 + nodeCount t (n / 2)) (some id) (lo + n / 2) (n - n / 2) := by
  have := Threshold.two_le hn
  refine ⟨by omega, ?_⟩
  obtain ⟨front, back, eq, len⟩ := h.fits
  rw [layout, dif_neg hn] at eq
  refine ⟨front ++ [_] ++ layout t (id + 1) (some id) lo (n / 2), back, by simpa using eq, ?_⟩
  simp [len, length_layout]
  omega

end Subtree

theorem nodeCount_pos (t : Threshold) (n : Nat) : 0 < nodeCount t n := by
  rw [nodeCount]
  split <;> omega

theorem nodeCount_of_lt {t : Threshold} {n : Nat} (h : ¬ n ≤ t.val) :
    nodeCount t n = 1 + nodeCount t (n / 2) + nodeCount t (n - n / 2) := by
  rw [nodeCount, dif_neg h]

/-- What holds of the root of each subtree, and carries over from the subtree to the two below it,
holds of each node. -/
theorem Subtree.forall_nodes {t : Threshold} {nodes : Array Node}
    {P : Nat → Option Nat → Nat → Nat → Prop} {id lo n : Nat} {parent : Option Nat}
    (h : Subtree t nodes id parent lo n) (top : P id parent lo n)
    (below : ∀ id parent lo n, Subtree t nodes id parent lo n → ¬ n ≤ t.val → P id parent lo n →
      P (id + 1) (some id) lo (n / 2) ∧
      P (id + 1 + nodeCount t (n / 2)) (some id) (lo + n / 2) (n - n / 2)) :
    ∀ i, id ≤ i → i < id + nodeCount t n →
      ∃ parent lo n, Subtree t nodes i parent lo n ∧ P i parent lo n := by
  induction n using Nat.strongRecOn generalizing id lo parent with
  | ind n ih =>
    intro i ge lt
    by_cases eq : i = id
    · exact eq ▸ ⟨parent, lo, n, h, top⟩
    by_cases hn : n ≤ t.val
    · rw [nodeCount, dif_pos hn] at lt
      omega
    have := Threshold.two_le hn
    have count := nodeCount_of_lt hn
    obtain ⟨topLeft, topRight⟩ := below id parent lo n h hn top
    by_cases side : i < id + 1 + nodeCount t (n / 2)
    · exact ih (n / 2) (by omega) (h.left hn) topLeft i (by omega) side
    · exact ih (n - n / 2) (by omega) (h.right hn) topRight i (by omega) (by omega)

/-- Each position of a subtree lies in one of its leaves, and in no other. -/
theorem Subtree.exists_leaf {t : Threshold} {nodes : Array Node} {id lo n : Nat}
    {parent : Option Nat} (h : Subtree t nodes id parent lo n) {k : Nat} (ge : lo ≤ k)
    (lt : k < lo + n) :
    ∃ i, id ≤ i ∧ i < id + nodeCount t n ∧ IsLeaf nodes i ∧ first nodes i ≤ k ∧ k < last nodes i ∧
      ∀ j, id ≤ j → j < id + nodeCount t n → IsLeaf nodes j → first nodes j ≤ k →
        k < last nodes j → j = i := by
  induction n using Nat.strongRecOn generalizing id lo parent with
  | ind n ih =>
    have root := h.getElem?_root
    have size := h.size_le
    have count := nodeCount_pos t n
    by_cases hn : n ≤ t.val
    · rw [if_pos hn] at root
      rw [nodeCount, dif_pos hn]
      refine ⟨id, by omega, by omega, ⟨by omega, kids_of_getElem? root⟩, ?_, ?_, by omega⟩
      · rwa [first_of_getElem? root]
      · rwa [last_of_getElem? root]
    rw [if_neg hn] at root
    have := Threshold.two_le hn
    have split := nodeCount_of_lt hn
    have inner : kids nodes id = some _ := kids_of_getElem? root
    have inLeft := within (h.left hn)
    have inRight := within (h.right hn)
    by_cases side : k < lo + n / 2
    · obtain ⟨i, ge', lt', leaf, lo', hi', only⟩ := ih (n / 2) (by omega) (h.left hn) ge side
      refine ⟨i, by omega, by omega, leaf, lo', hi', fun j jge jlt jleaf jlo jhi => ?_⟩
      have ne : j ≠ id := by rintro rfl; simp [jleaf.2] at inner
      by_cases jside : j < id + 1 + nodeCount t (n / 2)
      · exact only j (by omega) (by omega) jleaf jlo jhi
      · have := inRight j (by omega) (by omega)
        omega
    · obtain ⟨i, ge', lt', leaf, lo', hi', only⟩ :=
        ih (n - n / 2) (by omega) (h.right hn) (by omega) (by omega)
      refine ⟨i, by omega, by omega, leaf, lo', hi', fun j jge jlt jleaf jlo jhi => ?_⟩
      have ne : j ≠ id := by rintro rfl; simp [jleaf.2] at inner
      by_cases jside : j < id + 1 + nodeCount t (n / 2)
      · have := inLeft j (by omega) (by omega)
        omega
      · exact only j (by omega) (by omega) jleaf jlo jhi
where
  /-- The nodes of a subtree lie within its range. -/
  within {t : Threshold} {nodes : Array Node} {id lo n : Nat} {parent : Option Nat}
      (h : Subtree t nodes id parent lo n) (j : Nat) (ge : id ≤ j) (lt : j < id + nodeCount t n) :
      lo ≤ first nodes j ∧ last nodes j ≤ lo + n := by
    obtain ⟨_, lo', n', sub, ge', le'⟩ := h.forall_nodes
      (P := fun _ _ lo' n' => lo ≤ lo' ∧ lo' + n' ≤ lo + n) ⟨Nat.le_refl _, Nat.le_refl _⟩
      (fun _ _ lo' n' _ _ h => by omega) j ge lt
    rw [first_of_getElem? sub.getElem?_root, last_of_getElem? sub.getElem?_root]
    exact ⟨ge', le'⟩

/-- The nodes are a tree over `n` positions that is cut down to the threshold. -/
structure IsTree (t : Threshold) (n : Nat) (nodes : Array Node) : Prop where
  root : 0 < nodes.size ∧ above nodes 0 = none ∧ first nodes 0 = 0 ∧ last nodes 0 = n
  range : ∀ {i}, i < nodes.size → first nodes i < last nodes i ∧ last nodes i ≤ n
  uncut : ∀ {i}, IsLeaf nodes i → last nodes i ≤ first nodes i + t.val
  cut : ∀ {p l r}, kids nodes p = some (l, r) → first nodes p + t.val < last nodes p ∧
    first nodes l = first nodes p ∧ last nodes l = first nodes r ∧ last nodes r = last nodes p ∧
    first nodes r = first nodes p + (last nodes p - first nodes p) / 2
  order : ∀ {p l r}, kids nodes p = some (l, r) → p < l ∧ l < r ∧ r < nodes.size ∧
    above nodes l = some p ∧ above nodes r = some p
  kids_of_above : ∀ {i p}, above nodes i = some p →
    ∃ l r, kids nodes p = some (l, r) ∧ (i = l ∨ i = r)
  eq_root : ∀ {i}, i < nodes.size → above nodes i = none → i = 0
  exists_leaf : ∀ {k}, k < n → ∃ i, IsLeaf nodes i ∧ first nodes i ≤ k ∧ k < last nodes i ∧
    ∀ j, IsLeaf nodes j → first nodes j ≤ k → k < last nodes j → j = i

/-- Both children know their parent. -/
theorem IsTree.above_of_side {t : Threshold} {n i p l r : Nat} {nodes : Array Node}
    (tree : IsTree t n nodes) (h : kids nodes p = some (l, r)) (side : i = l ∨ i = r) :
    above nodes i = some p := by
  obtain ⟨-, -, -, left, right⟩ := tree.order h
  rcases side with rfl | rfl
  · exact left
  · exact right

/-- Two leaves have no position in common. -/
theorem IsTree.leaves_apart {t : Threshold} {n i j : Nat} {nodes : Array Node}
    (tree : IsTree t n nodes) (hi : IsLeaf nodes i) (hj : IsLeaf nodes j) (ne : i ≠ j) :
    last nodes i ≤ first nodes j ∨ last nodes j ≤ first nodes i := by
  by_contra common
  have rangeI := tree.range hi.1
  have rangeJ := tree.range hj.1
  obtain ⟨k, -, -, -, only⟩ := tree.exists_leaf (k := max (first nodes i) (first nodes j))
    (by omega)
  exact ne ((only i hi (by omega) (by omega)).trans (only j hj (by omega) (by omega)).symm)

theorem subtree_nodes (t : Threshold) {n : Nat} (pos : 0 < n) :
    Subtree t (nodes t n) 0 none 0 n :=
  ⟨pos, [], [], by simp [nodes], rfl⟩

theorem size_nodes (t : Threshold) (n : Nat) : (nodes t n).size = nodeCount t n := by
  simp [nodes, length_layout]

/-- Each node is the root of a subtree, and below its parent unless it is the root of all. -/
theorem exists_subtree {t : Threshold} {n i : Nat} (pos : 0 < n) (h : i < (nodes t n).size) :
    ∃ parent lo len, Subtree t (nodes t n) i parent lo len ∧ lo + len ≤ n ∧
      ((parent = none ∧ i = 0) ∨
        ∃ p l r, parent = some p ∧ kids (nodes t n) p = some (l, r) ∧ (i = l ∨ i = r)) := by
  rw [size_nodes] at h
  refine (subtree_nodes t pos).forall_nodes
    (P := fun i parent lo len => lo + len ≤ n ∧ ((parent = none ∧ i = 0) ∨
        ∃ p l r, parent = some p ∧ kids (nodes t n) p = some (l, r) ∧ (i = l ∨ i = r)))
    ⟨by omega, .inl ⟨rfl, rfl⟩⟩ (fun id parent lo len sub hn top => ?_) i (by omega) (by omega)
  have root := sub.getElem?_root
  rw [if_neg hn] at root
  have := kids_of_getElem? root
  exact ⟨⟨by omega, .inr ⟨id, _, _, rfl, this, .inl rfl⟩⟩,
    ⟨by omega, .inr ⟨id, _, _, rfl, this, .inr rfl⟩⟩⟩

theorem isTree_nodes (t : Threshold) {n : Nat} (pos : 0 < n) : IsTree t n (nodes t n) where
  root := by
    have root := (subtree_nodes t pos).getElem?_root
    have count := nodeCount_pos t n
    rw [above_of_getElem? root, first_of_getElem? root, last_of_getElem? root, size_nodes]
    exact ⟨count, rfl, rfl, Nat.zero_add n⟩
  range h := by
    obtain ⟨parent, lo, len, sub, le, -⟩ := exists_subtree pos h
    rw [first_of_getElem? sub.getElem?_root, last_of_getElem? sub.getElem?_root]
    exact ⟨Nat.lt_add_of_pos_right sub.pos, le⟩
  uncut h := by
    obtain ⟨parent, lo, len, sub, -⟩ := exists_subtree pos h.1
    have root := sub.getElem?_root
    have leaf := h.2
    rw [kids_of_getElem? root] at leaf
    rw [first_of_getElem? root, last_of_getElem? root]
    grind
  cut {p l r} h := by
    obtain ⟨parent, lo, len, sub, root, rfl, rfl, hn⟩ := exists_of_kids pos h
    have left := (sub.left hn).getElem?_root
    have right := (sub.right hn).getElem?_root
    rw [first_of_getElem? root, last_of_getElem? root, first_of_getElem? left,
      last_of_getElem? left, first_of_getElem? right, last_of_getElem? right]
    dsimp only
    omega
  order {p l r} h := by
    obtain ⟨parent, lo, len, sub, root, rfl, rfl, hn⟩ := exists_of_kids pos h
    have size := (sub.right hn).size_le
    have := nodeCount_pos t (len / 2)
    have := nodeCount_pos t (len - len / 2)
    rw [above_of_getElem? (sub.left hn).getElem?_root,
      above_of_getElem? (sub.right hn).getElem?_root]
    exact ⟨by omega, by omega, by omega, rfl, rfl⟩
  kids_of_above {i p} h := by
    have lt : i < (nodes t n).size := by
      by_contra ge
      simp [above, Array.getElem?_eq_none (Nat.le_of_not_lt ge)] at h
    obtain ⟨parent, lo, len, sub, -, top | ⟨q, l, r, eq, below⟩⟩ := exists_subtree pos lt
    · rw [above_of_getElem? sub.getElem?_root] at h
      simp [top.1] at h
    · rw [above_of_getElem? sub.getElem?_root, eq, Option.some.injEq] at h
      exact ⟨l, r, h ▸ below⟩
  eq_root {i} lt h := by
    obtain ⟨parent, lo, len, sub, -, top | ⟨q, l, r, eq, below⟩⟩ := exists_subtree pos lt
    · exact top.2
    · rw [above_of_getElem? sub.getElem?_root, eq] at h
      cases h
  exists_leaf {k} lt := by
    obtain ⟨i, -, -, leaf, lo, hi, only⟩ :=
      (subtree_nodes t pos).exists_leaf (Nat.zero_le k) (by omega)
    refine ⟨i, leaf, lo, hi, fun j jleaf => only j (Nat.zero_le j) ?_ jleaf⟩
    have := jleaf.1
    rw [size_nodes] at this
    omega
where
  exists_of_kids {t : Threshold} {n p l r : Nat} (pos : 0 < n)
      (h : kids (nodes t n) p = some (l, r)) :
      ∃ parent lo len, Subtree t (nodes t n) p parent lo len ∧
        (nodes t n)[p]? = some ⟨lo, lo + len, parent, some (l, r)⟩ ∧ l = p + 1 ∧
        r = p + 1 + nodeCount t (len / 2) ∧ ¬ len ≤ t.val := by
    have lt : p < (nodes t n).size := by
      by_contra ge
      simp [kids, Array.getElem?_eq_none (Nat.le_of_not_lt ge)] at h
    obtain ⟨parent, lo, len, sub, -⟩ := exists_subtree pos lt
    have root := sub.getElem?_root
    rw [kids_of_getElem? root] at h
    refine ⟨parent, lo, len, sub, ?_⟩
    grind

end Bisection.Scan
