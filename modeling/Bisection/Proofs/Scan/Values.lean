import Bisection.Proofs.Scan.Reference
import Bisection.Proofs.Scan.Shape

/-!
# The values of a scan, node by node

A `Job` says what is scanned and how. It fixes for each node of the tree the total that its cell
is to receive and the prefix that is to be handed to it, and for each position the element that
the scan is to leave there. These values are those of `Reference`: the lemmas below split them at
the children of a node and give them on a leaf.
-/

namespace Bisection.Scan
set_option autoImplicit false

/-- What is scanned: elements, of which there is at least one, and how they are combined. -/
structure Job (α : Type) where
  cut : Threshold
  op : α → α → α
  mode : Mode
  base : α
  elems : Store α
  nonempty : 0 < elems.size

namespace Job
variable {α : Type} (J : Job α)

/-- The tree of the scan. -/
def nodes : Array Node := Scan.nodes J.cut J.elems.size

theorem isTree : IsTree J.cut J.elems.size J.nodes := isTree_nodes J.cut J.nonempty

/-- The elements in the range of a node. -/
def part (i : Nat) : List α := (J.elems.toList.take (last J.nodes i)).drop (first J.nodes i)

/-- The total of a node, with the base value on the left edge. -/
def total (i : Nat) : Option α :=
  if first J.nodes i = 0 then some (Reference.edgeTotal J.cut J.op J.base (J.part i))
  else Reference.innerTotal J.cut J.op (J.part i)

/-- The total of the base value and all that is to the left of a node. -/
def before (i : Nat) : α :=
  match above J.nodes i with
  | none => J.base
  | some p =>
    if _h : p < i then
      match kids J.nodes p with
      | none => J.base
      | some (l, r) =>
        if i = r then
          Reference.rightPrefix J.cut J.op (first J.nodes p = 0) (before p) (J.part l)
        else before p
    else J.base
termination_by i

/-- What the elements are after the scan. -/
def final : List α := Reference.result J.cut J.op J.mode true J.base J.elems.toList

variable {J} {i p l r : Nat}

theorem length_part (h : i < J.nodes.size) :
    (J.part i).length = last J.nodes i - first J.nodes i := by
  have := J.isTree.range h
  simp only [part, List.length_drop, List.length_take, Store.length_toList]
  omega

theorem part_root : J.part 0 = J.elems.toList := by
  obtain ⟨-, -, lo, hi⟩ := J.isTree.root
  rw [part, lo, hi, List.drop_zero, List.take_of_length_le (by simp)]

/-- A list cut out of another is cut in two at a place within it. -/
theorem take_drop_split (xs : List α) {a b c : Nat} (ab : a ≤ b) (bc : b ≤ c) :
    ((xs.take c).drop a).take (b - a) = (xs.take b).drop a ∧
      ((xs.take c).drop a).drop (b - a) = (xs.take c).drop b := by
  constructor
  · rw [List.take_drop, List.take_take]
    congr 2
    omega
  · rw [List.drop_drop]
    congr 1
    omega

theorem size_of_kids (h : kids J.nodes p = some (l, r)) :
    p < J.nodes.size ∧ l < J.nodes.size ∧ r < J.nodes.size := by
  have := J.isTree.order h
  omega

/-- The elements of a node that is cut are those of its children. -/
theorem part_of_kids (h : kids J.nodes p = some (l, r)) :
    (J.part p).take ((J.part p).length / 2) = J.part l ∧
      (J.part p).drop ((J.part p).length / 2) = J.part r ∧ ¬ (J.part p).length ≤ J.cut.val := by
  obtain ⟨hp, hl, hr⟩ := size_of_kids h
  obtain ⟨long, firstLeft, lastLeft, lastRight, firstRight⟩ := J.isTree.cut h
  have := J.isTree.range hl
  have range := J.isTree.range hr
  have split := take_drop_split J.elems.toList (a := first J.nodes l) (b := last J.nodes l)
    (c := last J.nodes r) (by omega) (by omega)
  rw [length_part hp, part, part, part, ← lastRight, ← firstLeft]
  rw [show (last J.nodes r - first J.nodes l) / 2 = last J.nodes l - first J.nodes l by omega]
  refine ⟨split.1, ?_, by omega⟩
  rw [split.2, lastLeft]

theorem length_part_le (h : IsLeaf J.nodes i) : (J.part i).length ≤ J.cut.val := by
  have := J.isTree.uncut h
  rw [length_part h.1]
  omega

theorem part_ne_nil (h : i < J.nodes.size) : J.part i ≠ [] := by
  have := J.isTree.range h
  apply List.ne_nil_of_length_pos
  rw [length_part h]
  omega

theorem first_right_pos (h : kids J.nodes p = some (l, r)) : first J.nodes r ≠ 0 := by
  have := J.isTree.cut h
  have := J.isTree.range (size_of_kids h).2.1
  omega

theorem isSome_total (h : i < J.nodes.size) : (J.total i).isSome := by
  rw [total]
  split
  · rfl
  · exact Reference.isSome_innerTotal (part_ne_nil h)

theorem total_edge_leaf (h : IsLeaf J.nodes i) (edge : first J.nodes i = 0) :
    J.total i = some ((J.part i).foldl J.op J.base) := by
  rw [total, if_pos edge, Reference.edgeTotal_of_le _ (length_part_le h)]

theorem total_leaf (h : IsLeaf J.nodes i) (off : first J.nodes i ≠ 0) :
    J.total i = Reference.leafTotal J.op (J.part i) := by
  rw [total, if_neg off, Reference.innerTotal_of_le (length_part_le h)]

theorem total_of_kids (h : kids J.nodes p = some (l, r)) {x y : α} (left : J.total l = some x)
    (right : J.total r = some y) : J.total p = some (J.op x y) := by
  obtain ⟨partLeft, partRight, long⟩ := part_of_kids h
  have firstLeft := (J.isTree.cut h).2.1
  rw [total, if_neg (first_right_pos h)] at right
  rw [total, firstLeft] at left
  rw [total]
  split
  · next edge =>
    rw [if_pos edge, Option.some.injEq] at left
    rw [Reference.edgeTotal_of_gt _ long, partLeft, partRight, left, right]
    rfl
  · next off =>
    rw [if_neg off] at left
    rw [Reference.innerTotal_of_gt long, partLeft, partRight, left, right]
    rfl

theorem total_root : J.total 0 =
    some (Reference.edgeTotal J.cut J.op J.base J.elems.toList) := by
  rw [total, if_pos J.isTree.root.2.2.1, part_root]

theorem before_root : J.before 0 = J.base := by
  rw [before, J.isTree.root.2.1]

theorem before_left (h : kids J.nodes p = some (l, r)) : J.before l = J.before p := by
  obtain ⟨pl, lr, -, up, -⟩ := J.isTree.order h
  rw [before, up]
  simp only [h, dif_pos pl, if_neg (Nat.ne_of_lt lr)]

theorem before_right (h : kids J.nodes p = some (l, r)) : J.before r =
    Reference.rightPrefix J.cut J.op (first J.nodes p = 0) (J.before p) (J.part l) := by
  obtain ⟨pl, lr, -, -, up⟩ := J.isTree.order h
  rw [before, up]
  simp only [h, dif_pos (Nat.lt_trans pl lr), if_pos]

/-- On the left edge the prefix is the base value. -/
theorem before_edge (h : i < J.nodes.size) (edge : first J.nodes i = 0) : J.before i = J.base := by
  induction i using Nat.strongRecOn with
  | ind i ih =>
    cases up : above J.nodes i with
    | none => rw [J.isTree.eq_root h up, before_root]
    | some p =>
      obtain ⟨l, r, below, rfl | rfl⟩ := J.isTree.kids_of_above up
      · have := J.isTree.cut below
        rw [before_left below]
        exact ih p (J.isTree.order below).1 (size_of_kids below).1 (by omega)
      · exact absurd edge (first_right_pos below)

/-- The prefix of a right child is the total of its sibling on the left edge, and elsewhere its
parent's prefix combined with that total. -/
theorem before_right_of_total (h : kids J.nodes p = some (l, r)) {x : α}
    (left : J.total l = some x) :
    J.before r = if first J.nodes p = 0 then x else J.op (J.before p) x := by
  have firstLeft := (J.isTree.cut h).2.1
  rw [total, firstLeft] at left
  rw [before_right h, Reference.rightPrefix]
  split
  · next edge =>
    have edge := of_decide_eq_true edge
    rw [if_pos edge, Option.some.injEq] at left
    rw [if_pos edge, before_edge (size_of_kids h).1 edge, left]
  · next off =>
    have off := fun edge => off (decide_eq_true edge)
    rw [if_neg off] at left
    rw [if_neg off, left]
    rfl

theorem length_final : J.final.length = J.elems.size := by simp [final]

/-- The final elements of a node are what the recursion leaves on its part. -/
theorem final_part (h : i < J.nodes.size) :
    (J.final.take (last J.nodes i)).drop (first J.nodes i) =
      Reference.result J.cut J.op J.mode (first J.nodes i = 0) (J.before i) (J.part i) := by
  induction i using Nat.strongRecOn with
  | ind i ih =>
    cases up : above J.nodes i with
    | none =>
      obtain rfl := J.isTree.eq_root h up
      obtain ⟨-, -, lo, hi⟩ := J.isTree.root
      rw [lo, hi, before_root, part_root, List.drop_zero, List.take_of_length_le (by simp [final])]
      rfl
    | some p =>
      obtain ⟨l, r, below, side⟩ := J.isTree.kids_of_above up
      obtain ⟨hp, hl, hr⟩ := size_of_kids below
      obtain ⟨pl, lr, -⟩ := J.isTree.order below
      obtain ⟨partLeft, partRight, long⟩ := part_of_kids below
      obtain ⟨-, firstLeft, lastLeft, lastRight, -⟩ := J.isTree.cut below
      have rangeLeft := J.isTree.range hl
      have rangeRight := J.isTree.range hr
      have whole := ih p (by omega) hp
      rw [Reference.result_of_gt _ _ long, partLeft, partRight, ← firstLeft] at whole
      have split := take_drop_split J.final (a := first J.nodes l) (b := last J.nodes l)
        (c := last J.nodes r) (by omega) (by omega)
      rw [lastRight, whole] at split
      have length : (Reference.result J.cut J.op J.mode (first J.nodes l = 0) (J.before p)
          (J.part l)).length = last J.nodes l - first J.nodes l := by
        rw [Reference.length_result, length_part hl]
      rw [List.take_left' length, List.drop_left' length] at split
      rcases side with rfl | rfl
      · rw [← split.1, before_left below]
      · rw [before_right below, decide_eq_false (first_right_pos below), ← lastLeft, lastRight,
          ← firstLeft]
        exact split.2.symm

theorem final_leaf (h : IsLeaf J.nodes i) :
    (J.final.take (last J.nodes i)).drop (first J.nodes i) =
      Reference.running J.op J.mode (J.before i) (J.part i) := by
  rw [final_part h.1, Reference.result_of_le _ _ (length_part_le h)]

end Job

end Bisection.Scan
