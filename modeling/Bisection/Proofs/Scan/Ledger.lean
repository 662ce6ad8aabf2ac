import Bisection.Proofs.Scan.Values

/-!
# The ledger of a scan

The phase of a node does not tell how far the node is: a leaf is marked before it is summed, and on
an inner node a mark may stand for either child. A `Ledger` keeps for each node how far its summing
and its writing are. It is no part of the scan. The cells, the tasks that are left and the
elements are read off it, and what the tasks do is an entry in it.

`Ledger.Fits` says which ledgers there are: how a node and its children hang together, and what the
left edge has to itself. There is a lemma for each kind of entry, which says that the ledger fits
afterwards.
-/

namespace Bisection.Scan
set_option autoImplicit false

namespace Stage

/-- Nobody is to do anything yet. -/
abbrev idle : Nat := 0
/-- The node is marked, and a task is about to start the one that visits it. -/
abbrev promised : Nat := 1
/-- A task is to visit the node. -/
abbrev due : Nat := 2
/-- A task is to claim the leaf. -/
abbrev claimed : Nat := 3
/-- A task is at work on the node. -/
abbrev busy : Nat := 4
/-- The right child is told to write, and a task is to tell the left one. -/
abbrev handing : Nat := 5
/-- The children are to be done first. -/
abbrev waiting : Nat := 6
/-- A task is to report that the node is done. -/
abbrev news : Nat := 7
/-- The parent knows. -/
abbrev done : Nat := 8

end Stage

open Stage

/-- How far the summing and the writing of each node are. -/
structure Ledger where
  sum : Nat → Nat
  write : Nat → Nat

/-- Node `i` is the leaf at the left end. -/
def IsEdgeLeaf (nodes : Array Node) (i : Nat) : Prop := IsLeaf nodes i ∧ first nodes i = 0

instance (nodes : Array Node) (i : Nat) : Decidable (IsEdgeLeaf nodes i) :=
  inferInstanceAs (Decidable ((i < nodes.size ∧ kids nodes i = none) ∧ first nodes i = 0))

namespace Ledger

/-- The ledger with the summing of node `i` at stage `s`. -/
def setSum (L : Ledger) (i s : Nat) : Ledger :=
  { L with sum := fun j => if j = i then s else L.sum j }

/-- The ledger with the writing of node `i` at stage `s`. -/
def setWrite (L : Ledger) (i s : Nat) : Ledger :=
  { L with write := fun j => if j = i then s else L.write j }

@[simp, grind =] theorem sum_setSum (L : Ledger) (i s j : Nat) :
    (L.setSum i s).sum j = if j = i then s else L.sum j := rfl

@[simp, grind =] theorem write_setSum (L : Ledger) (i s j : Nat) :
    (L.setSum i s).write j = L.write j := rfl

@[simp, grind =] theorem sum_setWrite (L : Ledger) (i s j : Nat) :
    (L.setWrite i s).sum j = L.sum j := rfl

@[simp, grind =] theorem write_setWrite (L : Ledger) (i s j : Nat) :
    (L.setWrite i s).write j = if j = i then s else L.write j := rfl

/-- The ledgers agree at node `j`. -/
abbrev SameAt (j : Nat) (L L' : Ledger) : Prop := L'.sum j = L.sum j ∧ L'.write j = L.write j

/-- The ledgers agree but at node `i`. -/
def SameBut (i : Nat) (L L' : Ledger) : Prop := ∀ j, j ≠ i → SameAt j L L'

theorem sameBut_setSum (L : Ledger) (i s : Nat) : SameBut i L (L.setSum i s) :=
  fun _ ne => ⟨if_neg ne, rfl⟩

theorem sameBut_setWrite (L : Ledger) (i s : Nat) : SameBut i L (L.setWrite i s) :=
  fun _ ne => ⟨rfl, if_neg ne⟩

theorem SameBut.setWrite {i : Nat} {L L' : Ledger} (same : SameBut i L L') (s : Nat) :
    SameBut i L (L'.setWrite i s) :=
  fun j ne => ⟨(same j ne).1, (if_neg ne).trans (same j ne).2⟩

/-- A node that goes on with its writing takes no other node back. -/
theorem le_write_setWrite {L : Ledger} {i a b : Nat} (at_a : L.write i = a) (le : a ≤ b) (j : Nat) :
    L.write j ≤ (L.setWrite i b).write j := by
  rw [write_setWrite]
  split
  · next eq => rwa [eq, at_a]
  · exact Nat.le_refl _

/-- How a node and its children hang together. -/
structure FitsInner (nodes : Array Node) (L : Ledger) (p l r : Nat) : Prop where
  sumStage : L.sum p = idle ∨ L.sum p = due ∨ L.sum p = waiting ∨ L.sum p = news ∨ L.sum p = done
  writeStage : L.write p ≠ claimed ∧ L.write p ≤ done
  begun : (L.sum p ≤ due ↔ L.sum l = idle) ∧ (L.sum p ≤ due ↔ L.sum r = idle)
  joined : news ≤ L.sum p ↔ L.sum l = done ∧ L.sum r = done
  told : L.write p ≠ idle → news ≤ L.sum p
  toldRight : (L.write r ≠ idle ↔ handing ≤ L.write p) ∧ (due ≤ L.write r ↔ waiting ≤ L.write p)
  toldLeft : first nodes p ≠ 0 →
    L.write l ≠ promised ∧ (L.write l ≠ idle ↔ waiting ≤ L.write p)
  edge : first nodes p = 0 → L.write p ≠ promised ∧ (news ≤ L.sum p → L.write p ≠ idle)
  written : news ≤ L.write p ↔ L.write l = done ∧ L.write r = done

/-- What holds of a leaf. The leaf at the left end is summed and written in one visit. -/
structure FitsLeaf (nodes : Array Node) (L : Ledger) (i : Nat) : Prop where
  sumStage : L.sum i ≠ promised ∧ L.sum i ≠ handing ∧ L.sum i ≠ waiting ∧ L.sum i ≤ done
  writeStage : L.write i ≠ handing ∧ L.write i ≠ waiting ∧ L.write i ≤ done
  edge : first nodes i = 0 → (L.write i = idle ∧ L.sum i < busy) ∨
    (L.sum i = busy ∧ (L.write i = busy ∨ L.write i = news)) ∨
    (L.write i = L.sum i ∧ news ≤ L.sum i)

-- A family or a leaf that fits brings its conditions along wherever stages are compared.
attribute [grind →] FitsInner.sumStage FitsInner.writeStage FitsInner.begun FitsInner.joined
  FitsInner.told FitsInner.toldRight FitsInner.toldLeft FitsInner.edge FitsInner.written
  FitsLeaf.sumStage FitsLeaf.writeStage FitsLeaf.edge

theorem FitsInner.congr {nodes : Array Node} {L L' : Ledger} {p l r : Nat}
    (inner : L.FitsInner nodes p l r) (atP : SameAt p L L') (atL : SameAt l L L')
    (atR : SameAt r L L') : L'.FitsInner nodes p l r := by
  obtain ⟨sumP, writeP⟩ := atP
  obtain ⟨sumL, writeL⟩ := atL
  obtain ⟨sumR, writeR⟩ := atR
  constructor <;> simp only [sumP, writeP, sumL, writeL, sumR, writeR]
  · exact inner.sumStage
  · exact inner.writeStage
  · exact inner.begun
  · exact inner.joined
  · exact inner.told
  · exact inner.toldRight
  · exact inner.toldLeft
  · exact inner.edge
  · exact inner.written

theorem FitsLeaf.congr {nodes : Array Node} {L L' : Ledger} {i : Nat}
    (leaf : L.FitsLeaf nodes i) (same : SameAt i L L') : L'.FitsLeaf nodes i := by
  obtain ⟨sum, write⟩ := same
  constructor <;> simp only [sum, write]
  · exact leaf.sumStage
  · exact leaf.writeStage
  · exact leaf.edge

/-- The ledger is one that a scan can have. -/
structure Fits (nodes : Array Node) (L : Ledger) : Prop where
  root : due ≤ L.sum 0
  inner : ∀ {p l r}, kids nodes p = some (l, r) → L.FitsInner nodes p l r
  leaf : ∀ {i}, IsLeaf nodes i → L.FitsLeaf nodes i

end Ledger

section
variable {t : Threshold} {n : Nat} {nodes : Array Node} {L : Ledger} {i p l r : Nat}

theorem IsTree.not_isLeaf (h : kids nodes p = some (l, r)) : ¬ IsLeaf nodes p := by
  rintro ⟨-, none⟩
  simp [h] at none

theorem IsTree.first_right_ne_zero (tree : IsTree t n nodes) (h : kids nodes p = some (l, r)) :
    first nodes r ≠ 0 := by
  have order := tree.order h
  have cut := tree.cut h
  have range := tree.range (i := l) (by omega)
  omega

/-- Two families have no member in common but a child of one that is the parent of the other. -/
theorem IsTree.family (tree : IsTree t n nodes) (h : kids nodes p = some (l, r)) {p' l' r' : Nat}
    (h' : kids nodes p' = some (l', r')) :
    (p' = p ∧ l' = l ∧ r' = r) ∨ (p' ≠ p ∧ l' ≠ l ∧ l' ≠ r ∧ r' ≠ l ∧ r' ≠ r) := by
  have order := tree.order h
  have order' := tree.order h'
  grind

/-- A node that is not the leaf at the left end is summed before it is told to write. -/
theorem Ledger.Fits.news_le_sum (fits : L.Fits nodes) (tree : IsTree t n nodes)
    (lt : i < nodes.size) (off : ¬ IsEdgeLeaf nodes i) (told : L.write i ≠ idle) :
    news ≤ L.sum i := by
  cases h : kids nodes i with
  | some k => exact (fits.inner h).told told
  | none =>
    have start : first nodes i ≠ 0 := fun start => off ⟨⟨lt, h⟩, start⟩
    cases up : above nodes i with
    | none =>
      obtain rfl := tree.eq_root lt up
      exact absurd tree.root.2.2.1 start
    | some p =>
      obtain ⟨l, r, below, side⟩ := tree.kids_of_above up
      have cut := tree.cut below
      obtain ⟨-, -, -, joined, summed, toldRight, toldLeft, -, -⟩ := fits.inner below
      obtain rfl | rfl := side <;> grind

/-- A node on the left edge that is summed has started to write. -/
theorem Ledger.Fits.started (fits : L.Fits nodes) (lt : i < nodes.size)
    (edge : first nodes i = 0) (summed : news ≤ L.sum i) : L.write i ≠ idle := by
  cases h : kids nodes i with
  | some k => exact ((fits.inner h).edge edge).2 summed
  | none =>
    have := (fits.leaf ⟨lt, h⟩).edge edge
    grind

/-- The second child to be summed finds its parent waiting, and not told to write. -/
theorem Ledger.FitsInner.waits_of_news (inner : L.FitsInner nodes p l r) (side : i = l ∨ i = r)
    (mine : L.sum i = news) (other : L.sum l = done ∨ L.sum r = done) :
    L.sum p = waiting ∧ L.write p = idle ∧ L.write r = idle := by
  obtain ⟨sumStage, -, begun, joined, told, toldRight, -, -, -⟩ := inner
  obtain rfl | rfl := side <;> simp only [idle, due, handing, waiting, news, done] at * <;> omega

/-- The second child to be written finds its parent waiting. -/
theorem Ledger.FitsInner.waits_to_write (inner : L.FitsInner nodes p l r) (side : i = l ∨ i = r)
    (mine : L.write i = news) (other : L.write l = done ∨ L.write r = done) :
    L.write p = waiting := by
  obtain ⟨-, writeStage, -, -, -, toldRight, toldLeft, edge, written⟩ := inner
  obtain rfl | rfl := side <;> simp only [idle, due, handing, waiting, news, done] at * <;> omega

namespace Ledger.Fits
variable {L' : Ledger}

/-- An entry for a leaf that is not reported yet. -/
theorem enterLeaf (fits : L.Fits nodes) (tree : IsTree t n nodes) (leaf : IsLeaf nodes i)
    (same : SameBut i L L')
    (sums : L'.sum i = L.sum i ∨
      L.sum i ≠ idle ∧ L.sum i ≠ done ∧ due ≤ L'.sum i ∧ L'.sum i ≠ done)
    (writes : L'.write i = L.write i ∨
      (due ≤ L.write i ∨ first nodes i = 0) ∧ L.write i ≠ done ∧ due ≤ L'.write i ∧
        L'.write i ≠ done)
    (now : L'.FitsLeaf nodes i) : L'.Fits nodes where
  root := by
    have := fits.root
    have := same 0
    grind
  inner {p' l' r'} h' := by
    have inner := fits.inner h'
    have cut := tree.cut h'
    have range := tree.range (i := l') (by have := tree.order h'; omega)
    have notLeaf := IsTree.not_isLeaf h'
    have atP := same p'
    have atL := same l'
    have atR := same r'
    have order := tree.order h'
    by_cases left : l' = i
    · subst left
      constructor <;> grind
    by_cases right : r' = i
    · subst right
      constructor <;> grind
    have other : p' ≠ i := fun eq => notLeaf (eq ▸ leaf)
    exact inner.congr (atP other) (atL left) (atR right)
  leaf {i'} h' := by
    by_cases eq : i' = i
    · exact eq ▸ now
    · exact (fits.leaf h').congr (same i' eq)

/-- The summing of a leaf goes on. -/
theorem sumLeaf {a : Nat} (fits : L.Fits nodes) (tree : IsTree t n nodes) (leaf : IsLeaf nodes i)
    (at_a : L.sum i = a) (b : Nat) (on : a ∈ [due, claimed, busy] ∧ b ∈ [claimed, busy, news])
    (edge : first nodes i = 0 → (L.write i = idle ∧ b < busy) ∨
      (b = busy ∧ (L.write i = busy ∨ L.write i = news)) ∨ (L.write i = b ∧ news ≤ b)) :
    (L.setSum i b).Fits nodes := by
  obtain ⟨sumStage, writeStage, -⟩ := fits.leaf leaf
  simp only [List.mem_cons, List.not_mem_nil, or_false] at on
  refine fits.enterLeaf tree leaf (L.sameBut_setSum i b) (.inr ?_) (.inl rfl)
    ⟨?_, writeStage, ?_⟩
  · rw [at_a, sum_setSum, if_pos rfl]
    grind
  · rw [sum_setSum, if_pos rfl]
    grind
  · rwa [sum_setSum, if_pos rfl, write_setSum]

/-- The writing of a leaf goes on. -/
theorem writeLeaf {a : Nat} (fits : L.Fits nodes) (tree : IsTree t n nodes) (leaf : IsLeaf nodes i)
    (at_a : L.write i = a) (b : Nat) (on : a ∈ [due, claimed, busy] ∧ b ∈ [claimed, busy, news])
    (edge : first nodes i = 0 → L.sum i = busy ∧ b = news) : (L.setWrite i b).Fits nodes := by
  obtain ⟨sumStage, writeStage, -⟩ := fits.leaf leaf
  simp only [List.mem_cons, List.not_mem_nil, or_false] at on
  refine fits.enterLeaf tree leaf (L.sameBut_setWrite i b) (.inl rfl) (.inr ?_)
    ⟨sumStage, ?_, fun start => ?_⟩
  · rw [at_a, write_setWrite, if_pos rfl]
    grind
  · rw [write_setWrite, if_pos rfl]
    grind
  · obtain ⟨sum, news⟩ := edge start
    rw [write_setWrite, if_pos rfl]
    exact .inr (.inl ⟨sum, .inr news⟩)

/-- The summing of a node goes on to its children. -/
theorem descend (fits : L.Fits nodes) (tree : IsTree t n nodes)
    (h : kids nodes p = some (l, r)) (sum : L.sum p = due) :
    (((L.setSum p waiting).setSum l due).setSum r due).Fits nodes where
  root := by
    have := fits.root
    grind
  inner {p' l' r'} h' := by
    have inner := fits.inner h
    have inner' := fits.inner h'
    have order := tree.order h
    have order' := tree.order h'
    obtain ⟨rfl, rfl, rfl⟩ | apart := tree.family h h'
    · constructor <;> simp only [sum_setSum, write_setSum] <;> grind
    · constructor <;> simp only [sum_setSum, write_setSum] <;> grind
  leaf {i} leaf := by
    have inner := fits.inner h
    have here := fits.leaf leaf
    have := IsTree.not_isLeaf h
    constructor <;> simp only [sum_setSum, write_setSum] <;> grind

/-- A task is at work on a node that was told to write. -/
theorem push (fits : L.Fits nodes) (tree : IsTree t n nodes)
    (h : kids nodes p = some (l, r)) (write : L.write p = due) :
    (L.setWrite p busy).Fits nodes where
  root := fits.root
  inner {p' l' r'} h' := by
    have inner' := fits.inner h'
    have order := tree.order h
    have order' := tree.order h'
    constructor <;> simp only [sum_setWrite, write_setWrite] <;> grind
  leaf {i} leaf := by
    have apart : i ≠ p := fun eq => IsTree.not_isLeaf h (eq ▸ leaf)
    exact (fits.leaf leaf).congr (L.sameBut_setWrite p busy i apart)

/-- A right child is told to write. -/
theorem promise (fits : L.Fits nodes) (tree : IsTree t n nodes)
    (h : kids nodes p = some (l, r)) (write : L.write p = busy) :
    ((L.setWrite p handing).setWrite r promised).Fits nodes where
  root := fits.root
  inner {p' l' r'} h' := by
    have inner := fits.inner h
    have inner' := fits.inner h'
    have order := tree.order h
    have order' := tree.order h'
    have cut := tree.cut h
    have range := tree.range (i := l) (by omega)
    obtain ⟨rfl, rfl, rfl⟩ | apart := tree.family h h'
    · constructor <;> simp only [sum_setWrite, write_setWrite] <;> grind
    · constructor <;> simp only [sum_setWrite, write_setWrite] <;> grind
  leaf {i} leaf := by
    have here := fits.leaf leaf
    have order := tree.order h
    have cut := tree.cut h
    have range := tree.range (i := l) (by omega)
    have apart : i ≠ p := fun eq => IsTree.not_isLeaf h (eq ▸ leaf)
    constructor <;> simp only [sum_setWrite, write_setWrite] <;> grind

/-- The writing of a node goes on to its children. The left one starts with it, unless it is on
the left edge and started by itself. -/
theorem hand (fits : L.Fits nodes) (tree : IsTree t n nodes)
    (h : kids nodes p = some (l, r)) (write : L.write p = handing) :
    (((L.setWrite p waiting).setWrite r due).setWrite l
      (if first nodes p = 0 then L.write l else due)).Fits nodes where
  root := fits.root
  inner {p' l' r'} h' := by
    have inner := fits.inner h
    have inner' := fits.inner h'
    have order := tree.order h
    have order' := tree.order h'
    have cut := tree.cut h
    have range := tree.range (i := l) (by omega)
    obtain ⟨rfl, rfl, rfl⟩ | apart := tree.family h h'
    · constructor <;> simp only [sum_setWrite, write_setWrite] <;> grind
    by_cases atLeft : p' = l
    · subst atLeft
      constructor <;> simp only [sum_setWrite, write_setWrite] <;> grind
    by_cases atRight : p' = r
    · subst atRight
      constructor <;> simp only [sum_setWrite, write_setWrite] <;> grind
    constructor <;> simp only [sum_setWrite, write_setWrite] <;> grind
  leaf {i} leaf := by
    have inner := fits.inner h
    have here := fits.leaf leaf
    have order := tree.order h
    have cut := tree.cut h
    have range := tree.range (i := l) (by omega)
    have notLeaf := IsTree.not_isLeaf h
    constructor <;> simp only [sum_setWrite, write_setWrite] <;> grind

/-- The first of two children reports, or the root does. -/
theorem leave (fits : L.Fits nodes) (tree : IsTree t n nodes) (same : SameBut i L L')
    (sums : L'.sum i = L.sum i ∨ L.sum i = news ∧ L'.sum i = done)
    (writes : L'.write i = L.write i ∨ L.write i = news ∧ L'.write i = done)
    (both : IsEdgeLeaf nodes i → L'.sum i = L'.write i)
    (firstToSum : ∀ {p l r}, kids nodes p = some (l, r) → i = l ∨ i = r →
      L'.sum i ≠ L.sum i → L.sum l ≠ done ∧ L.sum r ≠ done)
    (firstToWrite : ∀ {p l r}, kids nodes p = some (l, r) → i = l ∨ i = r →
      L'.write i ≠ L.write i → L.write l ≠ done ∧ L.write r ≠ done) : L'.Fits nodes where
  root := by
    have := fits.root
    have := same 0
    grind
  inner {p' l' r'} h' := by
    have inner := fits.inner h'
    have order := tree.order h'
    have toSum := firstToSum h'
    have toWrite := firstToWrite h'
    have atP := same p'
    have atL := same l'
    have atR := same r'
    clear firstToSum firstToWrite same
    by_cases left : l' = i
    · subst left
      constructor <;> grind
    by_cases right : r' = i
    · subst right
      constructor <;> grind
    by_cases top : p' = i
    · subst top
      constructor <;> grind
    exact inner.congr (atP top) (atL left) (atR right)
  leaf {j} leaf := by
    have here := fits.leaf leaf
    have atJ := same j
    clear firstToSum firstToWrite same
    by_cases eq : j = i
    · subst eq
      have := fun edge => both ⟨leaf, edge⟩
      constructor <;> grind
    · exact here.congr (atJ eq)

/-- The second of two children reports that it is summed. The parent is summed then, and on the left
edge it starts to write. -/
theorem join (fits : L.Fits nodes) (tree : IsTree t n nodes)
    (h : kids nodes p = some (l, r)) (side : i = l ∨ i = r) (mine : L.sum i = news)
    (other : L.sum l = done ∨ L.sum r = done)
    (same : ∀ j, j ≠ i → j ≠ p → L'.sum j = L.sum j ∧ L'.write j = L.write j)
    (sumChild : L'.sum i = done) (sumParent : L'.sum p = news)
    (writeChild : L'.write i = if IsEdgeLeaf nodes i then done else L.write i)
    (writeParent : L'.write p = if first nodes p = 0 then due else L.write p) : L'.Fits nodes where
  root := by
    have := fits.root
    have := same 0
    grind
  inner {p' l' r'} h' := by
    obtain ⟨waits, untold, rightIdle⟩ := (fits.inner h).waits_of_news side mine other
    have inner' := fits.inner h'
    have order := tree.order h
    have order' := tree.order h'
    have rightInner : ¬ IsEdgeLeaf nodes r := fun e => tree.first_right_ne_zero h e.2
    have leftEdge : IsEdgeLeaf nodes l → first nodes p = 0 := fun e => (tree.cut h).2.1 ▸ e.2
    have atP := same p'
    have atL := same l'
    have atR := same r'
    clear same
    obtain ⟨rfl, rfl, rfl⟩ | apart := tree.family h h'
    · obtain rfl | rfl := side
      · constructor <;> grind
      · constructor <;> grind
    by_cases atChild : p' = i
    · have := fun e : IsEdgeLeaf nodes i => IsTree.not_isLeaf h' (atChild ▸ e.1)
      subst atChild
      constructor <;> grind
    have firstLeft := (tree.cut h').2.1
    have firstRight := tree.first_right_ne_zero h'
    by_cases left : l' = p
    · subst left
      constructor <;> grind
    by_cases right : r' = p
    · subst right
      constructor <;> grind
    have leftChild : l' ≠ i := by grind
    have rightChild : r' ≠ i := by grind
    exact inner'.congr (atP atChild apart.1) (atL leftChild left) (atR rightChild right)
  leaf {j} leaf := by
    obtain ⟨waits, untold, rightIdle⟩ := (fits.inner h).waits_of_news side mine other
    have here := fits.leaf leaf
    have order := tree.order h
    have notLeaf := IsTree.not_isLeaf h
    have atJ := same j
    have apart : j ≠ p := fun eq => notLeaf (eq ▸ leaf)
    by_cases eq : j = i
    · subst eq
      by_cases edge : first nodes j = 0
      · rw [if_pos ⟨leaf, edge⟩] at writeChild
        constructor <;> grind
      · rw [if_neg fun e => edge e.2] at writeChild
        constructor <;> grind
    · exact here.congr (atJ eq apart)

/-- The second of two children reports that it is written. The parent is written then. -/
theorem finish (fits : L.Fits nodes) (tree : IsTree t n nodes)
    (h : kids nodes p = some (l, r)) (side : i = l ∨ i = r) (mine : L.write i = news)
    (other : L.write l = done ∨ L.write r = done) (off : ¬ IsEdgeLeaf nodes i) :
    ((L.setWrite i done).setWrite p news).Fits nodes where
  root := fits.root
  inner {p' l' r'} h' := by
    have waits := (fits.inner h).waits_to_write side mine other
    have inner' := fits.inner h'
    have order := tree.order h
    have order' := tree.order h'
    obtain ⟨rfl, rfl, rfl⟩ | apart := tree.family h h'
    · obtain rfl | rfl := side
      · constructor <;> simp only [sum_setWrite, write_setWrite] <;> grind
      · constructor <;> simp only [sum_setWrite, write_setWrite] <;> grind
    have notChild : l' ≠ i ∧ r' ≠ i := by grind
    by_cases atChild : p' = i
    · subst atChild
      constructor <;> simp only [sum_setWrite, write_setWrite] <;> grind
    by_cases left : l' = p
    · subst left
      constructor <;> simp only [sum_setWrite, write_setWrite] <;> grind
    by_cases right : r' = p
    · subst right
      constructor <;> simp only [sum_setWrite, write_setWrite] <;> grind
    have same (j : Nat) (hi : j ≠ i) (hp : j ≠ p) :
        SameAt j L ((L.setWrite i done).setWrite p news) := ⟨rfl, (if_neg hp).trans (if_neg hi)⟩
    exact inner'.congr (same p' atChild apart.1) (same l' notChild.1 left)
      (same r' notChild.2 right)
  leaf {j} leaf := by
    have here := fits.leaf leaf
    have notLeaf := IsTree.not_isLeaf h
    have apart : j ≠ p := fun eq => notLeaf (eq ▸ leaf)
    by_cases eq : j = i
    · subst eq
      have := fun edge => off ⟨leaf, edge⟩
      constructor <;> simp only [sum_setWrite, write_setWrite] <;> grind
    · exact here.congr ⟨rfl, (if_neg apart).trans (if_neg eq)⟩

end Ledger.Fits

end

end Bisection.Scan
