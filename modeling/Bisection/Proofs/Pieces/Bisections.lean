import Bisection.Proofs.Alone.Selecting
import Bisection.Proofs.Alone.Windows
import Bisection.Proofs.Pieces.Forking
import Bisection.Proofs.Pieces.Halving
import Bisection.Proofs.Scan.Shape
import Bisection.Proofs.Search.Sharing

/-!
# One tree for all bisections

Four algorithms halve a range, each in coordinates of its own. `forkPieces` cuts pieces by their
length, a search goes by the ends of its range, a selection by its first index and its length, and
a scan by positions that count from the start of its range. They all follow the tree `halving`:
each is shown to be a walk of that tree, so that their leaves are the same spans.
-/

namespace Bisection
set_option autoImplicit false

/-! ## Pieces -/

section
variable {π ρ : Type} [Piece π] [Piece ρ] {t : Threshold} {p : π}

/-- A bisection puts its results together along the tree. -/
theorem forkPieces_eq_halving [LawfulPiece π] (t : Threshold) (piece : π) (lo : Nat) :
    forkPieces (m := Id) t (fun part first => .leaf ⟨first, first + Piece.size part⟩) Halving.beside
      piece lo = halving t lo (Piece.size piece) := by
  refine forkPieces_eq (m := Id) (fun piece lo => halving t lo (Piece.size piece))
    (fun piece lo h => (halving_of_le h).symm) (fun piece lo h => ?_) piece lo
  show Halving.beside (halving t lo _) (halving t _ _) = _
  rw [size_left, size_right, halving_of_lt h, Halving.beside, span_halving, span_halving,
    Nat.add_assoc, Nat.add_sub_of_le (Nat.div_le_self _ 2)]

/-- The parts of a piece that a bisection hands to its leaves, each with the first index that it is
given. -/
def handedParts (t : Threshold) (piece : π) (lo : Nat) : List (π × Nat) :=
  forkPieces (m := Id) t (fun part first => [(part, first)]) (· ++ ·) piece lo

theorem handedParts_of_le (h : Piece.size p ≤ t.val) (lo : Nat) :
    handedParts t p lo = [(p, lo)] :=
  forkPieces_of_le (m := Id) h lo

theorem handedParts_of_lt [LawfulPiece π] (h : ¬ Piece.size p ≤ t.val) (lo : Nat) :
    handedParts t p lo = handedParts t (Piece.left p) lo ++
      handedParts t (Piece.right p) (lo + Piece.size p / 2) :=
  forkPieces_of_lt (m := Id) h lo

variable [LawfulPiece π]

/-- The indices that are handed out with the parts are those of the leaves. -/
theorem map_handedParts (t : Threshold) (piece : π) (lo : Nat) :
    (handedParts t piece lo).map (fun p => (⟨p.2, p.2 + Piece.size p.1⟩ : Span)) =
      (halving t lo (Piece.size piece)).leaves := by
  refine halves_induction t ?short ?long piece lo
  case short =>
    intro piece lo h
    rw [handedParts_of_le h, halving_of_le h]
    rfl
  case long =>
    intro piece lo h left right
    rw [handedParts_of_lt h, halving_of_lt h, List.map_append, left, right, size_left, size_right,
      Halving.leaves]

theorem length_handedParts (t : Threshold) (piece : π) (lo : Nat) :
    (handedParts t piece lo).length = (halving t lo (Piece.size piece)).leaves.length := by
  rw [← map_handedParts, List.length_map]

/-- Two pieces of one length are cut at the same indices. -/
theorem handedParts_pair [LawfulPiece ρ] (t : Threshold) (pair : π × ρ) (lo : Nat)
    (same : Piece.size pair.1 = Piece.size pair.2) : handedParts t pair lo =
      (handedParts t pair.1 lo).zipWith (fun p q => ((p.1, q.1), p.2))
        (handedParts t pair.2 lo) := by
  revert same
  refine halves_induction t ?short ?long pair lo
  case short =>
    intro pair lo h same
    have h : Piece.size pair.1 ≤ t.val := h
    rw [handedParts_of_le (p := pair) h, handedParts_of_le h, handedParts_of_le (same ▸ h)]
    rfl
  case long =>
    intro pair lo h left right same
    have h : ¬ Piece.size pair.1 ≤ t.val := h
    have splitLeft : Piece.left pair = (Piece.left pair.1, Piece.left pair.2) :=
      congrArg (fun n => (Piece.left pair.1, (Piece.cut pair.2 (n / 2)).1)) same
    have splitRight : Piece.right pair = (Piece.right pair.1, Piece.right pair.2) :=
      congrArg (fun n => (Piece.right pair.1, (Piece.cut pair.2 (n / 2)).2)) same
    have size : Piece.size pair = Piece.size pair.1 := rfl
    rw [splitLeft] at left
    rw [splitRight] at right
    have left := left (by rw [size_left, size_left, same])
    have right := right (by rw [size_right, size_right, same])
    have alike : (handedParts t (Piece.left pair.1) lo).length =
        (handedParts t (Piece.left pair.2) lo).length := by
      rw [length_handedParts, length_handedParts, size_left, size_left, same]
    have whole := handedParts_of_lt (p := pair) h lo
    have first := handedParts_of_lt h lo
    have second := handedParts_of_lt (same ▸ h) lo
    rw [whole, first, second, List.zipWith_append alike, splitLeft, splitRight, left, right, size,
      same]

end

/-- The parts of a span are the leaves themselves. -/
theorem handedParts_span (t : Threshold) (lo n : Nat) :
    handedParts t (⟨lo, lo + n⟩ : Span) lo = (halving t lo n).leaves.map fun s => (s, s.lo) := by
  induction n using Nat.strongRecOn generalizing lo with
  | ind n ih =>
    have size : Piece.size (⟨lo, lo + n⟩ : Span) = n := Span.size_add_right lo n
    by_cases h : n ≤ t.val
    · rw [handedParts_of_le (size.symm ▸ h), halving_of_le h]
      rfl
    · have two := Threshold.two_le h
      have whole : lo + n / 2 + (n - n / 2) = lo + n := by omega
      rw [handedParts_of_lt (size.symm ▸ h), halving_of_lt h, Halving.leaves, List.map_append,
        ← ih (n / 2) (by omega) lo, ← ih (n - n / 2) (by omega) (lo + n / 2), Piece.left,
        Piece.right, size, whole]
      rfl

/-- A part of a part of a store. -/
theorem Store.slice_slice {α : Type} (s : Store α) (a b c d : Nat) :
    (s.slice a b).slice c d = s.slice (a + c) (min (a + d) b) := by
  refine eq_of_toList ?_ ?_
  · rw [isCount_slice, isCount_slice, isCount_slice]
  · rw [toList_slice, toList_slice, toList_slice, List.take_drop, List.drop_drop, List.take_take]

/-- The parts of a store hold the elements of the leaves. -/
theorem handedParts_store {α : Type} (t : Threshold) (s : Store α) (lo : Nat) :
    handedParts t s lo = (halving t lo s.size).leaves.map fun span =>
      (s.slice (span.lo - lo) (span.hi - lo), span.lo) := by
  refine halves_induction t ?short ?long s lo
  case short =>
    intro s lo h
    have h : s.size ≤ t.val := h
    rw [handedParts_of_le (p := s) h, halving_of_le h, Halving.leaves, List.map_singleton,
      Nat.sub_self, Nat.add_sub_cancel_left, s.slice_all]
  case long =>
    intro s lo h left right
    have h : ¬ s.size ≤ t.val := h
    have insideLeft := (tiles_leaves t lo (s.size / 2)).within.2
    have insideRight := (tiles_leaves t (lo + s.size / 2) (s.size - s.size / 2)).within.2
    have sizeLeft : (Piece.left s).size = s.size / 2 := size_left s
    have sizeRight : (Piece.right s).size = s.size - s.size / 2 := size_right s
    rw [handedParts_of_lt (p := s) h, halving_of_lt h, Halving.leaves, List.map_append, left,
      right, sizeLeft, sizeRight]
    refine congrArg₂ _ (List.map_congr_left fun span mem => ?_)
      (List.map_congr_left fun span mem => ?_)
    · have := insideLeft span mem
      show ((s.slice 0 (s.size / 2)).slice _ _, _) = _
      rw [Store.slice_slice, Nat.zero_add, Nat.zero_add, Nat.min_eq_left (by omega)]
    · have := insideRight span mem
      show ((s.slice (s.size / 2) s.size).slice _ _, _) = _
      rw [Store.slice_slice]
      congr 2 <;> dsimp [Piece.size] <;> omega

/-! ## Searches -/

/-- A search of a tree by one worker. What the cell is set for by then is left out. -/
def Halving.search {ε : Type} {m : Type → Type} [Monad m] [Reports m]
    (leaf : Nat → Nat → MatchCell → m (MatchCell × Option ε)) :
    Halving → MatchCell → m (MatchCell × Option ε)
  | .leaf s, cell =>
    if cell.isSet then do
      Reports.note (.skipping s.lo s.hi)
      pure (cell, none)
    else leaf s.lo s.hi cell
  | .node s left right, cell =>
    if cell.isSet then do
      Reports.note (.skipping s.lo s.hi)
      pure (cell, none)
    else do
      let (cell, failure) ← left.search leaf cell
      let (cell, failure') ← right.search leaf cell
      pure (cell, failure <|> failure')

theorem searchRange_eq_halving {ε : Type} {m : Type → Type} [Monad m] [Reports m] (t : Threshold)
    (leaf : Nat → Nat → MatchCell → m (MatchCell × Option ε)) (lo n : Nat) (cell : MatchCell) :
    searchRange t leaf lo (lo + n) cell = (halving t lo n).search leaf cell := by
  induction n using Nat.strongRecOn generalizing lo cell with
  | ind n ih =>
    have size : lo + n - lo = n := Nat.add_sub_cancel_left ..
    rw [searchRange]
    by_cases h : n ≤ t.val
    · rw [halving_of_le h, Halving.search, dif_pos (size.symm ▸ h)]
    · have two := Threshold.two_le h
      have whole : lo + n / 2 + (n - n / 2) = lo + n := by omega
      have right := ih (n - n / 2) (by omega) (lo + n / 2)
      rw [whole] at right
      rw [halving_of_lt h, Halving.search, dif_neg (size.symm ▸ h)]
      simp only [size, ih (n / 2) (by omega) lo, right]

/-- Searches a leaf, and puts the leaf on record. -/
def recordLeaf (accepts : Nat → Bool) (lo hi : Nat) (cell : MatchCell) :
    StateM (List Span) (MatchCell × Option Empty) := do
  modify (· ++ [⟨lo, hi⟩])
  searchLeaf (fun i => pure (accepts i)) lo hi cell

theorem firstMatch_of_unmatched {m : Type → Type} [Monad m] [LawfulMonad m] {accepts : Nat → Bool}
    {lo hi : Nat} (unmatched : ∀ i, lo ≤ i → i < hi → accepts i = false) :
    firstMatch (m := m) (fun i => pure (accepts i)) lo hi = pure none := by
  induction len : hi - lo generalizing lo with
  | zero => rw [firstMatch, if_neg (by omega)]
  | succ len ih =>
    rw [firstMatch, if_pos (by omega), pure_bind, unmatched lo (Nat.le_refl lo) (by omega)]
    exact ih (fun i above below => unmatched i (by omega) below) (by omega)

theorem recordLeaf_of_unmatched {accepts : Nat → Bool} {lo hi : Nat}
    (unmatched : ∀ i, lo ≤ i → i < hi → accepts i = false) (cell : MatchCell) :
    (recordLeaf accepts lo hi cell).run =
      fun record => ((cell, none), record ++ [⟨lo, hi⟩]) := by
  rw [recordLeaf, searchLeaf, firstMatch_of_unmatched unmatched]
  rfl

/-- A range without a match is looked through leaf by leaf. -/
theorem run_search_halving {accepts : Nat → Bool} {t : Threshold} {lo n : Nat}
    (unmatched : ∀ i, lo ≤ i → i < lo + n → accepts i = false) (record : List Span) :
    ((halving t lo n).search (recordLeaf accepts) .empty).run record =
      ((.empty, none), record ++ (halving t lo n).leaves) := by
  induction n using Nat.strongRecOn generalizing lo record with
  | ind n ih =>
    by_cases h : n ≤ t.val
    · rw [halving_of_le h, Halving.search, MatchCell.isSet_empty, if_neg Bool.false_ne_true,
        recordLeaf_of_unmatched unmatched]
      rfl
    · have two := Threshold.two_le h
      have left := @ih (n / 2) (by omega) lo fun i above below => unmatched i above (by omega)
      have right := @ih (n - n / 2) (by omega) (lo + n / 2) fun i above below =>
        unmatched i (by omega) (by omega)
      rw [halving_of_lt h, Halving.search, MatchCell.isSet_empty, Halving.leaves,
        ← List.append_assoc]
      simp only [Bool.false_eq_true, if_false, StateT.run_bind, left]
      exact congrArg (fun p => (((p.1.1, none <|> p.1.2), p.2) : _ × _)) (right _)

/-! ## Selections -/

/-- The selection of the indices of a tree that are wanted. -/
def Halving.selection (selected : Nat → Bool) : Halving → Selection
  | .leaf s => .leaf ((List.range' s.lo s.size).filter selected)
  | .node _ left right =>
    .node ((left.selection selected).size + (right.selection selected).size)
      (left.selection selected) (right.selection selected)

theorem collect_id (selected : Nat → Bool) (lo n : Nat) (found : List Nat) :
    Selection.collect (m := Id) (fun i => pure (selected i)) lo n found =
      found.reverse ++ (List.range' lo n).filter selected := by
  induction n generalizing lo found with
  | zero => exact (List.append_nil _).symm
  | succ n ih =>
    rw [Selection.collect, List.range'_succ, pure_bind]
    cases hit : selected lo with
    | true => simp [ih, hit]
    | false => simp [ih, hit]

theorem build_eq_halving (t : Threshold) (selected : Nat → Bool) (lo n : Nat) :
    Selection.build (m := Id) t (fun i => pure (selected i)) lo n =
      (halving t lo n).selection selected := by
  induction n using Nat.strongRecOn generalizing lo with
  | ind n ih =>
    by_cases h : n ≤ t.val
    · rw [Selection.build_of_le _ _ h, halving_of_le h, collect_id, Halving.selection,
        Span.size_add_right]
      rfl
    · have two := Threshold.two_le h
      rw [Selection.build_of_lt _ _ h, halving_of_lt h, ih (n / 2) (by omega) lo,
        ih (n - n / 2) (by omega) (lo + n / 2)]
      rfl

/-! ## Scans -/

/-- The nodes of a scan from node `i` on describe a tree, with positions that count from `d` on. -/
inductive Scan.Describes (nodes : Array Scan.Node) (d : Nat) : Nat → Halving → Prop where
  | leaf {i : Nat} {x : Scan.Node} (at_node : nodes[i]? = some x) (uncut : x.children = none) :
    Describes nodes d i (.leaf ⟨d + x.lo, d + x.hi⟩)
  | node {i l r : Nat} {x : Scan.Node} {left right : Halving} (at_node : nodes[i]? = some x)
    (cut : x.children = some (l, r)) (onLeft : Describes nodes d l left)
    (onRight : Describes nodes d r right) :
    Describes nodes d i (.node ⟨d + x.lo, d + x.hi⟩ left right)

/-- The leaves among the nodes of a scan, in the order of the nodes, with positions that count from
`d` on. -/
def Scan.leafSpans (d : Nat) (nodes : List Scan.Node) : List Span :=
  (nodes.filter (·.children.isNone)).map fun x => ⟨d + x.lo, d + x.hi⟩

theorem leafSpans_layout (t : Threshold) (d id : Nat) (parent : Option Nat) (lo n : Nat) :
    Scan.leafSpans d (Scan.layout t id parent lo n) = (halving t (d + lo) n).leaves := by
  fun_induction Scan.layout t id parent lo n with
  | case1 id parent lo n h =>
    rw [halving_of_le h, Nat.add_assoc]
    rfl
  | case2 id parent lo n h half left right ihl ihr =>
    rw [halving_of_lt h, Halving.leaves, ← ihl, Nat.add_assoc, ← ihr]
    simp [Scan.leafSpans]

theorem describes_halving {t : Threshold} {nodes : Array Scan.Node} {id lo n : Nat}
    {parent : Option Nat} (d : Nat) (sub : Scan.Subtree t nodes id parent lo n) :
    Scan.Describes nodes d id (halving t (d + lo) n) := by
  induction n using Nat.strongRecOn generalizing id parent lo with
  | ind n ih =>
    have root := sub.getElem?_root
    by_cases h : n ≤ t.val
    · rw [if_pos h] at root
      rw [halving_of_le h, Nat.add_assoc]
      exact .leaf root rfl
    · have two := Threshold.two_le h
      have left := ih (n / 2) (by omega) (sub.left h)
      have right := ih (n - n / 2) (by omega) (sub.right h)
      rw [if_neg h] at root
      rw [halving_of_lt h]
      rw [← Nat.add_assoc] at right
      have node := Scan.Describes.node root rfl left right
      rwa [← Nat.add_assoc] at node

/-! ## All of them -/

/-- The bisections of the `n` indices from `lo` on all follow one tree. -/
structure Halving.Followed (t : Threshold) (lo n : Nat) (tree : Halving) : Prop where
  /-- Pieces are put together again along the tree. -/
  joined {π : Type} [Piece π] [LawfulPiece π] (piece : π) : Piece.size piece = n →
    forkPieces (m := Id) t (fun part first => .leaf ⟨first, first + Piece.size part⟩) Halving.beside
      piece lo = tree
  /-- The leaves get parts that start at the index given with them, -/
  spans : handedParts t (⟨lo, lo + n⟩ : Span) lo = tree.leaves.map fun s => (s, s.lo)
  /-- which of a store are the elements of the leaf, -/
  stores {α : Type} (s : Store α) : s.size = n → handedParts t s lo =
    tree.leaves.map fun span => (s.slice (span.lo - lo) (span.hi - lo), span.lo)
  /-- and of two pieces the parts that each of them would be cut into alone. -/
  pairs {π ρ : Type} [Piece π] [Piece ρ] [LawfulPiece π] [LawfulPiece ρ] (pair : π × ρ) :
    Piece.size pair.1 = n → Piece.size pair.2 = n → handedParts t pair lo =
      (handedParts t pair.1 lo).zipWith (fun p q => ((p.1, q.1), p.2)) (handedParts t pair.2 lo)
  /-- A search walks the tree, whatever it does to a leaf. -/
  searched {ε : Type} {m : Type → Type} [Monad m] [Reports m]
    (leaf : Nat → Nat → MatchCell → m (MatchCell × Option ε)) (cell : MatchCell) :
    searchRange t leaf lo (lo + n) cell = tree.search leaf cell
  /-- Where there is no match it comes to every leaf. -/
  unmatched (accepts : Nat → Bool) : (∀ i, lo ≤ i → i < lo + n → accepts i = false) →
    (searchRange t (recordLeaf accepts) lo (lo + n) .empty).run [] = ((.empty, none), tree.leaves)
  /-- A selection has the shape of the tree, and the indices selected in each leaf. -/
  selected (selected : Nat → Bool) :
    Selection.build (m := Id) t (fun i => pure (selected i)) lo n = tree.selection selected
  /-- The nodes of a scan describe the tree, and have its leaves in order. -/
  scanned : 0 < n → Scan.Describes (Scan.nodes t n) lo 0 tree ∧
    Scan.leafSpans lo (Scan.nodes t n).toList = tree.leaves

/-- All bisections of a range cut it into the same leaves, in the order of the indices: these tile
the range and keep to the threshold, and no span of a level is longer than another by more than
one. -/
theorem bisections_agree (t : Threshold) (lo n : Nat) :
    (halving t lo n).Balanced t lo n ∧ (halving t lo n).Followed t lo n := by
  refine ⟨balanced_halving t lo n, ?_⟩
  constructor
  case joined =>
    intro π _ _ piece size
    rw [forkPieces_eq_halving, size]
  case spans => exact handedParts_span t lo n
  case stores =>
    intro α s size
    rw [handedParts_store, size]
  case pairs =>
    intro π ρ _ _ _ _ pair size size'
    exact handedParts_pair t pair lo (size.trans size'.symm)
  case searched =>
    intro ε m _ _ leaf cell
    exact searchRange_eq_halving t leaf lo n cell
  case unmatched =>
    intro accepts unmatched
    rw [searchRange_eq_halving, run_search_halving unmatched, List.nil_append]
  case selected => exact fun selected => build_eq_halving t selected lo n
  case scanned =>
    intro pos
    have leaves := leafSpans_layout t lo 0 none 0 n
    exact ⟨describes_halving lo (Scan.subtree_nodes t pos), by rwa [Scan.nodes]⟩

end Bisection
