import Bisection.Proofs.Pieces.Bisections
import Bisection.Proofs.Pieces.Concurrency
import Mathlib.Algebra.Order.BigOperators.Group.List

/-!
# The number of leaves

The leaves of a bisection tile its range, so their lengths sum up to that of the range, and the
bounds for each of them bound their number. The threshold of a pool is a little more than an
eighth of a worker's share, and a leaf has at least half of that: for a worker there are less than
sixteen leaves, and at least four where the range has eight indices for each worker.
-/

namespace Bisection
set_option autoImplicit false

/-- The lengths of the spans of a tiling add up to that of the range. -/
theorem Tiles.sum_size {lo hi : Nat} {spans : List Span} (tiles : Tiles lo hi spans) :
    lo + (spans.map Span.size).sum = hi := by
  induction spans generalizing lo with
  | nil => exact tiles
  | cons s spans ih =>
    obtain ⟨rfl, le, rest⟩ := tiles
    have size : s.lo + s.size = s.hi := Nat.add_sub_of_le le
    rw [List.map_cons, List.sum_cons, ← Nat.add_assoc, size]
    exact ih rest

namespace Halving
variable {t : Threshold} {lo n : Nat} {tree : Halving}

theorem Balanced.sum_size (balanced : tree.Balanced t lo n) :
    (tree.leaves.map Span.size).sum = n :=
  Nat.add_left_cancel balanced.tiles.sum_size

/-- No leaf is longer than the threshold, so there are enough of them. -/
theorem Balanced.le_length_mul (balanced : tree.Balanced t lo n) :
    n ≤ tree.leaves.length * t.val := by
  have bound : ∀ k ∈ tree.leaves.map Span.size, k ≤ t.val :=
    List.forall_mem_map.mpr balanced.most
  have sum := List.sum_le_card_nsmul _ _ bound
  rwa [balanced.sum_size, List.length_map] at sum

/-- In a range that is cut no leaf has less than half of the threshold, so there are not too many
of them. -/
theorem Balanced.length_mul_le (balanced : tree.Balanced t lo n) (cut : t.val < n) :
    tree.leaves.length * ((t.val + 1) / 2) ≤ n := by
  have bound : ∀ k ∈ tree.leaves.map Span.size, (t.val + 1) / 2 ≤ k :=
    List.forall_mem_map.mpr (balanced.least cut)
  have sum := List.card_nsmul_le_sum _ _ bound
  rwa [balanced.sum_size, List.length_map] at sum

end Halving

/-! ## Runs of a bisection -/

section
variable {ε π : Type} [Piece π]

/-- A bisection that notes each part that it hands to a leaf, and the first index given with it. -/
def noteLeaves (t : Threshold) (piece : π) (lo : Nat) : Concurrent (π × Nat) ε Unit :=
  forkPieces t (fun part first => Concurrent.call (part, first) (.ok ())) (fun _ _ => pure ()) piece
    lo

/-- However the halves take turns, each part is handed out once. -/
theorem always_noteLeaves [LawfulPiece π] (t : Threshold) (piece : π) (lo : Nat) :
    (noteLeaves t piece lo : Concurrent (π × Nat) ε Unit).Always fun handed r =>
      handed.Perm (handedParts t piece lo) ∧ r = .ok () := by
  unfold noteLeaves
  refine halves_induction t ?short ?long piece lo
  case short =>
    intro piece lo h
    rw [forkPieces_of_le h, handedParts_of_le h]
    exact Concurrent.always_call ⟨.refl _, rfl⟩
  case long =>
    intro piece lo h left right
    rw [forkPieces_of_lt h, handedParts_of_lt h]
    have both := (left.beside right).mono fun handed r ends =>
      show ∃ results, r = .ok results ∧ handed.Perm (handedParts t (Piece.left piece) lo ++
          handedParts t (Piece.right piece) (lo + Piece.size piece / 2)) by
        obtain ⟨ours, theirs, r₁, r₂, ⟨onLeft, rfl⟩, ⟨onRight, rfl⟩, perm, rfl⟩ := ends
        exact ⟨_, rfl, perm.trans (onLeft.append onRight)⟩
    refine both.then fun handed results perm => Concurrent.always_ends ⟨?_, rfl⟩
    rwa [List.append_nil]

end

/-! ## The threshold of a pool -/

namespace Pool

/-- Each worker gets less than sixteen of so many leaves of a bisection of `n` indices, and if there
are eight indices for each worker, at least four. -/
structure Serves (p : Pool) (n leaves : Nat) : Prop where
  few : leaves < 16 * p.workers
  enough : 8 * p.workers ≤ n → 4 * p.workers ≤ leaves

theorem eight_le_leafTarget (p : Pool) : 8 ≤ p.leafTarget := by
  have pos := p.pos
  unfold leafTarget maxSize
  omega

theorem leafTarget_le (p : Pool) : p.leafTarget ≤ p.workers * 8 ∧ p.leafTarget ≤ maxSize :=
  ⟨Nat.min_le_left .., Nat.min_le_right ..⟩

/-- In numbers of 64 bits the threshold comes out the same. -/
theorem toNat_threshold (p : Pool) {n : Nat} (fits : n ≤ maxSize) :
    (p.threshold n).val ≤ maxSize ∧
      (1 + UInt64.ofNat n / UInt64.ofNat p.leafTarget).toNat = (p.threshold n).val := by
  have bound : (p.threshold n).val ≤ maxSize := by
    have pos : 1 ≤ maxSize := by decide
    have share : n / p.leafTarget ≤ n / 8 := Nat.div_le_div_left p.eight_le_leafTarget (by decide)
    show 1 + n / p.leafTarget ≤ maxSize
    omega
  have size : maxSize < UInt64.size := by decide
  have length : (UInt64.ofNat n).toNat = n :=
    UInt64.toNat_ofNat_of_lt' (Nat.lt_of_le_of_lt fits size)
  have target : (UInt64.ofNat p.leafTarget).toNat = p.leafTarget :=
    UInt64.toNat_ofNat_of_lt' (Nat.lt_of_le_of_lt p.leafTarget_le.2 size)
  refine ⟨bound, ?_⟩
  rw [UInt64.toNat_add, UInt64.toNat_div, length, target]
  exact Nat.mod_eq_of_lt (Nat.lt_of_le_of_lt bound size)

/-- There are fewer than twice the leaves aimed at, since each has more than half of a share. -/
theorem length_leaves_lt (p : Pool) (lo n : Nat) :
    (halving (p.threshold n) lo n).leaves.length < 2 * p.leafTarget := by
  have target := p.eight_le_leafTarget
  by_cases whole : n ≤ (p.threshold n).val
  case pos =>
    rw [halving_of_le whole, Halving.leaves, List.length_singleton]
    omega
  case neg =>
    let leaves := (halving (p.threshold n) lo n).leaves
    let half := (1 + n / p.leafTarget + 1) / 2
    have few : leaves.length * half ≤ n :=
      (balanced_halving _ lo n).length_mul_le (Nat.lt_of_not_le whole)
    refine Nat.lt_of_mul_lt_mul_right (a := half) ?_
    calc leaves.length * half
      _ ≤ n := few
      _ < p.leafTarget * (n / p.leafTarget + 1) := Nat.lt_mul_div_succ n (by omega)
      _ ≤ p.leafTarget * (2 * half) := Nat.mul_le_mul_left _ (by omega)
      _ = 2 * p.leafTarget * half := by rw [← Nat.mul_assoc, Nat.mul_comm p.leafTarget]

/-- There are at least half the leaves aimed at, if there are that many indices. -/
theorem le_length_leaves (p : Pool) (lo : Nat) {n : Nat} (long : p.leafTarget ≤ n) :
    p.leafTarget ≤ 2 * (halving (p.threshold n) lo n).leaves.length := by
  let leaves := (halving (p.threshold n) lo n).leaves
  let share := n / p.leafTarget
  have many : n ≤ leaves.length * (1 + share) := (balanced_halving _ lo n).le_length_mul
  have down : p.leafTarget * share ≤ n := Nat.mul_div_le n p.leafTarget
  refine Nat.le_of_not_lt fun less => ?_
  have twice : 2 * leaves.length * (1 + share) < p.leafTarget * (1 + share) :=
    Nat.mul_lt_mul_of_pos_right less (Nat.add_pos_left Nat.one_pos share)
  rw [Nat.mul_assoc, Nat.mul_add p.leafTarget] at twice
  omega

theorem serves_halving (p : Pool) (lo : Nat) {n : Nat} (fits : n ≤ maxSize) :
    p.Serves n (halving (p.threshold n) lo n).leaves.length where
  few := by
    have few := p.length_leaves_lt lo n
    have target := p.leafTarget_le.1
    omega
  enough long := by
    have exact : p.leafTarget = p.workers * 8 := Nat.min_eq_left (by omega)
    have enough := p.le_length_leaves lo (exact ▸ Nat.mul_comm 8 _ ▸ long)
    omega

/-- The threshold of a pool is a positive number of 64 bits, and a bisection with it gives each
worker less than sixteen leaves, and at least four if there are eight indices for each worker. -/
theorem threshold_serves (p : Pool) {n : Nat} (fits : n ≤ maxSize) :
    let t := p.threshold n
    (1 ≤ t.val ∧ t.val ≤ maxSize ∧
      (1 + UInt64.ofNat n / UInt64.ofNat p.leafTarget).toNat = t.val) ∧
    (∀ {α : Type} (w : Window α), w.array.pool = p → w.array.threshold = none → w.size = n →
      w.array.leafThreshold w.size = t) ∧
    (∀ lo, p.Serves n (halving t lo n).leaves.length) ∧
    ∀ {ε π : Type} [Piece π] [LawfulPiece π] (piece : π) (lo : Nat), Piece.size piece = n →
      (noteLeaves t piece lo : Concurrent (π × Nat) ε Unit).Always fun handed r =>
        handed.Perm (handedParts t piece lo) ∧ r = .ok () ∧ p.Serves n handed.length := by
  intro t
  refine ⟨⟨t.pos, p.toNat_threshold fits⟩, ?set, fun lo => p.serves_halving lo fits, ?runs⟩
  case set =>
    rintro α w rfl unset rfl
    rw [BulkArray.leafThreshold, unset]
    rfl
  case runs =>
    rintro ε π _ _ piece lo rfl
    refine (always_noteLeaves t piece lo).mono fun handed r => ?_
    rintro ⟨perm, rfl⟩
    rw [perm.length_eq, length_handedParts]
    exact ⟨perm, rfl, p.serves_halving lo fits⟩

/-- One worker bisects eleven indices into seven leaves, and the longest range is still cut where
the leaves aimed at are more than can be counted. -/
theorem threshold_serves_samples :
    let most : Pool := ⟨2 ^ 61, by decide⟩
    ((single.threshold 11).val = 2 ∧ (halving (single.threshold 11) 5 11).leaves.length = 7 ∧
      single.Serves 11 7) ∧
    ((most.threshold maxSize).val = 2 ∧ (most.threshold maxSize).val ≤ maxSize ∧
      most.Serves maxSize (halving (most.threshold maxSize) 0 maxSize).leaves.length) := by
  intro most
  have seven : (halving (single.threshold 11) 5 11).leaves.length = 7 := by decide +kernel
  have serves := (single.threshold_serves (n := 11) (by decide)).2.2.1 5
  have large := most.threshold_serves (Nat.le_refl maxSize)
  exact ⟨⟨by decide, seven, seven ▸ serves⟩, by decide, large.1.2.1, large.2.2.1 0⟩

end Pool

end Bisection
