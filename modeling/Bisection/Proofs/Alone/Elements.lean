import Bisection.Proofs.Alone.Scanning
import Bisection.Proofs.Alone.Sorting
import Bisection.Proofs.Alone.Windows
import Bisection.Window.Each
import Bisection.Window.Sorting

/-!
# Operations on the elements alone

The operations that are not told where the elements are do the same on a window as on its elements
alone, whatever the monad. `replaceWithIndex` is told, and tells its function indices that are
greater by where the window starts.
-/

namespace Bisection.Window
set_option autoImplicit false

open Likeness

/-- The same results on both sides, at most `n` of them. -/
def Gathered {β : Type} (n : Nat) (xs ys : Array β) : Prop := xs = ys ∧ xs.size ≤ n

section
variable {α β γ : Type} {m m' : Type → Type} [Monad m] [LawfulMonad m] [Monad m'] [LawfulMonad m']
  {ρ : Likeness m m'}

/-- One more result, the same on both sides. -/
theorem gathered_push {n : Nat} {xs ys : Array β} {x : m β} {y : m' β} (gathered : Gathered n xs ys)
    (rel : ρ.Rel Eq x y) :
    ρ.Rel (Gathered (n + 1)) (do pure (xs.push (← x))) (do pure (ys.push (← y))) := by
  obtain ⟨rfl, le⟩ := gathered
  refine rel.bind_same fun z => ρ.pure ⟨rfl, ?_⟩
  rw [Array.size_push]
  exact Nat.succ_le_succ le

theorem gathered_mapM {f : α → m β} {g : α → m' β} (same : ∀ x, ρ.Same (f x) (g x))
    (s : Store α) : ρ.Rel (Gathered s.size) (s.mapM f) (s.mapM g) :=
  ρ.foldStore Gathered (fun _ _ _ x gathered => gathered_push gathered (same x)) s
    ⟨rfl, Nat.le_refl 0⟩

/-- The index that a leaf counts from is `d` places further on in the window. -/
theorem gathered_mapIndicesM {d lo : Nat} {f : Nat → m β} {g : Nat → m' β}
    (rel : ∀ i, ρ.Rel Eq (f (d + i)) (g i)) (s : Store α) :
    ρ.Rel (Gathered s.size) (s.mapIndicesM f (d + lo)) (s.mapIndicesM g lo) := by
  refine ρ.foldStore Gathered (fun n xs ys x gathered => ?_) s ⟨rfl, Nat.le_refl 0⟩
  refine gathered_push gathered ?_
  rw [gathered.1, Nat.add_assoc]
  exact rel _

/-- An element without a counterpart is left out on both sides. -/
theorem gathered_zipWithM {f : α → γ → m β} {g : α → γ → m' β}
    (same : ∀ x y, ρ.Same (f x y) (g x y)) (s : Store α) (t : Store γ) :
    ρ.Rel (Gathered s.size) (s.zipWithM f t) (s.zipWithM g t) := by
  refine ρ.foldStore Gathered (fun n xs ys x gathered => ?_) s ⟨rfl, Nat.le_refl 0⟩
  rw [gathered.1]
  cases t.get? ys.size with
  | none => exact ρ.pure ⟨rfl, gathered.1 ▸ Nat.le_succ_of_le gathered.2⟩
  | some y => exact gathered_push ⟨rfl, gathered.1 ▸ gathered.2⟩ (same x y)

/-- Results are written as long as there are slots, on both sides for the same number of elements.
-/
theorem gathered_transferM {f : α → m β} {g : α → m' β} (same : ∀ x, ρ.Same (f x) (g x))
    (s : Store α) (dest : Span) :
    ρ.Rel (Gathered s.size) (s.transferM f dest) (s.transferM g dest) := by
  refine ρ.foldStore Gathered (fun n xs ys x gathered => ?_) s ⟨rfl, Nat.le_refl 0⟩
  obtain ⟨rfl, le⟩ := gathered
  by_cases room : xs.size < dest.size
  · rw [if_pos room, if_pos room]
    refine (same x).bind_same fun y => ρ.pure ⟨rfl, ?_⟩
    rw [Array.size_push]
    exact Nat.succ_le_succ le
  · rw [if_neg room, if_neg room]
    exact ρ.pure ⟨rfl, Nat.le_succ_of_le le⟩

theorem same_joinTotals {op : α → α → m α} {op' : α → α → m' α}
    (same : ∀ x y, ρ.Same (op x y) (op' x y)) :
    ∀ x y, ρ.Same (joinTotals op x y) (joinTotals op' x y)
  | some x, some y => (same x y).map some
  | some x, none => .pure (some x)
  | none, some y => .pure (some y)
  | none, none => .pure none

/-- The same results are put into the window and into its elements alone. -/
theorem left_of_gathered {w : Window α} {x : m (Array α)} {y : m' (Array α)}
    (rel : ρ.Rel (Gathered w.size) x y) :
    ρ.Rel w.Left (w.refill <$> x) (w.alone.whole.refill <$> y) :=
  rel.map fun xs _ ⟨eq, le⟩ => ⟨xs, le, rfl, by rw [eq]⟩

end

section
variable {ε ε' α β γ : Type} {m m' : Type → Type} [Monad m] [LawfulMonad m] [Fork ε m] [Reports m]
  [Monad m'] [LawfulMonad m'] [Fork ε' m'] [Reports m'] {w : Window α} {T : Tracking w.lo m m'}

/-- The threshold is the same on both sides, and the notice tells of no index. -/
theorem same_begin {d : Nat} (T : Tracking d m m') (w : Window α) (action : Action) (n : Nat) :
    T.Same (w.begin action n : m Threshold) (w.begin action n : m' Threshold) :=
  (T.note (.processing action n _)).bind_same fun _ => T.pure rfl

/-! ## Operations on each element -/

theorem tracks_forEach {f : α → m Unit} {g : α → m' Unit} (same : ∀ x, T.Same (f x) (g x)) :
    T.Rel Eq (w.forEach f) (w.alone.whole.forEach g) := by
  rw [forEach, forEach, size_alone, part_alone]
  refine (same_begin T w _ _).bind_same fun t => ?_
  exact T.same_forkPieces (fun s => .foldStore (fun _ x => same x) s ())
    (fun _ _ => T.pure rfl) w.part

/-- A bisection gathers what its leaves gather, one behind the other, and no more than it has
elements. -/
theorem gathered_collectLeaves {d : Nat} {T : Tracking d m m'} {π : Type} [Piece π]
    [LawfulPiece π] {t : Threshold} {leaf : π → Nat → m (Array β)} {leaf' : π → Nat → m' (Array β)}
    (onLeaf : ∀ piece lo,
      T.Rel (Gathered (Piece.size piece)) (leaf piece (d + lo)) (leaf' piece lo)) (piece : π) :
    T.Rel (Gathered (Piece.size piece)) (collectLeaves t leaf piece d)
      (collectLeaves t leaf' piece 0) := by
  refine T.forkPieces onLeaf (fun left right => T.pure ⟨?_, ?_⟩) piece
  · rw [left.1, right.1]
  · rw [Array.size_append]
    exact Nat.add_le_add left.2 right.2

theorem size_piece (w : Window α) : Piece.size w.part = w.size := w.size_part

theorem tracks_replaceWith {f : α → m α} {g : α → m' α} (same : ∀ x, T.Same (f x) (g x)) :
    T.Rel w.Left (w.replaceWith f) (w.alone.whole.replaceWith g) := by
  rw [replaceWith, replaceWith, size_alone, part_alone]
  refine (same_begin T w _ _).bind_same fun t => left_of_gathered ?_
  rw [← size_piece]
  exact gathered_collectLeaves (fun s _ => gathered_mapM same s) w.part

/-- The function is asked for the indices of the array, which are greater than those alone. -/
theorem tracks_replaceWithIndex {f : Nat → m α} {g : Nat → m' α}
    (rel : ∀ i, T.Rel Eq (f (w.lo + i)) (g i)) :
    T.Rel w.Left (w.replaceWithIndex f) (w.alone.whole.replaceWithIndex g) := by
  rw [replaceWithIndex, replaceWithIndex, size_alone, part_alone]
  refine (same_begin T w _ _).bind_same fun t => left_of_gathered ?_
  rw [← size_piece]
  exact gathered_collectLeaves (fun s _ => gathered_mapIndicesM rel s) w.part

/-- An operand that is too short is too short for both, since both have as many elements. -/
theorem tracks_replaceWithCombined {other : Store β} {f : α → β → m α} {g : α → β → m' α}
    (same : ∀ x y, T.Same (f x y) (g x y)) :
    T.Rel (Results Eq w.Left) (w.replaceWithCombined other f)
      (w.alone.whole.replaceWithCombined other g) := by
  rw [replaceWithCombined, replaceWithCombined, size_alone, part_alone]
  split
  · exact T.pure (.error rfl)
  · refine (same_begin T w _ _).bind_same fun t => ?_
    have size : Piece.size (w.part, other.slice 0 w.size) = w.size := w.size_piece
    refine T.bind (R := Gathered (Piece.size (w.part, other.slice 0 w.size))) ?_
      fun xs ys ⟨eq, le⟩ => T.pure (.ok ⟨xs, size ▸ le, rfl, by rw [eq]⟩)
    exact gathered_collectLeaves (fun p _ => gathered_zipWithM same p.1 p.2) _

theorem tracks_transfers (t : Threshold) {f : α → m β} {g : α → m' β}
    (same : ∀ x, T.Same (f x) (g x)) :
    T.Rel Eq (w.transfers t f) (w.alone.whole.transfers t g) := by
  rw [transfers, transfers, size_alone, part_alone]
  let dest : Span := ⟨0, w.size⟩
  refine Rel.mono (R := Gathered (Piece.size (w.part, dest))) ?_ fun xs ys gathered => gathered.1
  exact gathered_collectLeaves (fun p _ => gathered_transferM same p.1 p.2) _

/-- There is room for an array on both sides, or on none. -/
theorem tracks_map [RoomFailure ε] [RoomFailure ε'] [Cell β]
    (lacking : hasRoom w.size (Cell.bytes β) = false →
      T.expected RoomFailure.noRoom RoomFailure.noRoom)
    {f : α → m β} {g : α → m' β} (same : ∀ x, T.Same (f x) (g x)) :
    T.Rel Eq (w.map f) (w.alone.whole.map g) := by
  rw [map, map, size_alone]
  refine (same_begin T w _ _).bind_same fun t => T.rel_claimRoom lacking fun _ => ?_
  exact (tracks_transfers t same).bind_same fun writes => T.pure rfl

/-! ## Totals -/

section
variable {base : α} {op : α → α → m α} {op' : α → α → m' α}
  (same : ∀ x y, T.Same (op x y) (op' x y))
include same

/-- The base comes in front of the total of the elements, wherever these are. -/
theorem tracks_reduce : T.Rel Eq (w.reduce base op) (w.alone.whole.reduce base op') := by
  rw [reduce, reduce, size_alone, part_alone]
  refine (same_begin T w _ _).bind_same fun t => ?_
  refine (T.same_forkPieces (Scan.same_reduceM same) (same_joinTotals same) w.part).bind_same
    fun total => ?_
  cases total with
  | none => exact T.pure rfl
  | some total => exact same base total

/-- A scan counts from the start of its own range, so that it is the same scan. -/
theorem tracks_cumulate : T.Rel w.Left (w.cumulate base op) (w.alone.whole.cumulate base op') := by
  rw [cumulate, cumulate, size_alone, part_alone]
  refine (same_begin T w _ _).bind_same fun t => ?_
  refine T.bind (Scan.tracks_scan T same t .inclusive base w.part) fun p q ⟨eq, size⟩ => ?_
  subst eq
  refine T.pure ⟨p.1.toArray, ?_, rfl, rfl⟩
  rw [Store.size_toArray, size]
  exact Nat.le_of_eq w.size_part

/-- The total comes out the same, beside the elements that are left. -/
theorem tracks_precumulate :
    T.Rel (fun p q => w.Left p.1 q.1 ∧ p.2 = q.2) (w.precumulate base op)
      (w.alone.whole.precumulate base op') := by
  rw [precumulate, precumulate, size_alone, part_alone]
  refine (same_begin T w _ _).bind_same fun t => ?_
  refine T.bind (Scan.tracks_scan T same t .exclusive base w.part) fun p q ⟨eq, size⟩ => ?_
  subst eq
  refine T.pure ⟨⟨p.1.toArray, ?_, rfl, rfl⟩, rfl⟩
  rw [Store.size_toArray, size]
  exact Nat.le_of_eq w.size_part

end

end

/-! ## Sorting -/

section
variable {ε ε' α : Type} {m m' : Type → Type} [Monad m] [LawfulMonad m] [Fork ε m] [Reports m]
  [Monad m'] [LawfulMonad m'] [Fork ε' m'] [Reports m'] {w : Window α} {T : Tracking w.lo m m'}

theorem tracks_sortBy {cmp : α → α → m Ordering} {cmp' : α → α → m' Ordering}
    (same : ∀ x y, T.Same (cmp x y) (cmp' x y)) :
    T.Rel w.Left (w.sortBy cmp) (w.alone.whole.sortBy cmp') := by
  rw [sortBy, sortBy, size_alone, part_alone]
  refine (same_begin T w _ _).bind_same fun t => left_of_gathered ?_
  refine (T.sortBy same t w.part).mono fun xs ys ⟨eq, size⟩ => ⟨eq, ?_⟩
  rw [size]
  exact Nat.le_of_eq w.size_part

/-- Copies of one value are left as they are on both sides. -/
theorem tracks_sort [Ord α] : T.Rel w.Left w.sort w.alone.whole.sort := by
  rw [sort, sort, part_alone]
  cases w.part.uniform? with
  | some x =>
    dsimp only
    rw [size_alone]
    exact (same_begin T w _ _).bind_same fun _ => T.pure (.same w)
  | none => exact tracks_sortBy fun _ _ => .pure _

end

end Bisection.Window
