import Bisection.Proofs.Alone.Tracking

/-!
# Bisections piece by piece

`forkPieces` halves a piece until it is short. What is to be shown of it is shown of short pieces,
and of long ones from both of their halves (`halves_induction`). Over computations that run the
halves of a fork one after the other, a bisection is a loop over the parts of a piece.
-/

namespace Bisection
set_option autoImplicit false

section
variable {ε π β : Type} {m : Type → Type} [Monad m] [Fork ε m] [Piece π]
  {t : Threshold} {leaf : π → Nat → m β} {combine : β → β → m β} {p : π}

/-- The part of a piece before its middle. -/
def Piece.left (piece : π) : π := (Piece.cut piece (Piece.size piece / 2)).1

/-- The part of a piece from its middle on. -/
def Piece.right (piece : π) : π := (Piece.cut piece (Piece.size piece / 2)).2

theorem forkPieces_of_le (h : Piece.size p ≤ t.val) (lo : Nat) :
    forkPieces t leaf combine p lo = leaf p lo := by
  rw [forkPieces, forkPieces.go, dif_pos h]

section
variable [LawfulPiece π]

theorem size_left (piece : π) : Piece.size (Piece.left piece) = Piece.size piece / 2 :=
  (LawfulPiece.size_cut piece (Nat.div_le_self _ 2)).1

theorem size_right (piece : π) :
    Piece.size (Piece.right piece) = Piece.size piece - Piece.size piece / 2 :=
  (LawfulPiece.size_cut piece (Nat.div_le_self _ 2)).2

/-- What holds of short pieces, and of long pieces if of both halves, holds of all pieces. -/
@[elab_as_elim] theorem halves_induction (t : Threshold) {motive : π → Nat → Prop}
    (short : ∀ piece lo, Piece.size piece ≤ t.val → motive piece lo)
    (long : ∀ piece lo, ¬ Piece.size piece ≤ t.val → motive (Piece.left piece) lo →
      motive (Piece.right piece) (lo + Piece.size piece / 2) → motive piece lo)
    (piece : π) (lo : Nat) : motive piece lo := by
  induction size : Piece.size piece using Nat.strongRecOn generalizing piece lo with
  | ind n ih =>
    subst size
    by_cases h : Piece.size piece ≤ t.val
    · exact short piece lo h
    · have two := Threshold.two_le h
      have left := size_left piece
      have right := size_right piece
      exact long piece lo h (ih _ (by omega) _ _ rfl) (ih _ (by omega) _ _ rfl)

theorem forkPieces_of_lt (h : ¬ Piece.size p ≤ t.val) (lo : Nat) :
    forkPieces t leaf combine p lo =
      Fork.join (forkPieces t leaf combine (Piece.left p) lo)
        (forkPieces t leaf combine (Piece.right p) (lo + Piece.size p / 2)) >>=
        fun results => combine results.1 results.2 := by
  rw [forkPieces, forkPieces.go, dif_neg h, forkPieces, forkPieces, size_left, size_right]
  rfl

/-- What the leaves make of each short piece, and what comes of joining the halves of each long one,
is what comes of any piece. -/
theorem forkPieces_eq (result : π → Nat → m β)
    (onLeaf : ∀ piece lo, Piece.size piece ≤ t.val → leaf piece lo = result piece lo)
    (onCut : ∀ piece lo, ¬ Piece.size piece ≤ t.val →
      (Fork.join (result (Piece.left piece) lo)
        (result (Piece.right piece) (lo + Piece.size piece / 2)) >>= fun results =>
          combine results.1 results.2) = result piece lo) (piece : π) (lo : Nat) :
    forkPieces t leaf combine piece lo = result piece lo := by
  refine halves_induction t ?short ?long piece lo
  case short =>
    intro piece lo h
    rw [forkPieces_of_le h, onLeaf piece lo h]
  case long =>
    intro piece lo h left right
    rw [forkPieces_of_lt h, left, right, onCut piece lo h]

end

end

theorem toList_cut {α : Type} (s : Store α) (k : Nat) :
    (Piece.cut s k).1.toList = s.toList.take k ∧ (Piece.cut s k).2.toList = s.toList.drop k := by
  constructor
  · show (s.slice 0 k).toList = _
    rw [Store.toList_slice, List.drop_zero]
  · show (s.slice k s.size).toList = _
    rw [Store.toList_slice, List.take_of_length_le (Nat.le_of_eq s.length_toList)]

theorem toList_left {α : Type} (s : Store α) :
    (Piece.left s).toList = s.toList.take (s.size / 2) :=
  (toList_cut s (s.size / 2)).1

theorem toList_right {α : Type} (s : Store α) :
    (Piece.right s).toList = s.toList.drop (s.size / 2) :=
  (toList_cut s (s.size / 2)).2

/-- Computations whose forks run the left half first, and then the right half unless the left one
fails. -/
class SequentialFork {ε : outParam Type} (m : Type → Type) [Monad m] [Fork ε m] : Prop where
  join_eq {β γ : Type} (x : m β) (y : m γ) : Fork.join x y = (do pure (← x, ← y))

instance : SequentialFork Id where
  join_eq _ _ := rfl

instance {ε : Type} : SequentialFork (Except ε) where
  join_eq x y := by
    cases x with
    | error e => rfl
    | ok a => cases y <;> rfl

instance {σ : Type} : SequentialFork (StateM σ) where
  join_eq _ _ := rfl

/-- A bisection with forks that run one after the other. -/
theorem forkPieces_sequential {ε π β : Type} {m : Type → Type} [Monad m] [LawfulMonad m] [Fork ε m]
    [SequentialFork m] [Piece π] [LawfulPiece π] {t : Threshold} {leaf : π → Nat → m β}
    {combine : β → β → m β} (result : π → Nat → m β)
    (onLeaf : ∀ piece lo, Piece.size piece ≤ t.val → leaf piece lo = result piece lo)
    (onCut : ∀ piece lo, ¬ Piece.size piece ≤ t.val → (do
      let a ← result (Piece.left piece) lo
      let b ← result (Piece.right piece) (lo + Piece.size piece / 2)
      combine a b) = result piece lo) (piece : π) (lo : Nat) :
    forkPieces t leaf combine piece lo = result piece lo := by
  refine forkPieces_eq result onLeaf (fun piece lo h => ?_) piece lo
  rw [← onCut piece lo h, SequentialFork.join_eq]
  simp only [bind_assoc, pure_bind]

end Bisection
