import Bisection.Proofs.Alone.Tracking
import Bisection.Search

/-!
# Searching further on

A search of the indices `d` places further on looks at the same places in the same order. The cells
hold the same match on both sides as long as the larger indices fit into a cell.
-/

namespace Bisection
set_option autoImplicit false

namespace MatchCell
variable {c c' : MatchCell} {d i : Nat}

/-- Both cells are empty, or both hold a match, the first one `d` places further on. -/
def Follows (d : Nat) (c c' : MatchCell) : Prop := c.get = c'.get.map (d + ·)

theorem isSet_eq (c : MatchCell) : c.isSet = c.get.isSome := by
  rw [get]
  cases c.isSet <;> rfl

theorem Follows.empty (d : Nat) : Follows d empty empty := rfl

/-- Both cells are set, or neither. -/
theorem Follows.isSet (follows : c.Follows d c') : c.isSet = c'.isSet := by
  rw [isSet_eq, isSet_eq, follows, Option.isSome_map]

/-- An index is stored in both cells or in none. -/
theorem Follows.offer (follows : c.Follows d c') (small : d + i < maxSize) :
    (c.offer (d + i)).1.Follows d (c'.offer i).1 ∧ (c.offer (d + i)).2 = (c'.offer i).2 := by
  by_cases set : c'.isSet
  · rw [offer_of_isSet set, offer_of_isSet (follows.isSet.trans set)]
    exact ⟨follows, rfl⟩
  · rw [MatchCell.offer, MatchCell.offer, follows.isSet, if_neg set, if_neg set]
    refine ⟨?_, rfl⟩
    rw [Follows, get_ofNat small, get_ofNat (Nat.lt_of_le_of_lt (Nat.le_add_left i d) small)]
    rfl

end MatchCell

section
variable {m : Type → Type} [Monad m] {lo hi : Nat}

theorem firstMatch_of_lt (accepts : Nat → m Bool) (lt : lo < hi) : firstMatch accepts lo hi =
    accepts lo >>= fun hit =>
      if hit then pure (some lo) else firstMatch accepts (lo + 1) hi := by
  rw [firstMatch, if_pos lt]

theorem firstMatch_of_le (accepts : Nat → m Bool) (le : hi ≤ lo) :
    firstMatch accepts lo hi = pure none := by
  rw [firstMatch, if_neg (Nat.not_lt_of_le le)]

end

namespace Tracking
variable {ε ε' : Type} {m m' : Type → Type} [Monad m] [LawfulMonad m] [Fork ε m] [Reports m]
  [Monad m'] [LawfulMonad m'] [Fork ε' m'] [Reports m'] {d : Nat} {T : Tracking d m m'}
  {accepts : Nat → m Bool} {accepts' : Nat → m' Bool} {lo hi : Nat}

/-- A loop over a leaf stops at the same place. -/
theorem firstMatch
    (ask : ∀ i, lo ≤ i → i < hi → T.Rel Eq (accepts (d + i)) (accepts' i)) :
    T.Rel (fun found found' => found = found'.map (d + ·) ∧ ∀ i ∈ found', i < hi)
      (Bisection.firstMatch accepts (d + lo) (d + hi)) (Bisection.firstMatch accepts' lo hi) := by
  induction left : hi - lo generalizing lo with
  | zero =>
    rw [firstMatch_of_le _ (by omega), firstMatch_of_le _ (by omega)]
    exact T.pure ⟨rfl, nofun⟩
  | succ k ih =>
    have within : lo < hi := by omega
    rw [firstMatch_of_lt _ (by omega), firstMatch_of_lt _ within]
    refine (ask lo (Nat.le_refl lo) within).bind_same fun hit => ?_
    cases hit with
    | true =>
      refine T.pure ⟨rfl, fun i found => ?_⟩
      cases found
      exact within
    | false => exact @ih (lo + 1) (fun i above => ask i (by omega)) (by omega)

/-- What a search gives on both sides: cells that go together, and failures that are expected on
both sides or on neither. -/
structure Searched (T : Tracking d m m') (found : MatchCell × Option ε)
    (found' : MatchCell × Option ε') : Prop where
  cells : found.1.Follows d found'.1
  failures : Option.Rel T.expected found.2 found'.2

/-- A leaf leaves its cell as a leaf further on does, and fails if that fails. -/
theorem searchLeaf {cell cell' : MatchCell} (follows : cell.Follows d cell')
    (small : d + hi ≤ maxSize)
    (ask : ∀ i, lo ≤ i → i < hi → T.Rel Eq (accepts (d + i)) (accepts' i)) :
    T.Rel T.Searched (Bisection.searchLeaf accepts (d + lo) (d + hi) cell)
      (Bisection.searchLeaf accepts' lo hi cell') := by
  refine T.bind (T.attempt (firstMatch ask)) fun result result' related => ?_
  cases related with
  | error are_expected => exact T.pure ⟨follows, .some are_expected⟩
  | @ok found found' related =>
    obtain ⟨rfl, inside⟩ := related
    cases found' with
    | none => exact T.pure ⟨follows, .none⟩
    | some i =>
      have lt : i < hi := inside i rfl
      obtain ⟨stored, same⟩ := follows.offer (i := i) (by omega)
      show T.Rel T.Searched (Reports.note (.found (d + i) (cell.offer (d + i)).2) >>= _) _
      rw [same]
      exact (T.note (.found i _)).bind_same fun _ => T.pure ⟨stored, .none⟩

/-- A range is passed over, searched as a leaf or halved as the range further on is. -/
theorem searchRange {t : Threshold} {cell cell' : MatchCell} (follows : cell.Follows d cell')
    (small : d + hi ≤ maxSize)
    (ask : ∀ i, lo ≤ i → i < hi → T.Rel Eq (accepts (d + i)) (accepts' i)) :
    T.Rel T.Searched
      (Bisection.searchRange t (Bisection.searchLeaf accepts) (d + lo) (d + hi) cell)
      (Bisection.searchRange t (Bisection.searchLeaf accepts') lo hi cell') := by
  induction size : hi - lo using Nat.strongRecOn generalizing lo hi cell cell' with
  | ind n ih =>
    have length : d + hi - (d + lo) = hi - lo := by omega
    rw [Bisection.searchRange, Bisection.searchRange, follows.isSet, length]
    by_cases set : cell'.isSet
    · rw [if_pos set, if_pos set]
      exact (T.note (.skipping lo hi)).bind_same fun _ => T.pure ⟨follows, .none⟩
    · rw [if_neg set, if_neg set]
      by_cases short : hi - lo ≤ t.val
      · rw [dif_pos short, dif_pos short]
        exact searchLeaf follows small ask
      · have two := Threshold.two_le short
        rw [dif_neg short, dif_neg short, Nat.add_assoc]
        refine T.bind (ih _ (by omega) follows (by omega) (fun i above below => ask i above
          (by omega)) rfl) fun left left' searched => ?_
        refine T.bind (ih _ (by omega) searched.cells small (fun i above below => ask i (by omega)
          below) rfl) fun right right' searched' => ?_
        refine T.pure ⟨searched'.cells, ?_⟩
        obtain ⟨cell, failure⟩ := left
        obtain ⟨cell', failure'⟩ := left'
        cases searched.failures with
        | none => exact searched'.failures
        | some are_expected => exact .some are_expected

/-- A search finds the same match further on. -/
theorem findAny {t : Threshold} (small : d + hi ≤ maxSize)
    (ask : ∀ i, lo ≤ i → i < hi → T.Rel Eq (accepts (d + i)) (accepts' i)) :
    T.Rel (fun found found' => found = found'.map (d + ·))
      (Bisection.findAny t accepts (d + lo) (d + hi)) (Bisection.findAny t accepts' lo hi) := by
  refine T.bind (searchRange (.empty d) small ask) ?_
  rintro ⟨cell, failure⟩ ⟨cell', failure'⟩ ⟨follows, failures⟩
  cases failures with
  | some are_expected => exact T.raise are_expected
  | none => exact T.pure follows

end Tracking

end Bisection
