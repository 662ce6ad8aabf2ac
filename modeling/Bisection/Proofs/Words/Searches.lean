import Bisection.Search

/-!
# Searches in machine words

Indices are words of 64 bits, and sums and differences of words may wrap around. Here a search is
written over words, with a computation `overflow` in place of what would come after a sum or
difference that is not exact. Whatever `overflow` is, such a search is the one over natural numbers:
it cuts a range `lo..hi` at `lo + (hi - lo) / 2`, which is no larger than `hi`. The predicate is
asked about words of the range alone.
-/

namespace Bisection.Words
set_option autoImplicit false

/-! ## Sums of words -/

section
variable {a b lo hi : UInt64}

/-- The sum of two words is a word. -/
def Fits (a b : UInt64) : Prop := a.toNat + b.toNat ≤ maxSize

instance (a b : UInt64) : Decidable (Fits a b) := Nat.decLe _ _

theorem toNat_le_maxSize (a : UInt64) : a.toNat ≤ maxSize := Nat.le_of_lt_succ a.toNat_lt

theorem Fits.toNat_add (fits : Fits a b) : (a + b).toNat = a.toNat + b.toNat := by
  have small : a.toNat + b.toNat < 2 ^ 64 := Nat.lt_succ_of_le fits
  rw [UInt64.toNat_add, Nat.mod_eq_of_lt small]

/-- A sum that is no larger than some word. -/
theorem Fits.of_le (hi : UInt64) (le : a.toNat + b.toNat ≤ hi.toNat) : Fits a b :=
  Nat.le_trans le (toNat_le_maxSize hi)

theorem Fits.le_add (fits : Fits a b) : a ≤ a + b := by
  rw [UInt64.le_iff_toNat_le, fits.toNat_add]
  exact Nat.le_add_right _ _

theorem add_le (le : a.toNat + b.toNat ≤ hi.toNat) : a + b ≤ hi := by
  rwa [UInt64.le_iff_toNat_le, (Fits.of_le hi le).toNat_add]

theorem toNat_half (a : UInt64) : (a / 2).toNat = a.toNat / 2 := UInt64.toNat_div a 2

theorem toNat_ofNat {n : Nat} (small : n ≤ maxSize) : (UInt64.ofNat n).toNat = n :=
  UInt64.toNat_ofNat_of_lt' (Nat.lt_succ_of_le small)

theorem toNat_length (le : lo ≤ hi) : (hi - lo).toNat = hi.toNat - lo.toNat :=
  UInt64.toNat_sub_of_le hi lo le

theorem start_add_length (le : lo ≤ hi) : lo.toNat + (hi.toNat - lo.toNat) = hi.toNat :=
  Nat.add_sub_of_le (UInt64.le_iff_toNat_le.mp le)

/-- The middle of a range is a word, -/
theorem fits_middle (le : lo ≤ hi) : Fits lo ((hi - lo) / 2) := by
  have le' := UInt64.le_iff_toNat_le.mp le
  refine .of_le hi ?_
  rw [toNat_half, toNat_length le]
  omega

/-- and is where it is in natural numbers. -/
theorem toNat_middle (le : lo ≤ hi) :
    (lo + (hi - lo) / 2).toNat = lo.toNat + (hi.toNat - lo.toNat) / 2 := by
  rw [(fits_middle le).toNat_add, toNat_half, toNat_length le]

theorem middle_within (le : lo ≤ hi) : lo ≤ lo + (hi - lo) / 2 ∧ lo + (hi - lo) / 2 ≤ hi := by
  have le' := UInt64.le_iff_toNat_le.mp le
  refine ⟨(fits_middle le).le_add, ?_⟩
  rw [UInt64.le_iff_toNat_le, toNat_middle le]
  omega

/-- What holds of ranges that are no longer than the threshold, and of longer ones if of both their
halves, holds of all ranges. -/
@[elab_as_elim] theorem middle_induction (t : Threshold)
    {motive : (lo hi : UInt64) → lo ≤ hi → Prop}
    (short : ∀ lo hi le, hi.toNat - lo.toNat ≤ t.val → motive lo hi le)
    (long : ∀ lo hi le, ¬ hi.toNat - lo.toNat ≤ t.val →
      motive lo (lo + (hi - lo) / 2) (middle_within le).1 →
      motive (lo + (hi - lo) / 2) hi (middle_within le).2 → motive lo hi le)
    (lo hi : UInt64) (le : lo ≤ hi) : motive lo hi le := by
  induction size : hi.toNat - lo.toNat using Nat.strongRecOn generalizing lo hi le with
  | ind n ih =>
    subst size
    by_cases h : hi.toNat - lo.toNat ≤ t.val
    · exact short lo hi le h
    · have two := Threshold.two_le h
      have middle := toNat_middle le
      exact long lo hi le h (ih _ (by omega) _ _ _ rfl) (ih _ (by omega) _ _ _ rfl)

theorem fits_next (lt : lo < hi) : Fits lo 1 := .of_le hi (UInt64.lt_iff_toNat_lt.mp lt)

theorem toNat_next (lt : lo < hi) : (lo + 1).toNat = lo.toNat + 1 := (fits_next lt).toNat_add

theorem next_within (lt : lo < hi) : lo ≤ lo + 1 ∧ lo + 1 ≤ hi :=
  ⟨(fits_next lt).le_add, add_le (UInt64.lt_iff_toNat_lt.mp lt)⟩

/-- Loops from one word to the next one end at `hi`. -/
@[elab_as_elim] theorem upward (hi : UInt64) {motive : UInt64 → Prop}
    (stop : ∀ lo, ¬ lo < hi → motive lo) (next : ∀ lo, lo < hi → motive (lo + 1) → motive lo)
    (lo : UInt64) : motive lo := by
  induction size : hi.toNat - lo.toNat generalizing lo with
  | zero =>
    refine stop lo fun lt => ?_
    have := UInt64.lt_iff_toNat_lt.mp lt
    omega
  | succ n ih =>
    have lt : lo < hi := by
      rw [UInt64.lt_iff_toNat_lt]
      omega
    exact next lo lt (ih (lo + 1) (by rw [toNat_next lt]; omega))

/-- The word of an index is not the one of an empty cell. -/
theorem ne_vacant (lt : lo < hi) : lo ≠ MatchCell.vacant := by
  rintro rfl
  exact absurd (UInt64.lt_iff_toNat_lt.mp lt) (Nat.not_lt.mpr (toNat_le_maxSize hi))

theorem get_word (lt : lo < hi) : MatchCell.get ⟨lo⟩ = some lo.toNat := by
  rw [MatchCell.get, if_pos]
  exact MatchCell.isSet_iff.mpr fun empty => ne_vacant lt (congrArg MatchCell.word empty)

/-- An empty cell takes an index as it is. -/
theorem offer_word (a : UInt64) : MatchCell.empty.offer a.toNat = (⟨a⟩, true) := by
  rw [MatchCell.offer, MatchCell.isSet_empty, if_neg Bool.false_ne_true, UInt64.ofNat_toNat]

end

/-! ## Searches -/

section
variable {ε : Type} {m : Type → Type} [Monad m]

/-- The first index of `lo..hi` that `accepts` accepts. -/
def firstMatch (accepts : UInt64 → m Bool) (lo hi : UInt64) : m (Option Nat) :=
  if _h : lo < hi then do
    if ← accepts lo then pure (some lo.toNat) else firstMatch accepts (lo + 1) hi
  else pure none
termination_by hi.toNat - lo.toNat
decreasing_by
  have lt := UInt64.lt_iff_toNat_lt.mp _h
  rw [toNat_next _h]
  omega

/-- Searches a leaf. -/
def searchLeaf [Fork ε m] [Reports m] (accepts : UInt64 → m Bool) (lo hi : UInt64)
    (cell : MatchCell) : m (MatchCell × Option ε) := do
  match ← Fork.attempt (firstMatch accepts lo hi) with
  | .error e => pure (cell, some e)
  | .ok none => pure (cell, none)
  | .ok (some i) =>
    let (cell, stored) := cell.offer i
    Reports.note (.found i stored)
    pure (cell, none)

/-- Searches `lo..hi`, where `leaf` searches a range that is no longer than the threshold. -/
def searchRange [Reports m] (t : Threshold) (overflow : m (MatchCell × Option ε))
    (leaf : UInt64 → UInt64 → MatchCell → m (MatchCell × Option ε)) (lo hi : UInt64)
    (cell : MatchCell) : m (MatchCell × Option ε) :=
  if cell.isSet then do
    Reports.note (.skipping lo.toNat hi.toNat)
    pure (cell, none)
  else if _le : lo ≤ hi then
    if _h : (hi - lo).toNat ≤ t.val then leaf lo hi cell
    else if Fits lo ((hi - lo) / 2) then do
      let mid := lo + (hi - lo) / 2
      let (cell, left) ← searchRange t overflow leaf lo mid cell
      let (cell, right) ← searchRange t overflow leaf mid hi cell
      pure (cell, left <|> right)
    else overflow
  else overflow
termination_by hi.toNat - lo.toNat
decreasing_by
  all_goals
    have two := Threshold.two_le _h
    rw [toNat_length _le] at two
    rw [toNat_middle _le]
    omega

/-- The index of a match in `lo..hi`. -/
def findAny [Fork ε m] [Reports m] (t : Threshold) (overflow : m (MatchCell × Option ε))
    (accepts : UInt64 → m Bool) (lo hi : UInt64) : m (Option Nat) := do
  match ← searchRange t overflow (searchLeaf accepts) lo hi .empty with
  | (_, some e) => Fork.raise e
  | (cell, none) => pure cell.get

/-- A function of words and one of natural numbers have the same values from `lo` up to and without
`hi`. -/
def Agree {γ : Type} (lo hi : UInt64) (f : UInt64 → γ) (g : Nat → γ) : Prop :=
  ∀ i, lo ≤ i → i < hi → f i = g i.toNat

variable {lo hi : UInt64} {accepts : UInt64 → m Bool} {accepts' : Nat → m Bool}

theorem Agree.within {γ : Type} {f : UInt64 → γ} {g : Nat → γ} {a b : UInt64}
    (agree : Agree lo hi f g) (above : lo ≤ a) (below : b ≤ hi) : Agree a b f g :=
  fun i le lt => agree i (UInt64.le_trans above le) (UInt64.lt_of_lt_of_le lt below)

theorem firstMatch_words (agree : Agree lo hi accepts accepts') :
    firstMatch accepts lo hi = Bisection.firstMatch accepts' lo.toNat hi.toNat := by
  induction lo using upward hi with
  | stop lo done =>
    rw [firstMatch, dif_neg done, Bisection.firstMatch, if_neg (mt UInt64.lt_iff_toNat_lt.mpr done)]
  | next lo lt ih =>
    have rest := ih (agree.within (next_within lt).1 (UInt64.le_refl hi))
    rw [firstMatch, dif_pos lt, Bisection.firstMatch, if_pos (UInt64.lt_iff_toNat_lt.mp lt),
      agree lo (UInt64.le_refl lo) lt, rest, toNat_next lt]

theorem searchLeaf_words [Fork ε m] [Reports m] (agree : Agree lo hi accepts accepts')
    (cell : MatchCell) :
    searchLeaf accepts lo hi cell = Bisection.searchLeaf accepts' lo.toNat hi.toNat cell := by
  unfold searchLeaf Bisection.searchLeaf
  exact congrArg (fun found => Fork.attempt found >>= _) (firstMatch_words agree)

/-- A search goes through ranges inside its own, and no sum or difference overflows. -/
theorem searchRange_words [Reports m] (t : Threshold) (overflow : m (MatchCell × Option ε))
    {leaf : UInt64 → UInt64 → MatchCell → m (MatchCell × Option ε)}
    {leaf' : Nat → Nat → MatchCell → m (MatchCell × Option ε)} (le : lo ≤ hi)
    (agree : ∀ a b cell, lo ≤ a → a ≤ b → b ≤ hi → leaf a b cell = leaf' a.toNat b.toNat cell)
    (cell : MatchCell) :
    searchRange t overflow leaf lo hi cell =
      Bisection.searchRange t leaf' lo.toNat hi.toNat cell := by
  induction lo, hi, le using middle_induction t generalizing cell with
  | short lo hi le h =>
    rw [searchRange, Bisection.searchRange, dif_pos le, toNat_length le, dif_pos h, dif_pos h,
      agree lo hi cell (UInt64.le_refl lo) le (UInt64.le_refl hi)]
  | long lo hi le h left right =>
    obtain ⟨above, below⟩ := middle_within le
    have left := left fun a b cell from_lo le to_mid =>
      agree a b cell from_lo le (UInt64.le_trans to_mid below)
    have right := right fun a b cell from_mid le to_hi =>
      agree a b cell (UInt64.le_trans above from_mid) le to_hi
    rw [searchRange, Bisection.searchRange, dif_pos le, toNat_length le, dif_neg h, dif_neg h,
      if_pos (fits_middle le)]
    simp only [left, right, toNat_middle le]

/-- A search in words asks about indices of its range alone, and is the search in natural
numbers. -/
theorem findAny_words [Fork ε m] [Reports m] (t : Threshold) (overflow : m (MatchCell × Option ε))
    (le : lo ≤ hi) (agree : Agree lo hi accepts accepts') :
    findAny t overflow accepts lo hi = Bisection.findAny t accepts' lo.toNat hi.toNat := by
  have search := searchRange_words t overflow le (fun a b cell above _ below =>
    searchLeaf_words (agree.within above below) cell) .empty
  unfold findAny Bisection.findAny
  exact congrArg (fun found => found >>= _) search

end

end Bisection.Words
