import Bisection.Search
import Mathlib.Algebra.GroupWithZero.Nat
import Mathlib.Algebra.Order.Group.Nat

/-!
# A search in many hands

The halves of a search run at the same time, on any number of workers, and share one cell. A
`Searcher` is one that is about to look at the cell and then at its range, one that goes through a
leaf, or one that has found a match and is about to store it. Its steps interleave with those of the
others in any order, and it may find the cell empty that is set already.

A searcher drops its range only when it finds the cell set. So as long as the cell is empty, each
match is in the range of a searcher, or somebody holds another match (`Hunt.Sound`). That is why no
order of the steps loses the last match.
-/

namespace Bisection
set_option autoImplicit false

/-- Where one of those who search a range together stands. -/
inductive Searcher where
  /-- Looks at the cell, and then at a range unless the cell is set. -/
  | look (lo hi : Nat)
  /-- Asks about the first index of what is left of a leaf. -/
  | scan (lo hi : Nat)
  /-- Stores a match, unless one is stored. -/
  | offer (index : Nat)
deriving DecidableEq

/-- A cell, and those who share it and are not done. -/
structure Hunt where
  cell : MatchCell
  left : List Searcher
deriving DecidableEq

namespace Searcher

/-- The cell after a step of a searcher, and those who go on in its place. A `stale` look takes the
cell for empty even if it is set. -/
def step (t : Threshold) (accepts : Nat → Bool) (stale : Bool) (cell : MatchCell) :
    Searcher → Hunt
  | look lo hi =>
    ⟨cell,
      if cell.isSet && !stale then []
      else if hi - lo ≤ t.val then [scan lo hi]
      else [look lo (lo + (hi - lo) / 2), look (lo + (hi - lo) / 2) hi]⟩
  | scan lo hi =>
    ⟨cell,
      if lo < hi then
        if accepts lo then [offer lo] else [scan (lo + 1) hi]
      else []⟩
  | offer i => ⟨(cell.offer i).1, []⟩

/-- A searcher accounts for the indices of its range. One that has a match to store accounts for
all, as no other match is needed then. -/
def Covers (i : Nat) : Searcher → Prop
  | look lo hi => lo ≤ i ∧ i < hi
  | scan lo hi => lo ≤ i ∧ i < hi
  | offer _ => True

/-- A searcher keeps to the range `lo..hi`, and stores nothing but a match. -/
def Keeps (accepts : Nat → Bool) (lo hi : Nat) : Searcher → Prop
  | look a b => lo ≤ a ∧ b ≤ hi
  | scan a b => lo ≤ a ∧ b ≤ hi
  | offer i => lo ≤ i ∧ i < hi ∧ accepts i

/-- The steps that a searcher and those in its place may still take. -/
def cost : Searcher → Nat
  | look lo hi => max 2 (4 * (hi - lo) - 1)
  | scan lo hi => hi - lo + 1
  | offer _ => 1

variable {t : Threshold} {accepts : Nat → Bool} {lo hi i : Nat} {cell : MatchCell} {s : Searcher}

/-- What a step does to the cell: an empty one may be set to a match that the searcher holds. -/
theorem cell_step (t : Threshold) (accepts : Nat → Bool) (cell : MatchCell) (stale : Bool)
    (s : Searcher) :
    (s.step t accepts stale cell).cell = cell ∨
      cell = .empty ∧ ∃ i, s = offer i ∧ (s.step t accepts stale cell).cell = ⟨.ofNat i⟩ := by
  cases s with
  | look a b => exact .inl rfl
  | scan a b => exact .inl rfl
  | offer i =>
    by_cases set : cell.isSet
    · left
      show (cell.offer i).1 = cell
      rw [MatchCell.offer_of_isSet set]
    · have eq : cell = .empty := Classical.not_not.mp (mt MatchCell.isSet_iff.mpr set)
      subst eq
      exact .inr ⟨rfl, i, rfl, rfl⟩

/-- The cell is set once a searcher has stored a match, or found another one stored. -/
theorem isSet_offer (small : i < maxSize) (stale : Bool) :
    ((offer i).step t accepts stale cell).cell ≠ .empty := by
  intro empty
  rcases cell_step t accepts cell stale (offer i) with same | set
  · have unset : cell = .empty := same.symm.trans empty
    subst unset
    have got := MatchCell.get_ofNat small
    rw [show (⟨.ofNat i⟩ : MatchCell) = .empty from empty] at got
    cases got
  · obtain ⟨-, j, ⟨⟩, now⟩ := set
    have got := MatchCell.get_ofNat small
    rw [← now, empty] at got
    cases got

/-- Those who go on in place of a searcher keep to its range. -/
theorem Keeps.step (keeps : s.Keeps accepts lo hi) (stale : Bool) :
    ∀ s' ∈ (s.step t accepts stale cell).left, s'.Keeps accepts lo hi := by
  cases s with
  | look a b =>
    obtain ⟨above, below⟩ := keeps
    simp only [Searcher.step]
    split
    · simp
    · split
      · simpa [Keeps] using ⟨above, below⟩
      · next long =>
        have two := Threshold.two_le long
        simp only [List.mem_cons, List.not_mem_nil, or_false, forall_eq_or_imp, forall_eq, Keeps]
        omega
  | scan a b =>
    obtain ⟨above, below⟩ := keeps
    simp only [Searcher.step]
    split
    · next lt =>
      split
      · next hit => simpa [Keeps, hit] using ⟨above, Nat.lt_of_lt_of_le lt below⟩
      · simpa [Keeps] using ⟨Nat.le_succ_of_le above, below⟩
    · simp
  | offer i => simp [Searcher.step]

/-- A searcher leaves each match that it covers to one in its place, unless the cell is set after
its step. -/
theorem Covers.step (covers : s.Covers i) (hit : accepts i) (keeps : s.Keeps accepts lo hi)
    (small : hi ≤ maxSize) (stale : Bool)
    (empty : (s.step t accepts stale cell).cell = .empty) :
    ∃ s' ∈ (s.step t accepts stale cell).left, s'.Covers i := by
  cases s with
  | look a b =>
    obtain ⟨above, below⟩ := covers
    have unset : cell = .empty := empty
    subst unset
    simp only [Searcher.step]
    rw [MatchCell.isSet_empty, Bool.false_and, if_neg Bool.false_ne_true]
    split
    · exact ⟨_, List.mem_singleton_self _, above, below⟩
    · rcases Nat.lt_or_ge i (a + (b - a) / 2) with left | right
      · exact ⟨_, List.mem_cons_self, above, left⟩
      · exact ⟨_, List.mem_cons_of_mem _ (List.mem_singleton_self _), right, below⟩
  | scan a b =>
    obtain ⟨above, below⟩ := covers
    simp only [Searcher.step]
    rw [if_pos (Nat.lt_of_le_of_lt above below)]
    split
    · exact ⟨_, List.mem_singleton_self _, trivial⟩
    · next miss =>
      have ne : a ≠ i := by
        rintro rfl
        exact miss hit
      exact ⟨_, List.mem_singleton_self _, Nat.lt_of_le_of_ne above ne, below⟩
  | offer j =>
    obtain ⟨-, inside, -⟩ := keeps
    exact absurd empty (isSet_offer (Nat.lt_of_lt_of_le inside small) stale)

/-- A step makes less of what is left to do. -/
theorem cost_step (t : Threshold) (accepts : Nat → Bool) (cell : MatchCell) (stale : Bool)
    (s : Searcher) :
    ((s.step t accepts stale cell).left.map cost).sum < s.cost := by
  cases s with
  | look a b =>
    simp only [step]
    split
    · simp [cost]
    · split
      · simp only [List.map_cons, List.map_nil, List.sum_cons, List.sum_nil, cost]
        omega
      · next long =>
        have two := Threshold.two_le long
        simp only [List.map_cons, List.map_nil, List.sum_cons, List.sum_nil, cost]
        omega
  | scan a b =>
    simp only [step]
    split
    · split
      · simp only [List.map_cons, List.map_nil, List.sum_cons, List.sum_nil, cost]
        omega
      · simp only [List.map_cons, List.map_nil, List.sum_cons, List.sum_nil, cost]
        omega
    · simp [cost]
  | offer i => exact Nat.one_pos

end Searcher

namespace Hunt

/-- A search of `lo..hi` before its first step. -/
def start (lo hi : Nat) : Hunt := ⟨.empty, [.look lo hi]⟩

/-- One step of the searcher in a place. -/
def stepAt (t : Threshold) (accepts : Nat → Bool) (h : Hunt) (p : Nat) (stale : Bool) : Hunt :=
  match h.left[p]? with
  | none => h
  | some s =>
    let o := s.step t accepts stale h.cell
    ⟨o.cell, h.left.take p ++ o.left ++ h.left.drop (p + 1)⟩

/-- The searches that come of `n` steps, each by any searcher that there is. -/
inductive Reaches (t : Threshold) (accepts : Nat → Bool) : Nat → Hunt → Hunt → Prop where
  | refl (h : Hunt) : Reaches t accepts 0 h h
  | step {n p : Nat} {h h' : Hunt} (before : Reaches t accepts n h h')
      (lt : p < h'.left.length) (stale : Bool) :
      Reaches t accepts (n + 1) h (h'.stepAt t accepts p stale)

/-- A search of `lo..hi` on its way. The cell holds a match if it is set. As long as it is not, each
match is left to a searcher. -/
structure Sound (accepts : Nat → Bool) (lo hi : Nat) (h : Hunt) : Prop where
  found : h.cell = .empty ∨ ∃ i, h.cell = ⟨.ofNat i⟩ ∧ lo ≤ i ∧ i < hi ∧ accepts i
  keeps : ∀ s ∈ h.left, s.Keeps accepts lo hi
  covered : h.cell = .empty → ∀ i, lo ≤ i → i < hi → accepts i → ∃ s ∈ h.left, s.Covers i

/-- The steps that a search may still take. -/
def cost (h : Hunt) : Nat := (h.left.map Searcher.cost).sum

variable {t : Threshold} {accepts : Nat → Bool} {lo hi n n' p : Nat} {h h' h'' : Hunt}

/-- Cuts a search at one of its searchers. -/
theorem exists_split (t : Threshold) (accepts : Nat → Bool) (lt : p < h.left.length)
    (stale : Bool) : ∃ front s back,
    h.left = front ++ s :: back ∧
    h.stepAt t accepts p stale =
      ⟨(s.step t accepts stale h.cell).cell,
        front ++ (s.step t accepts stale h.cell).left ++ back⟩ := by
  refine ⟨h.left.take p, h.left[p], h.left.drop (p + 1), ?_, ?_⟩
  · rw [← List.drop_eq_getElem_cons lt, List.take_append_drop]
  · rw [stepAt, List.getElem?_eq_getElem lt]

theorem sound_start (lo hi : Nat) : (start lo hi).Sound accepts lo hi := by
  refine ⟨.inl rfl, fun s mem => ?_, fun _ i above below _ => ?_⟩
  · rw [List.mem_singleton.mp mem]
    exact ⟨Nat.le_refl lo, Nat.le_refl hi⟩
  · exact ⟨_, List.mem_singleton_self _, above, below⟩

/-- A step of any searcher keeps the search sound. It changes the cell only if that is empty, and
makes less of what is left to do. -/
theorem Sound.stepAt (sound : h.Sound accepts lo hi) (small : hi ≤ maxSize)
    (lt : p < h.left.length) (stale : Bool) :
    (h.stepAt t accepts p stale).Sound accepts lo hi ∧
      (h.cell = .empty ∨ (h.stepAt t accepts p stale).cell = h.cell) ∧
      (h.stepAt t accepts p stale).cost < h.cost := by
  obtain ⟨front, s, back, left, stepped⟩ := exists_split t accepts lt stale
  have mem : s ∈ h.left := by simp [left]
  have keeps := sound.keeps s mem
  have cell := Searcher.cell_step t accepts h.cell stale s
  rw [stepped]
  refine ⟨⟨?_, fun s' mem' => ?_, fun empty i above below hit => ?_⟩, ?_, ?_⟩
  · rcases cell with same | ⟨-, i, rfl, set⟩
    · dsimp only
      rw [same]
      exact sound.found
    · exact .inr ⟨i, set, keeps⟩
  · simp only [List.mem_append] at mem'
    rcases mem' with (mem' | now) | mem'
    · exact sound.keeps s' (by simp [left, mem'])
    · exact keeps.step stale s' now
    · exact sound.keeps s' (by simp [left, mem'])
  · have unset : h.cell = .empty := by
      rcases cell with same | ⟨unset, -⟩
      · exact same.symm.trans empty
      · exact unset
    obtain ⟨s', mem', covers⟩ := sound.covered unset i above below hit
    rw [left, List.mem_append, List.mem_cons] at mem'
    rcases mem' with mem' | rfl | mem'
    · exact ⟨s', by simp [mem'], covers⟩
    · obtain ⟨s'', now, covers⟩ := covers.step hit keeps small stale empty
      exact ⟨s'', by simp [now], covers⟩
    · exact ⟨s', by simp [mem'], covers⟩
  · rcases cell with same | ⟨unset, -⟩
    · exact .inr same
    · exact .inl unset
  · have less := Searcher.cost_step t accepts h.cell stale s
    simp only [cost, left, List.map_append, List.map_cons, List.sum_append, List.sum_cons]
    omega

/-- Every run keeps the search sound. -/
theorem Reaches.sound (run : Reaches t accepts n h h') (small : hi ≤ maxSize)
    (sound : h.Sound accepts lo hi) :
    h'.Sound accepts lo hi ∧ (h.cell = .empty ∨ h'.cell = h.cell) ∧ n + h'.cost ≤ h.cost := by
  induction run with
  | refl h => exact ⟨sound, .inr rfl, (Nat.zero_add _).le⟩
  | step before lt stale ih =>
    obtain ⟨sound', cell, le⟩ := ih sound
    obtain ⟨sound'', cell', less⟩ := sound'.stepAt (t := t) small lt stale
    refine ⟨sound'', ?_, ?_⟩
    · rcases cell with unset | same
      · exact .inl unset
      · rwa [same] at cell'
    · rw [Nat.add_right_comm]
      exact (Nat.add_lt_add_left less _).trans_le le

/-- Once nobody searches any more, the cell is empty if and only if there is no match. -/
theorem Sound.get_eq_none_iff (sound : h.Sound accepts lo hi) (done : h.left = []) :
    h.cell.get = none ↔ ∀ i, lo ≤ i → i < hi → accepts i = false := by
  rw [MatchCell.get_eq_none_iff]
  constructor
  · intro empty i above below
    by_contra hit
    obtain ⟨s, mem, -⟩ :=
      sound.covered empty i above below (Bool.not_eq_false _ ▸ hit)
    rw [done] at mem
    cases mem
  · intro none
    rcases sound.found with empty | ⟨i, -, above, below, hit⟩
    · exact empty
    · rw [none i above below] at hit
      cases hit

/-- What is found is a match. -/
theorem Sound.of_get_eq_some (sound : h.Sound accepts lo hi) (small : hi ≤ maxSize) {i : Nat}
    (found : h.cell.get = some i) : lo ≤ i ∧ i < hi ∧ accepts i := by
  rcases sound.found with empty | ⟨j, set, above, below, hit⟩
  · rw [empty, MatchCell.get_empty] at found
    cases found
  · rw [set, MatchCell.get_ofNat (Nat.lt_of_lt_of_le below small), Option.some.injEq] at found
    exact found ▸ ⟨above, below, hit⟩

end Hunt

/-! ## A single worker -/

section
variable (t : Threshold) (accepts : Nat → Bool) (lo hi : Nat) (cell : MatchCell)

theorem firstMatch_id : firstMatch (m := Id) accepts lo hi =
    if lo < hi then
      if accepts lo then some lo else firstMatch (m := Id) accepts (lo + 1) hi
    else none := by
  rw [firstMatch]
  rfl

theorem searchLeaf_id : searchLeaf (m := Id) accepts lo hi cell =
    ((firstMatch (m := Id) accepts lo hi).elim cell fun i => (cell.offer i).1, none) := by
  unfold searchLeaf
  generalize firstMatch (m := Id) accepts lo hi = found
  cases found <;> rfl

theorem searchRange_id (leaf : Nat → Nat → MatchCell → Id (MatchCell × Option Empty)) :
    (searchRange (m := Id) t leaf lo hi cell).1 =
      if cell.isSet then cell
      else if hi - lo ≤ t.val then (leaf lo hi cell).1
      else
        let mid := lo + (hi - lo) / 2
        (searchRange (m := Id) t leaf mid hi (searchRange (m := Id) t leaf lo mid cell).1).1 := by
  rw [searchRange]
  split
  · rfl
  · split <;> rfl

theorem findAny_id : findAny (m := Id) t accepts lo hi =
    (searchRange (m := Id) t (searchLeaf accepts) lo hi .empty).1.get := by
  unfold findAny
  generalize searchRange (m := Id) t (searchLeaf accepts) lo hi .empty = o
  obtain ⟨cell, none | e⟩ := o
  · rfl
  · exact e.elim

end

namespace Hunt.Reaches
variable {t : Threshold} {accepts : Nat → Bool} {n n' : Nat} {h h' h'' : Hunt}

theorem trans (run : Reaches t accepts n h h') (rest : Reaches t accepts n' h' h'') :
    Reaches t accepts (n + n') h h'' := by
  induction rest with
  | refl _ => exact run
  | step before lt stale ih => exact .step (ih run) lt stale

/-- A step of the first searcher, and what comes after it. -/
theorem first {s : Searcher} {cell : MatchCell} {rest : List Searcher} {o : Hunt}
    (step : s.step t accepts false cell = o)
    (run : Reaches t accepts n ⟨o.cell, o.left ++ rest⟩ h') :
    Reaches t accepts (n + 1) ⟨cell, s :: rest⟩ h' := by
  have one : Reaches t accepts 1 ⟨cell, s :: rest⟩ ⟨o.cell, o.left ++ rest⟩ := by
    rw [← step]
    exact .step (.refl ⟨cell, s :: rest⟩) (Nat.zero_lt_succ rest.length) false
  rw [Nat.add_comm]
  exact one.trans run

/-- A worker goes through a leaf up to its first match, and stores that. -/
theorem of_searchLeaf (t : Threshold) (accepts : Nat → Bool) (cell : MatchCell)
    (rest : List Searcher) (lo hi : Nat) :
    ∃ n, Reaches t accepts n ⟨cell, .scan lo hi :: rest⟩
      ⟨(searchLeaf (m := Id) accepts lo hi cell).1, rest⟩ := by
  rw [searchLeaf_id]
  induction left : hi - lo generalizing lo with
  | zero =>
    have step : Searcher.step t accepts false cell (.scan lo hi) = ⟨cell, []⟩ := by
      simp only [Searcher.step, if_neg (show ¬ lo < hi by omega)]
    rw [firstMatch_id, if_neg (by omega)]
    exact ⟨1, first step (.refl _)⟩
  | succ left' ih =>
    rw [firstMatch_id, if_pos (by omega)]
    cases hit : accepts lo with
    | true =>
      have step : Searcher.step t accepts false cell (.scan lo hi) = ⟨cell, [.offer lo]⟩ := by
        simp only [Searcher.step, if_pos (show lo < hi by omega), if_pos hit]
      rw [if_pos rfl]
      exact ⟨2, first step (first rfl (.refl _))⟩
    | false =>
      have step : Searcher.step t accepts false cell (.scan lo hi) =
          ⟨cell, [.scan (lo + 1) hi]⟩ := by
        simp only [Searcher.step, if_pos (show lo < hi by omega), hit, Bool.false_eq_true,
          if_false]
      obtain ⟨n, run⟩ := ih (lo + 1) (by omega)
      rw [if_neg Bool.false_ne_true]
      exact ⟨n + 1, first step run⟩

/-- A worker that takes the left half of each range before the right half makes the steps of
`searchRange`. -/
theorem of_searchRange (t : Threshold) (accepts : Nat → Bool) (cell : MatchCell)
    (rest : List Searcher) (lo hi : Nat) :
    ∃ n, Reaches t accepts n ⟨cell, .look lo hi :: rest⟩
      ⟨(searchRange (m := Id) t (searchLeaf accepts) lo hi cell).1, rest⟩ := by
  induction size : hi - lo using Nat.strongRecOn generalizing lo hi cell rest with
  | ind k ih =>
    rw [searchRange_id]
    cases set : cell.isSet with
    | true =>
      have step : Searcher.step t accepts false cell (.look lo hi) = ⟨cell, []⟩ := by
        simp only [Searcher.step, set, Bool.not_false, Bool.and_self, if_true]
      rw [if_pos rfl]
      exact ⟨1, first step (.refl _)⟩
    | false =>
      rw [if_neg Bool.false_ne_true]
      by_cases short : hi - lo ≤ t.val
      · have step : Searcher.step t accepts false cell (.look lo hi) = ⟨cell, [.scan lo hi]⟩ := by
          simp only [Searcher.step, set, Bool.false_and, Bool.false_eq_true, if_false,
            if_pos short]
        rw [if_pos short]
        obtain ⟨n, run⟩ := of_searchLeaf t accepts cell rest lo hi
        exact ⟨n + 1, first step run⟩
      · have two := Threshold.two_le short
        have step : Searcher.step t accepts false cell (.look lo hi) =
            ⟨cell, [.look lo (lo + (hi - lo) / 2), .look (lo + (hi - lo) / 2) hi]⟩ := by
          simp only [Searcher.step, set, Bool.false_and, Bool.false_eq_true, if_false,
            if_neg short]
        rw [if_neg short]
        obtain ⟨n, left⟩ := ih (lo + (hi - lo) / 2 - lo) (by omega) cell
          (.look (lo + (hi - lo) / 2) hi :: rest) lo (lo + (hi - lo) / 2) rfl
        obtain ⟨n', right⟩ := ih (hi - (lo + (hi - lo) / 2)) (by omega) _ rest
          (lo + (hi - lo) / 2) hi rfl
        exact ⟨n + n' + 1, first step (left.trans right)⟩

end Hunt.Reaches

/-- Those who search a range together find a match if there is one, whatever the order of their
steps. The cell changes once at most, from empty to a match. When nobody searches any more, and that
is so after at most four steps for each index and two more, the cell is empty if and only if there
is no match, and a match that is the only one is in it. A single worker is one of the orders. -/
theorem searchers_interleave (t : Threshold) (accepts : Nat → Bool) {lo hi : Nat}
    (small : hi ≤ maxSize) :
    (∀ n now, Hunt.Reaches t accepts n (.start lo hi) now →
      n ≤ 4 * (hi - lo) + 2 ∧
      (∀ i, now.cell.get = some i → lo ≤ i ∧ i < hi ∧ accepts i) ∧
      (∀ n' later, Hunt.Reaches t accepts n' now later →
        now.cell = .empty ∨ later.cell = now.cell) ∧
      (now.left = [] →
        (now.cell.get = none ↔ ∀ i, lo ≤ i → i < hi → accepts i = false) ∧
        ∀ i, lo ≤ i → i < hi → accepts i →
          (∀ j, lo ≤ j → j < hi → accepts j → j = i) → now.cell.get = some i)) ∧
    ∃ n now, Hunt.Reaches t accepts n (.start lo hi) now ∧ now.left = [] ∧
      now.cell.get = findAny (m := Id) t accepts lo hi := by
  constructor
  · intro n now run
    obtain ⟨sound, -, le⟩ := run.sound small (Hunt.sound_start lo hi)
    have most : (Hunt.start lo hi).cost ≤ 4 * (hi - lo) + 2 := by
      simp only [Hunt.cost, Hunt.start, List.map_cons, List.map_nil, List.sum_cons, List.sum_nil,
        Searcher.cost]
      omega
    refine ⟨by omega, fun i found => sound.of_get_eq_some small found, fun n' later rest => ?_,
      fun done => ⟨sound.get_eq_none_iff done, fun i above below hit only => ?_⟩⟩
    · exact (rest.sound small sound).2.1
    · cases found : now.cell.get with
      | none =>
        rw [(sound.get_eq_none_iff done).mp found i above below] at hit
        cases hit
      | some j =>
        obtain ⟨above', below', hit'⟩ := sound.of_get_eq_some small found
        rw [only j above' below' hit']
  · obtain ⟨n, run⟩ :=
      Hunt.Reaches.of_searchRange t accepts .empty [] lo hi
    exact ⟨n, _, run, rfl, (findAny_id t accepts lo hi).symm⟩

/-- Two matches. The right half stores the second one before the left half is looked at with an old
view of the cell, so that the first one comes too late. A single worker finds the first one. -/
theorem searchers_interleave_race :
    let t : Threshold := ⟨2, Nat.two_pos⟩
    let accepts : Nat → Bool := fun i => i == 1 || i == 2
    (∀ n now, Hunt.Reaches t accepts n (.start 0 4) now → now.left = [] →
      now.cell.get = some 1 ∨ now.cell.get = some 2) ∧
    (∃ n now, Hunt.Reaches t accepts n (.start 0 4) now ∧ now.left = [] ∧
      now.cell.get = some 2) ∧
    (findAny (m := Id) t accepts 0 4).run = some 1 := by
  intro t accepts
  have small : 4 ≤ maxSize := by decide
  refine ⟨fun n now run done => ?_, ?_, by decide +kernel⟩
  · obtain ⟨-, found, -, none⟩ := (searchers_interleave t accepts small).1 n now run
    cases at_cell : now.cell.get with
    | none =>
      have miss := (none done).1.mp at_cell 1 (by decide) (by decide)
      cases miss
    | some i =>
      obtain ⟨-, -, hit⟩ := found i at_cell
      simpa [accepts] using hit
  · have start : Hunt.Reaches t accepts 0 (.start 0 4) (.start 0 4) := .refl _
    have fork := start.step (p := 0) (by decide) false
    have stored := ((fork.step (p := 1) (by decide) false).step (p := 1) (by decide) false).step
      (p := 1) (by decide) false
    have late := ((stored.step (p := 0) (by decide) true).step (p := 0) (by decide) false).step
      (p := 0) (by decide) false
    exact ⟨_, _, late.step (p := 0) (by decide) false, by decide, by decide⟩

end Bisection
