import Bisection.Proofs.Alone.Elements
import Bisection.Proofs.Alone.Searching
import Bisection.Proofs.Alone.Selecting
import Bisection.Proofs.Alone.Tables
import Bisection.Window.Extremes
import Bisection.Window.Queries
import Bisection.Window.Subsets

/-!
# Operations that find indices

Searches, summaries, selections and removals look at the elements of an array by their indices. On
a window they look at the same elements as on its elements alone, in the same order, at indices that
are greater by where the window starts. None of them looks outside of the window.
-/

namespace Bisection
set_option autoImplicit false

open Likeness

/-! ## Summaries -/

/-- The same element further on. -/
def Located.moved {α : Type} (d : Nat) (x : Located α) : Located α := ⟨d + x.index, x.elem⟩

/-- The same extremes further on. -/
def Extremes.moved {α : Type} (d : Nat) (x : Extremes α) : Extremes α :=
  ⟨x.least.moved d, x.greatest.moved d⟩

/-- The same summary further on. -/
def Summary.moved {α : Type} (d : Nat) (s : Summary α) : Summary α :=
  { s with minIndex := s.minIndex.map (d + ·), maxIndex := s.maxIndex.map (d + ·) }

namespace Extremes
variable {α : Type} {m m' : Type → Type} [Monad m] [LawfulMonad m] [Monad m'] [LawfulMonad m']
  {ρ : Likeness m m'} {cmp : α → α → m Ordering} {cmp' : α → α → m' Ordering} {d : Nat}
  (same : ∀ x y, ρ.Same (cmp x y) (cmp' x y))
include same

/-- The lesser of two elements further on is the lesser of both, further on. -/
theorem rel_lesser (x y : Located α) :
    ρ.Rel (fun a b => a = b.moved d) (lesser cmp (x.moved d) (y.moved d)) (lesser cmp' x y) := by
  refine (same y.elem x.elem).bind_same fun o => ?_
  cases o <;> exact ρ.pure rfl

theorem rel_greater (x y : Located α) :
    ρ.Rel (fun a b => a = b.moved d) (greater cmp (x.moved d) (y.moved d)) (greater cmp' x y) := by
  refine (same y.elem x.elem).bind_same fun o => ?_
  cases o <;> exact ρ.pure rfl

/-- The extremes of two parts that stand next to each other. -/
theorem rel_join (x y : Option (Extremes α)) :
    ρ.Rel (fun a b => a = b.map (moved d)) (join cmp (x.map (moved d)) (y.map (moved d)))
      (join cmp' x y) := by
  cases x with
  | none => cases y <;> exact ρ.pure rfl
  | some x =>
    cases y with
    | none => exact ρ.pure rfl
    | some y =>
      refine Rel.map (R := fun a b => a = b.moved d) ?_ fun a b eq => congrArg some eq
      refine ρ.bind (rel_lesser same x.least y.least) fun least _ eq => ?_
      refine ρ.bind (rel_greater same x.greatest y.greatest) fun greatest _ eq' => ρ.pure ?_
      rw [eq, eq']
      rfl

/-- The extremes of a leaf, which are those of its elements one after the other. -/
theorem rel_leaf (s : Store α) (lo : Nat) :
    ρ.Rel (fun a b => a = b.map (moved d)) (leaf cmp s (d + lo)) (leaf cmp' s lo) := by
  refine ρ.bind (ρ.foldStore (fun _ p q => p.1 = q.1.map (moved d) ∧ p.2 = d + q.2)
    ?_ s ⟨rfl, rfl⟩) fun p q related => ρ.pure related.1
  rintro _ ⟨found, i⟩ ⟨found', i'⟩ x ⟨eq, at_x⟩
  dsimp only at eq at_x
  subst eq at_x
  exact ρ.bind (rel_join same found' (some (one i' x))) fun a b eq => ρ.pure ⟨eq, rfl⟩

end Extremes

namespace Window

section
variable {ε ε' α : Type} {m m' : Type → Type} [Monad m] [LawfulMonad m] [Fork ε m] [Reports m]
  [Monad m'] [LawfulMonad m'] [Fork ε' m'] [Reports m'] {w : Window α} {T : Tracking w.lo m m'}

/-- A summary tells the same extremes, at greater indices. -/
theorem tracks_summaryBy {cmp : α → α → m Ordering} {cmp' : α → α → m' Ordering}
    (same : ∀ x y, T.Same (cmp x y) (cmp' x y)) :
    T.Rel (fun s s' => s = s'.moved w.lo) (w.summaryBy cmp) (w.alone.whole.summaryBy cmp') := by
  rw [summaryBy, summaryBy, size_alone, part_alone]
  refine (same_begin T w _ _).bind_same fun t => ?_
  refine T.bind (R := fun a b => a = b.map (Extremes.moved w.lo)) ?_ fun found found' eq => ?_
  · refine T.forkPieces (R := fun _ (a b : Option (Extremes α)) => a = b.map (.moved w.lo)) ?_ ?_
      w.part
    · exact fun s lo => Extremes.rel_leaf same s lo
    · rintro _ _ _ _ x y rfl rfl
      exact Extremes.rel_join same x y
  · subst eq
    cases found' <;> exact T.pure rfl

/-- Copies of one element are summarized without a look at each, on both sides or on neither. -/
theorem tracks_summary [Ord α] :
    T.Rel (fun s s' => s = s'.moved w.lo) w.summary w.alone.whole.summary := by
  rw [summary, summary, part_alone]
  cases w.part.uniform? with
  | some x =>
    dsimp only
    rw [size_alone]
    exact (same_begin T w _ _).bind_same fun _ => T.pure rfl
  | none => exact tracks_summaryBy fun _ _ => .pure _

/-! ## Searches -/

/-- Asking for the element at an index of the window. -/
theorem same_holdsAt {p : α → m Bool} {q : α → m' Bool} (same : ∀ x, T.Same (p x) (q x)) {i : Nat}
    (inside : i < w.size) :
    T.Rel Eq (w.holdsAt p (w.lo + i)) (w.alone.whole.holdsAt q i) := by
  rw [holdsAt, holdsAt, ← w.get?_alone inside]
  cases w.get? (w.lo + i) with
  | none => exact T.pure rfl
  | some x => exact same x

variable (fits : w.hi ≤ maxSize)
include fits

/-- A search finds the same element, at an index of its own side. -/
theorem tracks_anyIndex {p : α → m Bool} {q : α → m' Bool} (same : ∀ x, T.Same (p x) (q x)) :
    T.Rel (fun i j => i = j.map (w.lo + ·)) (w.anyIndex p) (w.alone.whole.anyIndex q) := by
  rw [← w.lo_add_size] at fits
  rw [anyIndex, anyIndex, size_alone, ← w.lo_add_size]
  refine (same_begin T w _ _).bind_same fun t => ?_
  show T.Rel _ (findAny t (w.holdsAt p) (w.lo + 0) _)
    (findAny t (w.alone.whole.holdsAt q) 0 w.alone.whole.size)
  rw [size_alone]
  exact T.findAny fits fun i _ below => same_holdsAt same below

theorem tracks_indexOf [BEq α] {target : α} :
    T.Rel (fun i j => i = j.map (w.lo + ·)) (w.indexOf target)
      (w.alone.whole.indexOf target) :=
  tracks_anyIndex fits fun _ => .pure _

/-- Whether there is a match does not tell where it is. -/
theorem tracks_any {p : α → m Bool} {q : α → m' Bool} (same : ∀ x, T.Same (p x) (q x)) :
    T.Rel Eq (w.any p) (w.alone.whole.any q) := by
  refine (tracks_anyIndex fits same).map fun i j eq => ?_
  rw [eq, Option.isSome_map]

theorem tracks_all {p : α → m Bool} {q : α → m' Bool} (same : ∀ x, T.Same (p x) (q x)) :
    T.Rel Eq (w.all p) (w.alone.whole.all q) := by
  refine (tracks_anyIndex fits fun x => (same x).map not).map fun i j eq => ?_
  rw [eq, Option.isNone_map]

/-- The first element of a window is compared with none, whatever is before it in the array. -/
theorem tracks_isSortedBy {cmp : α → α → m Ordering} {cmp' : α → α → m' Ordering}
    (same : ∀ x y, T.Same (cmp x y) (cmp' x y)) :
    T.Rel Eq (w.isSortedBy cmp) (w.alone.whole.isSortedBy cmp') := by
  rw [← w.lo_add_size] at fits
  rw [isSortedBy, isSortedBy, size_alone, ← w.lo_add_size]
  split
  · exact T.pure rfl
  · refine (same_begin T w _ _).bind_same fun t => ?_
    refine T.bind (R := fun i j => i = j.map (w.lo + ·)) ?_ fun i j eq => T.pure ?_
    · show T.Rel _ _ (findAny t _ (0 + 1) w.alone.whole.size)
      rw [size_alone]
      refine T.findAny fits fun i above below => ?_
      have before : w.lo + i - 1 = w.lo + (i - 1) := by omega
      rw [before, w.get?_alone below, w.get?_alone (i := i - 1) (by omega)]
      cases w.alone.whole.get? (i - 1) with
      | none => exact T.pure rfl
      | some x =>
        cases w.alone.whole.get? i with
        | none => exact T.pure rfl
        | some y => exact (same x y).map _
    · rw [eq, Option.isNone_map]

/-- Copies of one element are in order on both sides, without a look at each. -/
theorem tracks_isSorted [Ord α] : T.Rel Eq w.isSorted w.alone.whole.isSorted := by
  rw [isSorted, isSorted, part_alone]
  cases w.part.uniform? with
  | some x =>
    dsimp only
    rw [size_alone]
    split
    · exact (same_begin T w _ _).bind_same fun _ => T.pure rfl
    · exact T.pure rfl
  | none => exact tracks_isSortedBy fits fun _ _ => .pure _

end

/-! ## Selections -/

section
variable {ε ε' α : Type} {m m' : Type → Type} [Monad m] [LawfulMonad m] [Fork ε m] [Reports m]
  [Monad m'] [LawfulMonad m'] [Fork ε' m'] [Reports m'] {w : Window α} {T : Tracking w.lo m m'}

/-- The elements of selected indices are the same further on. -/
theorem fetchAll_alone {s s' : Selection} (follows : s.Follows w.lo w.size s') :
    s.fetchAll w.get? = s'.fetchAll w.alone.whole.get? := by
  rw [follows.1]
  exact s'.fetchAll_moved fun i mem => w.get?_alone (follows.2 i mem)

/-- A tree of selected indices has the same indices further on. -/
theorem tracks_build {t : Threshold} {selected : Nat → m Bool} {selected' : Nat → m' Bool}
    (ask : ∀ i, i < w.size → T.Rel Eq (selected (w.lo + i)) (selected' i)) :
    T.Rel (Selection.Follows w.lo w.size) (Selection.build t selected w.lo w.size)
      (Selection.build t selected' 0 w.size) := by
  have build : T.Rel (Selection.Follows w.lo (0 + w.size))
      (Selection.build t selected (w.lo + 0) w.size) (Selection.build t selected' 0 w.size) :=
    T.build fun i _ below => ask i (by omega)
  rwa [Nat.zero_add] at build

variable [RoomFailure ε] [RoomFailure ε']

section
variable [Cell α] (lacking : T.expected RoomFailure.noRoom RoomFailure.noRoom)
include lacking

/-- The same elements are selected, though their indices are greater. -/
theorem tracks_selected {p : α → m Bool} {q : α → m' Bool} (same : ∀ x, T.Same (p x) (q x))
    (before : Nat) : T.Rel Eq (w.selected p before) (w.alone.whole.selected q before) := by
  rw [selected, selected, size_alone]
  refine (same_begin T w _ _).bind_same fun t => T.rel_claimRoom (fun _ => lacking) fun _ => ?_
  refine T.bind (tracks_build fun i inside => same_holdsAt same inside) fun s s' follows => ?_
  have note := T.note (.selected s'.size 0 w.alone.whole.size)
  rw [Notice.moved, size_alone, lo_add_size] at note
  rw [follows.1, Selection.size_moved, ← follows.1, fetchAll_alone follows]
  rw [hi_alone]
  exact note.bind_same fun _ => T.rel_claimRoom (fun _ => lacking) fun _ => T.pure rfl

/-- The new array is the same: it does not tell where its elements were. -/
theorem tracks_select {p : α → m Bool} {q : α → m' Bool} (same : ∀ x, T.Same (p x) (q x)) :
    T.Rel Eq (w.select p) (w.alone.whole.select q) :=
  (tracks_selected lacking same 0).map fun _ _ eq => congrArg w.array.derive eq

/-- The destination gets the same elements. -/
theorem tracks_appendSelected {p : α → m Bool} {q : α → m' Bool} {dest : Store α}
    (same : ∀ x, T.Same (p x) (q x)) :
    T.Rel Eq (w.appendSelected p dest) (w.alone.whole.appendSelected q dest) :=
  (tracks_selected lacking same dest.size).map fun _ _ eq => congrArg dest.append eq

end

section
variable (lacking : hasRoom w.size indexBytes = false →
  T.expected RoomFailure.noRoom RoomFailure.noRoom)
include lacking

/-- The kept elements move to the front of the window, as they do alone. -/
theorem tracks_keepIndices {action : Action} {keep : Nat → m Bool} {keep' : Nat → m' Bool}
    (ask : ∀ i, i < w.size → T.Rel Eq (keep (w.lo + i)) (keep' i)) :
    T.Rel w.Left (w.keepIndices action keep) (w.alone.whole.keepIndices action keep') := by
  rw [keepIndices, keepIndices, size_alone]
  refine (same_begin T w _ _).bind_same fun t => T.rel_claimRoom lacking fun _ => ?_
  refine T.bind (tracks_build ask) fun s s' ⟨moved, _⟩ => ?_
  have elems : w.alone.whole.elems = w.elems := congrArg Store.toArray w.part_alone
  rw [moved, Selection.size_moved, Selection.compact_moved, elems]
  refine (T.note (.keeping action s'.size w.size)).bind_same fun _ =>
    T.pure ⟨s'.compact 0 w.elems, ?_, rfl, rfl⟩
  refine Nat.le_trans (s'.size_compact_le 0 w.elems) (Nat.le_of_eq ?_)
  rw [Window.elems, Store.size_toArray]
  exact w.size_part

theorem tracks_removeAll {p : α → m Bool} {q : α → m' Bool} (same : ∀ x, T.Same (p x) (q x)) :
    T.Rel w.Left (w.removeAll p) (w.alone.whole.removeAll q) :=
  tracks_keepIndices lacking fun _ inside => same_holdsAt (fun x => (same x).map not) inside

theorem tracks_retain {p : α → m Bool} {q : α → m' Bool} (same : ∀ x, T.Same (p x) (q x)) :
    T.Rel w.Left (w.retain p) (w.alone.whole.retain q) :=
  tracks_keepIndices lacking fun _ inside => same_holdsAt same inside

/-- The first element of a window is kept, whatever is before it in the array. -/
theorem tracks_removeConsecutiveDuplicates [BEq α] :
    T.Rel w.Left w.removeConsecutiveDuplicates w.alone.whole.removeConsecutiveDuplicates := by
  refine tracks_keepIndices lacking fun i inside => T.pure ?_
  show (w.lo + i == w.lo || _) = (i == 0 || _)
  cases i with
  | zero => simp
  | succ i =>
    have first : (w.lo + (i + 1) == w.lo) = (i + 1 == 0) := by simp
    have before : w.lo + (i + 1) - 1 = w.lo + i := by omega
    rw [first, before, w.get?_alone inside, w.get?_alone (i := i) (by omega), Nat.add_sub_cancel]

end

end

/-! ## Distinct elements -/

section
variable {α : Type} {w : Window α} (same : α → α → Bool) (hash : α → UInt64)

end

section
variable {ε ε' α : Type} {m m' : Type → Type} [Monad m] [LawfulMonad m] [Fork ε m] [Reports m]
  [Monad m'] [LawfulMonad m'] [Fork ε' m'] [Reports m'] {w : Window α} {T : Tracking w.lo m m'}

end

end Window

end Bisection
