import Bisection.Proofs.Alone.Tracking
import Bisection.Selection

/-!
# Selecting further on

A selection among indices that are greater by `d` has the same shape, and the same elements end up
in the same places.
-/

namespace Bisection
set_option autoImplicit false

namespace Selection

/-- The selection with all indices greater by `d`. -/
def moved (d : Nat) : Selection → Selection
  | leaf indices => leaf (indices.map (d + ·))
  | node n left right => node n (left.moved d) (right.moved d)

variable {α β : Type} {d : Nat}

@[simp] theorem size_moved (d : Nat) (s : Selection) : (s.moved d).size = s.size := by
  cases s with
  | leaf indices => exact List.length_map _
  | node n left right => rfl

@[simp] theorem toList_moved (d : Nat) (s : Selection) :
    (s.moved d).toList = s.toList.map (d + ·) := by
  induction s with
  | leaf indices => rfl
  | node n left right ihl ihr => rw [moved, toList, toList, ihl, ihr, List.map_append]

section
variable {m : Type → Type} [Monad m] [LawfulMonad m] [Fork Mismatch m]

/-- Indices that are greater by `d` are written for in the same slots. -/
theorem place_moved (d : Nat) (write : Nat → Nat → m Unit) (s : Selection) (dest : Span) :
    (s.moved d).place write dest = s.place (fun slot i => write slot (d + i)) dest := by
  induction s generalizing dest with
  | leaf indices =>
    rw [moved, place, place, size, size, List.length_map, List.zip_map_right, List.forM_map]
    rfl
  | node n left right ihl ihr =>
    rw [moved, place, place, size, size, size_moved]
    simp only [ihl, ihr]

omit [LawfulMonad m] [Fork Mismatch m] in
theorem forM_congr {γ : Type} {xs : List γ} {f g : γ → m Unit} (same : ∀ x ∈ xs, f x = g x) :
    forM xs f = forM xs g := by
  induction xs with
  | nil => rfl
  | cons x xs ih =>
    rw [List.forM_cons, List.forM_cons, same x List.mem_cons_self,
      ih fun y mem => same y (List.mem_cons_of_mem x mem)]

omit [LawfulMonad m] in
/-- What is written depends on the selected indices only. -/
theorem place_congr {write write' : Nat → Nat → m Unit} {s : Selection}
    (same : ∀ i ∈ s.toList, ∀ slot, write slot i = write' slot i) (dest : Span) :
    s.place write dest = s.place write' dest := by
  induction s generalizing dest with
  | leaf indices =>
    have writes : forM ((List.range' dest.lo dest.size).zip indices) (fun p => write p.1 p.2) =
        forM ((List.range' dest.lo dest.size).zip indices) fun p => write' p.1 p.2 :=
      forM_congr fun p mem => same p.2 (List.of_mem_zip mem).2 p.1
    rw [place, place]
    exact congrArg (fun x => if dest.size = indices.length then x else _) writes
  | node n left right ihl ihr =>
    have inLeft := ihl fun i mem => same i (List.mem_append_left _ mem)
    have inRight := ihr fun i mem => same i (List.mem_append_right _ mem)
    rw [place, place]
    simp only [inLeft, inRight]

end

/-- The elements of the selected indices are the same further on. -/
theorem fetchAll_moved (s : Selection) {fetch fetch' : Nat → Option β}
    (same : ∀ i ∈ s.toList, fetch (d + i) = fetch' i) :
    (s.moved d).fetchAll fetch = s.fetchAll fetch' := by
  rw [fetchAll, fetchAll, place_moved, size_moved]
  rw [place_congr fun i mem slot => by rw [same i mem]]

theorem swapForward_moved (d : Nat) (indices : List Nat) (next : Nat) (xs : Array α) :
    swapForward d (indices.map (d + ·)) next xs = swapForward 0 indices next xs := by
  induction indices generalizing next xs with
  | nil => rfl
  | cons i indices ih =>
    rw [List.map_cons, swapForward, swapForward, ih, Nat.add_sub_cancel_left, Nat.sub_zero]

/-- What is kept of the elements is the same further on. -/
theorem compact_moved (s : Selection) (xs : Array α) :
    (s.moved d).compact d xs = s.compact 0 xs := by
  rw [compact, compact, toList_moved, swapForward_moved]

theorem size_compact_le (s : Selection) (lo : Nat) (xs : Array α) :
    (s.compact lo xs).size ≤ xs.size := by
  have swaps (indices : List Nat) (next : Nat) (xs : Array α) :
      (swapForward lo indices next xs).1.size = xs.size := by
    induction indices generalizing next xs with
    | nil => rfl
    | cons i indices ih => rw [swapForward, ih, Array.size_swapIfInBounds]
  rw [compact]
  simp only [Array.size_extract, swaps]
  omega

section
variable {ε : Type} {m : Type → Type} [Monad m] [Fork ε m] {t : Threshold} {n : Nat}

theorem build_of_le (selected : Nat → m Bool) (lo : Nat) (h : n ≤ t.val) :
    build t selected lo n = leaf <$> Selection.collect selected lo n [] := by
  rw [build, dif_pos h]

theorem build_of_lt (selected : Nat → m Bool) (lo : Nat) (h : ¬ n ≤ t.val) :
    build t selected lo n =
      Fork.join (build t selected lo (n / 2)) (build t selected (lo + n / 2) (n - n / 2)) >>=
        fun p => pure (node (p.1.size + p.2.size) p.1 p.2) := by
  rw [build, dif_neg h]

end

/-- The second selection is made of indices below `n`, the first one of those `d` places further
on. -/
def Follows (d n : Nat) (s s' : Selection) : Prop := s = s'.moved d ∧ ∀ i ∈ s'.toList, i < n

end Selection

namespace Tracking
variable {ε ε' : Type} {m m' : Type → Type} [Monad m] [LawfulMonad m] [Fork ε m] [Reports m]
  [Monad m'] [LawfulMonad m'] [Fork ε' m'] [Reports m'] {d : Nat} {T : Tracking d m m'}
  {selected : Nat → m Bool} {selected' : Nat → m' Bool}

theorem collect {lo n : Nat} {found : List Nat} (before : ∀ i ∈ found, i < lo)
    (ask : ∀ i, lo ≤ i → i < lo + n → T.Rel Eq (selected (d + i)) (selected' i)) :
    T.Rel (fun indices indices' => indices = indices'.map (d + ·) ∧ ∀ i ∈ indices', i < lo + n)
      (Selection.collect selected (d + lo) n (found.map (d + ·)))
      (Selection.collect selected' lo n found) := by
  induction n generalizing lo found with
  | zero =>
    refine T.pure ⟨(List.map_reverse).symm, fun i mem => before i (List.mem_reverse.mp mem)⟩
  | succ n ih =>
    have next : lo + 1 + n = lo + (n + 1) := by omega
    have later : ∀ i ∈ found, i < lo + 1 := fun i mem => Nat.lt_succ_of_lt (before i mem)
    have rest {found : List Nat} (before : ∀ i ∈ found, i < lo + 1) :=
      @ih (lo + 1) found before fun i above below => ask i (by omega) (by omega)
    rw [next] at rest
    refine (ask lo (Nat.le_refl lo) (by omega)).bind_same fun hit => ?_
    cases hit with
    | true =>
      exact rest (List.forall_mem_cons.mpr ⟨Nat.lt_succ_self lo, later⟩)
    | false => exact rest later

/-- A selection is bisected in the same way, and selects the same indices further on. -/
theorem build {t : Threshold} {lo n : Nat}
    (ask : ∀ i, lo ≤ i → i < lo + n → T.Rel Eq (selected (d + i)) (selected' i)) :
    T.Rel (Selection.Follows d (lo + n)) (Selection.build t selected (d + lo) n)
      (Selection.build t selected' lo n) := by
  induction n using Nat.strongRecOn generalizing lo with
  | ind n ih =>
    by_cases short : n ≤ t.val
    · rw [Selection.build_of_le _ _ short, Selection.build_of_le _ _ short]
      have leaf : T.Rel _ (Selection.collect selected (d + lo) n ([].map (d + ·)))
        (Selection.collect selected' lo n []) := collect nofun ask
      refine leaf.map fun indices indices' related => ?_
      exact ⟨congrArg Selection.leaf related.1, related.2⟩
    · have two := Threshold.two_le short
      have left := ih (n / 2) (by omega) fun i above below => ask i above (by omega)
      have right := @ih (n - n / 2) (by omega) (lo + n / 2) fun i above below =>
        ask i (by omega) (by omega)
      rw [← Nat.add_assoc] at right
      rw [Selection.build_of_lt _ _ short, Selection.build_of_lt _ _ short]
      refine T.bind (T.join left right) fun p q
        ⟨⟨movedLeft, insideLeft⟩, movedRight, insideRight⟩ => T.pure ⟨?_, fun i mem => ?_⟩
      · rw [movedLeft, movedRight, Selection.size_moved, Selection.size_moved]
        rfl
      · rcases List.mem_append.mp mem with mem | mem
        · exact Nat.lt_of_lt_of_le (insideLeft i mem) (by omega)
        · exact Nat.lt_of_lt_of_le (insideRight i mem) (by omega)

end Tracking

end Bisection
