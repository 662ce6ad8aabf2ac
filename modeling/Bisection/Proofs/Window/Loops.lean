import Bisection.Proofs.Pieces.Loops
import Bisection.Proofs.Window.Totals
import Bisection.Window.Subsets

/-!
# Operations on a window as plain loops

Over computations that report nothing and run the halves of a fork one after the other, what an
operation calls, and what it makes of the results, is what a loop over the elements of the window
does, from left to right.
-/

namespace Bisection.Window
set_option autoImplicit false

section
variable {α : Type} (w : Window α)

theorem exists_get? {i : Nat} (below : i < w.hi) : ∃ x, w.get? i = some x :=
  w.array.store.exists_get? (Nat.lt_of_lt_of_le below w.hi_le_size)

/-- The elements at the indices of a window are those in it. -/
theorem map_get?_range : (List.range' w.lo w.size).map w.get? = (w.upTo w.hi).map some := by
  refine List.ext_getElem? fun k => ?_
  rw [List.getElem?_map, List.getElem?_map, upTo, List.getElem?_drop, List.getElem?_take]
  by_cases inside : k < w.size
  · have below : w.lo + k < w.hi := Nat.add_lt_of_lt_sub' inside
    obtain ⟨x, at_k⟩ := w.exists_get? below
    have elem : w.array.toList[w.lo + k]? = some x := by
      rw [← at_k]
      exact w.array.store.getElem?_toList _
    rw [List.getElem?_range' inside, if_pos below, elem, Nat.one_mul]
    exact congrArg some at_k
  · have above : ¬ w.lo + k < w.hi := fun lt => inside (Nat.lt_sub_iff_add_lt'.mpr lt)
    rw [if_neg above, List.getElem?_eq_none (by simpa using Nat.le_of_not_lt inside)]
    rfl

/-- A function of what is at the indices of a window is a function of the elements in it. -/
theorem map_range {γ : Type} (f : Option α → γ) :
    (List.range' w.lo w.size).map (fun i => f (w.get? i)) =
      (w.upTo w.hi).map fun x => f (some x) := by
  have all := congrArg (List.map f) w.map_get?_range
  rwa [List.map_map, List.map_map] at all

end

section
variable {ε α β : Type} {m : Type → Type} [Monad m] [LawfulMonad m] [Fork ε m] [SequentialFork m]
  [Reports m] (silent : ∀ n, Reports.note n = (pure () : m Unit)) (w : Window α)
include silent

omit [Fork ε m] [SequentialFork m] in
/-- An operation that reports nothing starts with its threshold. -/
theorem begin_silent (action : Action) (n : Nat) :
    (w.begin action n : m Threshold) = pure (w.array.leafThreshold n) := by
  rw [begin, silent, pure_bind]

/-- The leaves of a bisection are visited like the elements of one list. -/
theorem forEach_loop (f : α → m Unit) : w.forEach f = inTurn ((w.upTo w.hi).map f) := by
  rw [forEach, begin_silent silent, pure_bind, forkPieces_forM, toList_part]

/-- The replaced elements are those of one loop over the window. -/
theorem replaceWith_loop (f : α → m α) :
    w.replaceWith f = (fun ys => w.refill ys.toArray) <$> (w.upTo w.hi).mapM f := by
  rw [replaceWith, begin_silent silent, pure_bind, collectLeaves_mapM, toList_part]
  exact (comp_map _ _ _).symm

/-- The function is asked for the indices of the array, from where the window starts. -/
theorem replaceWithIndex_loop (f : Nat → m α) :
    w.replaceWithIndex f =
      (fun ys => w.refill ys.toArray) <$> (List.range' w.lo w.size).mapM f := by
  rw [replaceWithIndex, begin_silent silent, pure_bind, collectLeaves_mapIndicesM, w.size_part]
  exact (comp_map _ _ _).symm

/-- The elements behind those that are needed of a longer operand are left out. -/
theorem replaceWithCombined_loop {other : Store β} (enough : w.size ≤ other.size)
    (f : α → β → m α) :
    w.replaceWithCombined other f = (fun ys => .ok (w.refill ys.toArray)) <$>
      ((w.upTo w.hi).zip other.toList).mapM fun p => f p.1 p.2 := by
  have pairs : (w.upTo w.hi).zip (other.slice 0 w.size).toList =
      (w.upTo w.hi).zip other.toList := by
    have few : (w.upTo w.hi).length ≤ other.toList.length := by
      rwa [length_upTo, Store.length_toList]
    have cut : (w.upTo w.hi).zip other.toList = _ := List.zip_eq_zip_take_min
    rw [Nat.min_eq_left few, List.take_length, length_upTo] at cut
    rw [Store.toList_slice, List.drop_zero, cut]
  have loop := collectLeaves_zipWithM (t := w.array.leafThreshold w.size) f w.part
    (other.slice 0 w.size) w.lo
  rw [toList_part, pairs] at loop
  rw [replaceWithCombined, if_neg (Nat.not_lt.mpr enough), begin_silent silent, pure_bind]
  dsimp only
  rw [loop]
  simp

omit silent [Reports m] in
/-- The slots of the new array are those from zero on. -/
theorem transfers_loop (t : Threshold) (f : α → m β) : w.transfers t f =
    (fun ys => ((List.range w.size).zip ys).toArray) <$> (w.upTo w.hi).mapM f := by
  have fits : Span.size ⟨0, w.size⟩ = w.part.size := w.size_part.symm
  rw [transfers, List.range_eq_range', ← toList_part]
  exact collectLeaves_transferM f fits w.lo

/-- The room of the new array is claimed before the first call. -/
theorem map_loop [RoomFailure ε] [Cell β] (f : α → m β) : w.map f = (do
    claimRoom w.size (Cell.bytes β)
    (fun ys => w.array.derive ys.toArray) <$> (w.upTo w.hi).mapM f) := by
  rw [map, begin_silent silent, pure_bind]
  refine bind_congr fun _ => ?_
  rw [transfers_loop, ← map_eq_pure_bind, Functor.map_map]
  refine map_mapM_congr f fun ys length => ?_
  rw [length_upTo] at length
  rw [filled_range length]

/-! ## Selections -/

omit [LawfulMonad m] [Fork ε m] [SequentialFork m] [Reports m] silent in
/-- Asking about the elements at the indices of a window is asking about those in it. -/
theorem holdsAt_eq (p : α → m Bool) (i : Nat) :
    w.holdsAt p i = (w.get? i).elim (pure false) p := by
  unfold holdsAt
  cases w.get? i <;> rfl

omit silent [Reports m] in
/-- A selection finds as many elements as a plain loop over them. -/
theorem size_build (t : Threshold) (p : α → m Bool) :
    Selection.size <$> Selection.build t (w.holdsAt p) w.lo w.size =
      List.length <$> chosen p (w.upTo w.hi) := by
  have counts := congrArg (Prod.snd <$> ·) (counts_build (t := t) (w.holdsAt p) w.lo w.size)
  simp only [Functor.map_map] at counts
  rw [counts, funext (w.holdsAt_eq p), length_chosen_map w.get? (·.elim (pure false) p),
    map_get?_range, ← length_chosen_map]
  rfl

omit silent [Reports m] in
/-- A tree of selected indices asks about the elements from left to right. -/
theorem ending_build (t : Threshold) (p : α → m Bool) :
    ending (Selection.build t (w.holdsAt p) w.lo w.size) =
      inTurn ((w.upTo w.hi).map fun x => ending (p x)) := by
  rw [← ending_map Selection.toList, toList_build, ending_chosen]
  have loop := w.map_range fun x? => ending (x?.elim (pure false) p)
  simp only [← holdsAt_eq] at loop
  exact congrArg inTurn loop

variable [RoomFailure ε]

/-- What a selection claims behind `before` elements depends on how many it finds. -/
theorem ending_selected [Cell α] (p : α → m Bool) (before : Nat) :
    ending (w.selected p before) = (do
      claimRoom w.size indexBytes
      let n ← List.length <$> chosen p (w.upTo w.hi)
      claimRoom (before + n) (Cell.bytes α)) := by
  rw [selected, begin_silent silent, pure_bind, ending_bind]
  refine bind_congr fun _ => ?_
  simp only [silent, pure_bind]
  rw [← w.size_build (w.array.leafThreshold w.size), ending_bind, bind_map_left]
  exact bind_congr fun s => (ending_bind_pure _ _).trans (ending_unit _)

/-- The room of the table of indices is claimed before the first call. -/
theorem ending_keepIndices (action : Action) (p : α → m Bool) :
    ending (w.keepIndices action (w.holdsAt p)) = (do
      claimRoom w.size indexBytes
      inTurn ((w.upTo w.hi).map fun x => ending (p x))) := by
  rw [keepIndices, begin_silent silent, pure_bind, ending_bind,
    ← w.ending_build (w.array.leafThreshold w.size)]
  simp only [silent, pure_bind]
  exact bind_congr fun _ => ending_bind_pure _ _

end

/-! ## Without room -/

/-- So many units that there is no room for a table of their indices. -/
def countless : Window Unit :=
  (⟨.single, none, .copies (fun _ _ => rfl) () (2 ^ 60)⟩ : BulkArray Unit).whole

/-- Each index takes eight bytes. -/
theorem countless_short : hasRoom countless.size indexBytes = false := by decide

section
variable {ε α β : Type} {m : Type → Type} [Monad m] [LawfulMonad m] [Fork ε m] [LawfulRaise ε m]
  [Reports m] [RoomFailure ε] (silent : ∀ n, Reports.note n = (pure () : m Unit)) (w : Window α)
include silent

/-- Without room for its array a map fails before any call. -/
theorem map_of_no_room [Cell β] (short : hasRoom w.size (Cell.bytes β) = false) (f : α → m β) :
    w.map f = Fork.raise RoomFailure.noRoom := by
  rw [map, begin_silent silent, pure_bind, claimRoom_bind_of_no_room short]

variable (short : hasRoom w.size indexBytes = false)
include short

/-- Without room for its table a selection fails before any call. -/
theorem selected_of_no_room [Cell α] (p : α → m Bool) (before : Nat) :
    w.selected p before = Fork.raise RoomFailure.noRoom := by
  rw [selected, begin_silent silent, pure_bind, claimRoom_bind_of_no_room short]

theorem select_of_no_room [Cell α] (p : α → m Bool) :
    w.select p = Fork.raise RoomFailure.noRoom := by
  rw [select, w.selected_of_no_room silent short, map_eq_pure_bind, LawfulRaise.raise_bind]

theorem appendSelected_of_no_room [Cell α] (p : α → m Bool) (dest : Store α) :
    w.appendSelected p dest = Fork.raise RoomFailure.noRoom := by
  rw [appendSelected, w.selected_of_no_room silent short, map_eq_pure_bind,
    LawfulRaise.raise_bind]

/-- Without room for its table a removal fails before any call. -/
theorem keepIndices_of_no_room (action : Action) (keep : Nat → m Bool) :
    w.keepIndices action keep = Fork.raise RoomFailure.noRoom := by
  rw [keepIndices, begin_silent silent, pure_bind, claimRoom_bind_of_no_room short]

end

end Bisection.Window
