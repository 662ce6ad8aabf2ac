import Bisection.Proofs.Window.Selections

/-!
# What a removal leaves in its window

A removal asks about every element before it moves any. Then it visits the indices that are kept in
increasing order, and swaps the element at each into the next place. At every moment the elements
behind the index are where they were, so each index that is still to come finds its own element. In
the end the elements to be kept are in front, and those that are not are behind them, where they
are dropped.
-/

namespace Bisection
set_option autoImplicit false

namespace Window

section
variable {ε α : Type} (w : Window α) (p : α → Bool)

/-- In all orders a removal with room for its table asks once about each element, and keeps those it
is told to. -/
theorem always_keepIndices [RoomFailure ε] (room : hasRoom w.size indexBytes) (action : Action) :
    (w.keepIndices action (w.holdsAt (ask p)) : Concurrent α ε (Window α)).Always fun calls r =>
      calls.Perm (w.upTo w.hi) ∧ r = .ok (w.refill ((w.upTo w.hi).filter p).toArray) := by
  have silent (n : Notice) : Reports.note n = (pure () : Concurrent α ε Unit) := rfl
  rw [keepIndices, begin_silent silent, pure_bind, claimRoom_of_room room, pure_bind]
  refine (w.always_holdsAt p _).then fun calls tree told => ?_
  obtain ⟨perm, -, indices⟩ := told
  rw [silent, pure_bind, w.compact_selected indices, filterMap_get?_filter]
  refine Concurrent.always_ends ⟨?_, rfl⟩
  rwa [List.append_nil]

/-- To remove the elements that do not satisfy `p` is to keep those that do. -/
theorem removeAll_not [RoomFailure ε] :
    (w.removeAll (ask fun x => !p x) : Concurrent α ε (Window α)) =
      w.keepIndices .removeAll (w.holdsAt (ask p)) := by
  have asked (x : α) : not <$> ask (fun x => !p x) x = (ask p x : Concurrent α ε Bool) := by
    rw [ask, Concurrent.map_call, Bool.not_not, ask]
  rw [removeAll, funext asked]

/-! ## Moving the elements that are kept -/

/-- How the elements of a window that satisfy `p` are moved to the front, for a tree of their
indices. -/
structure Compacts (tree : Selection) : Prop where
  /-- When an index is visited, the place for its element is in the window and not behind it, and
  what is behind the indices that were visited before is where it was. -/
  visit : ∀ done i later, tree.toList = done ++ i :: later → ∀ xs next,
    Selection.swapForward w.lo done 0 w.elems = (xs, next) →
    Selection.swapForward w.lo tree.toList 0 w.elems =
      Selection.swapForward w.lo (i :: later) next xs ∧
    w.lo + next ≤ i ∧ i < w.hi ∧
    ∀ j, w.lo ≤ j → j < w.hi → (∀ k ∈ done, k < j) → xs[j - w.lo]? = w.get? j
  /-- In the end the elements that are kept are in front, and those that are not behind them. -/
  parts : ∀ xs next, Selection.swapForward w.lo tree.toList 0 w.elems = (xs, next) →
    xs.toList.take next = (w.upTo w.hi).filter p ∧
    (xs.toList.drop next).Perm ((w.upTo w.hi).filter fun x => !p x)
  /-- The same swaps in the whole array leave what is before the window and behind it. -/
  inPlace : ∀ xs next, Selection.swapForward w.lo tree.toList 0 w.elems = (xs, next) →
    Selection.swapForward 0 tree.toList w.lo w.array.store.toArray =
      ((w.array.toList.take w.lo).toArray ++ xs ++ (w.array.toList.drop w.hi).toArray,
        w.lo + next)

theorem toList_elems : w.elems.toList = w.upTo w.hi := by
  rw [elems, Store.toList_toArray, toList_part]

theorem toArray_around : w.array.store.toArray =
    (w.array.toList.take w.lo).toArray ++ w.elems ++ (w.array.toList.drop w.hi).toArray := by
  apply Array.toList_inj.mp
  rw [Store.toList_toArray, Array.toList_append, Array.toList_append, toList_elems, upTo]
  have front : w.array.toList.take w.lo = (w.array.toList.take w.hi).take w.lo := by
    rw [List.take_take, Nat.min_eq_left w.lo_le_hi]
  rw [front, List.take_append_drop, List.take_append_drop]
  rfl

variable {p} in
/-- A tree of the indices of the elements to keep. -/
theorem compacts {tree : Selection}
    (indices : tree.toList = (List.range' w.lo w.size).filter fun i => (w.get? i).any p) :
    w.Compacts p tree := by
  obtain ⟨increasing, inside⟩ := w.selected_inside fun i => (w.get? i).any p
  rw [← indices] at increasing inside
  constructor
  case visit =>
    intro done i later cut xs next moment
    rw [cut] at increasing inside
    obtain ⟨before, -, first⟩ := List.pairwise_append.mp increasing
    have compacting := Selection.compacting before fun j mem =>
      inside j (List.mem_append_left _ mem)
    rw [moment] at compacting
    have ahead : ∀ k ∈ done, k < i := fun k mem => first k mem i List.mem_cons_self
    obtain ⟨above, below⟩ := inside i (by simp)
    rw [size_elems, w.lo_add_size] at below
    refine ⟨?_, compacting.behind i above ahead, below, fun j above below all => ?_⟩
    · rw [cut, Selection.swapForward_append, moment]
    · exact (compacting.later j above all).trans (w.getElem?_elems above below)
  case parts =>
    intro xs next ends
    have compacting := Selection.compacting increasing inside
    rw [ends] at compacting
    have kept : xs.toList.take next = (w.upTo w.hi).filter p := by
      rw [compacting.front, w.filterMap_elems inside, indices, filterMap_get?_filter]
    refine ⟨kept, ?_⟩
    have perm := compacting.perm
    rw [toList_elems, ← List.take_append_drop next xs.toList, kept] at perm
    apply (List.perm_append_left_iff ((w.upTo w.hi).filter p)).mp
    exact perm.trans (List.filter_append_perm p _).symm
  case inPlace =>
    intro xs next ends
    let before : Array α := (w.array.toList.take w.lo).toArray
    have size : before.size = w.lo := by
      have within : w.hi ≤ w.array.toList.length := Nat.le_trans w.hi_le_size
        (Nat.le_of_eq w.array.store.length_toList.symm)
      rw [List.size_toArray, List.length_take]
      exact Nat.min_eq_left (Nat.le_trans w.lo_le_hi within)
    have room : 0 + tree.toList.length ≤ w.elems.size := by
      rw [Nat.zero_add, indices, size_elems]
      exact (List.length_filter_le _ _).trans (Nat.le_of_eq List.length_range')
    rw [← size] at inside
    let behind : Array α := (w.array.toList.drop w.hi).toArray
    have within := Selection.swapForward_within before behind inside room
    rw [size, ends] at within
    rw [toArray_around]
    exact within

end

/-- With any threshold and any number of workers, a window that retains the elements that satisfy
`p`, or removes those that do not, has these elements in their order, the same that are selected,
and what is before it and behind it in the array stays. With room for the table of its indices it
asks about each element of the window once, before any is moved, and without that about none. The
indices are visited in increasing order, and no element is moved away before it is fetched. -/
theorem retain_compacts {ε α : Type} [RoomFailure ε] [Cell α] (w : Window α) (p : α → Bool) :
    let kept := (w.upTo w.hi).filter p
    let after : Window α := w.refill kept.toArray
    (after.array.toList = w.array.toList.take w.lo ++ kept ++ w.array.toList.drop w.hi ∧
      after.lo = w.lo ∧ after.hi = w.lo + kept.length) ∧
    (hasRoom w.size indexBytes = true →
      (w.retain (m := Except ε) fun x => .ok (p x)) = .ok after ∧
      (w.removeAll (m := Except ε) fun x => .ok (!p x)) = .ok after ∧
      Placed BulkArray.toList [] kept (w.select (m := Except ε) fun x => .ok (p x)) ∧
      (w.retain (ask p) : Concurrent α ε (Window α)).Always (fun calls r =>
        calls.Perm (w.upTo w.hi) ∧ r = .ok after) ∧
      (w.removeAll (ask fun x => !p x) : Concurrent α ε (Window α)).Always fun calls r =>
        calls.Perm (w.upTo w.hi) ∧ r = .ok after) ∧
    (hasRoom w.size indexBytes = false →
      (w.retain (ask p) : Concurrent α ε (Window α)).Always (fun calls r =>
        calls = [] ∧ r = .error RoomFailure.noRoom) ∧
      (w.removeAll (ask fun x => !p x) : Concurrent α ε (Window α)).Always fun calls r =>
        calls = [] ∧ r = .error RoomFailure.noRoom) ∧
    ∀ t, (Selection.build t (fun i => .call i (.ok ((w.get? i).any p))) w.lo w.size :
        Concurrent Nat ε Selection).Always fun asked r =>
      asked.Perm (List.range' w.lo w.size) ∧ ∃ tree, r = .ok tree ∧ w.Compacts p tree ∧
        w.refill (tree.compact w.lo w.elems) = after := by
  intro kept after
  refine ⟨⟨Store.toList_splice .., rfl, rfl⟩, fun room => ⟨?_, ?_, ?_, ?_, ?_⟩,
    fun short => ⟨?_, ?_⟩, fun t => ?_⟩
  · rw [retain_ok, claimRoom_of_room room]
    rfl
  · rw [removeAll_ok, claimRoom_of_room room]
    simp only [Bool.not_not]
    rfl
  · rw [select, selected_ok, claimRoom_of_room room]
    exact placed_of_claim rfl rfl
  · exact w.always_keepIndices p room .retain
  · rw [removeAll_not]
    exact w.always_keepIndices p room .removeAll
  · rw [retain, w.keepIndices_of_no_room (fun _ => rfl) short]
    exact Concurrent.always_ends ⟨rfl, rfl⟩
  · rw [removeAll, w.keepIndices_of_no_room (fun _ => rfl) short]
    exact Concurrent.always_ends ⟨rfl, rfl⟩
  · refine (Concurrent.always_build t _ w.lo w.size).mono fun asked r ends => ?_
    obtain ⟨perm, tree, ok, -, indices⟩ := ends
    refine ⟨perm, tree, ok, w.compacts indices, ?_⟩
    rw [w.compact_selected indices, filterMap_get?_filter]

/-- Of three letters those that are no `b` are retained, between a `b` before the window and one
behind it. -/
theorem retain_compacts_letters :
    let w : Window Char :=
      ⟨⟨default, some ⟨1, Nat.one_pos⟩, .cells #['b', 'a', 'b', 'c', 'b']⟩, 1, 4, by decide,
        by decide⟩
    ∃ after, w.retain (m := Except Abort) (fun x => .ok (x != 'b')) = .ok after ∧
      after.array.toList = ['b', 'a', 'c', 'b'] ∧ after.hi = 3 := by
  intro w
  obtain ⟨⟨elems, -, hi⟩, retains, -⟩ := retain_compacts (ε := Abort) w fun x => x != 'b'
  exact ⟨_, (retains (by decide)).1, elems, hi⟩

/-- So many units have no room for the table of their indices: to remove them all fails, and asks
about none. -/
theorem removeAll_lacks_room :
    let w := countless
    let kept := (w.upTo w.hi).filter fun _ => false
    (w.removeAll (ask fun _ => true) : Concurrent Unit Abort (Window Unit)).Always
      fun calls r => ¬ calls.Perm (w.upTo w.hi) ∧ r ≠ .ok (w.refill kept.toArray) := by
  intro w kept
  rw [removeAll, w.keepIndices_of_no_room (fun _ => rfl) countless_short]
  refine Concurrent.always_ends ⟨fun perm => ?_, nofun⟩
  have none : 0 = w.size := perm.length_eq.trans w.length_upTo
  exact absurd none (by decide)

end Window

end Bisection
