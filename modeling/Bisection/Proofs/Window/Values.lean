import Bisection.Proofs.Alone.Indices
import Bisection.Proofs.Pieces.Bisections
import Bisection.Proofs.Pieces.Compaction
import Bisection.Proofs.Pieces.Placement
import Bisection.Proofs.Window.Loops

/-!
# What operations come to

With a callback that never fails, an operation on each element or index of a window leaves the
window with the results in place of its elements, and a selection has the elements that are asked
for, in their order. Neither depends on where the window is cut. This is so over any computations
that follow plain values, with `T` for how they do.
-/

namespace Bisection
set_option autoImplicit false

/-! ## Selections -/

theorem Halving.sized_selection (selected : Nat → Bool) (tree : Halving) :
    (tree.selection selected).Sized := by
  induction tree with
  | leaf s => trivial
  | node s left right ihl ihr => exact ⟨congrArg₂ _ ihl.size_eq ihr.size_eq, ihl, ihr⟩

/-- A selection by a plain function has the indices that are asked for. -/
theorem selection_id (t : Threshold) (asked : Nat → Bool) (lo n : Nat) :
    let s : Selection := Selection.build (m := Id) t (fun i => pure (asked i)) lo n
    s.Sized ∧ s.toList = (List.range' lo n).filter asked := by
  have tree := build_eq_halving t asked lo n
  have found : Selection.toList <$> Selection.build (m := Id) t (fun i => pure (asked i)) lo n =
    chosen _ _ := toList_build _ lo n
  rw [chosen_pure] at found
  exact ⟨tree ▸ Halving.sized_selection asked _, found⟩

/-- So has one that follows it. -/
theorem Selection.Follows.of_id {t : Threshold} {hit : Nat → Bool} {d lo n hi : Nat}
    {tree : Selection} (follows : tree.Follows d hi
      (Selection.build (m := Id) t (fun i => pure (hit (d + i))) lo n)) :
    tree.Sized ∧ tree.toList = (List.range' (d + lo) n).filter hit := by
  obtain ⟨sized, indices⟩ := selection_id t (fun i => hit (d + i)) lo n
  refine ⟨follows.1 ▸ sized.moved d, ?_⟩
  rw [follows.1, Selection.toList_moved, indices, ← List.map_add_range', List.filter_map]
  rfl

/-- So has one by a function that may fail and does not. -/
theorem exists_build {ε : Type} (t : Threshold) (hit : Nat → Bool) (lo n : Nat) :
    ∃ tree, (Selection.build t (fun i => .ok (hit i)) lo n : Except ε Selection) = .ok tree ∧
      tree.Sized ∧ tree.toList = (List.range' lo n).filter hit := by
  have builds : (Tracking.succeeding 0).Rel (Selection.Follows 0 (lo + n))
      (Selection.build t (fun i => .ok (hit i)) (0 + lo) n : Except ε Selection)
      (Selection.build (m := Id) t (fun i => pure (hit (0 + i))) lo n) :=
    Tracking.build fun i _ _ => ⟨_, rfl, rfl⟩
  obtain ⟨tree, ok, follows⟩ := builds
  have found := follows.of_id
  rw [Nat.zero_add] at ok found
  exact ⟨tree, ok, found⟩

namespace Window

section
variable {α : Type} (w : Window α)

theorem upTo_alone : w.alone.whole.upTo w.alone.whole.hi = w.upTo w.hi := by
  rw [← toList_part, w.part_alone, toList_part]

theorem getElem?_upTo_add {k : Nat} (inside : k < w.size) :
    (w.upTo w.hi)[k]? = w.get? (w.lo + k) := by
  rw [w.get?_alone inside, ← toList_part, Store.getElem?_toList]
  rfl

theorem getElem?_upTo {i : Nat} (above : w.lo ≤ i) (below : i < w.hi) :
    (w.upTo w.hi)[i - w.lo]? = w.get? i := by
  rw [w.getElem?_upTo_add (Nat.sub_lt_sub_right above below), Nat.add_sub_cancel' above]

/-- The elements of a store that knows them to be alike. -/
theorem upTo_of_uniform? [Ord α] {x : α} (uniform : w.part.uniform? = some x) :
    w.upTo w.hi = List.replicate w.size x ∧ 0 < w.size ∧ compare x x = .eq := by
  obtain ⟨elems, nonempty, self⟩ := Store.toList_of_uniform? uniform
  rw [w.toList_part, w.size_part] at elems
  rw [w.size_part] at nonempty
  exact ⟨elems, nonempty, self⟩

theorem elems_refill (xs : Array α) : (w.refill xs).elems = xs := by
  apply Array.toList_inj.mp
  have part : (w.refill xs).part = w.part.splice 0 w.part.size xs :=
    Store.slice_splice _ w.lo_le_hi w.hi_le_size xs
  rw [elems, Store.toList_toArray, part, Store.toList_splice, List.take_zero, List.nil_append,
    List.drop_eq_nil_of_le (Nat.le_of_eq (Store.length_toList _)), List.append_nil]

theorem upTo_refill (xs : Array α) : (w.refill xs).upTo (w.refill xs).hi = xs.toList := by
  rw [← toList_part, ← Store.toList_toArray]
  exact congrArg Array.toList (w.elems_refill xs)

theorem mapM_id {β γ : Type} (g : β → γ) (xs : List β) : xs.mapM (m := Id) g = xs.map g :=
  List.mapM_pure

end

variable {ε α β : Type} {m : Type → Type} [Monad m] [LawfulMonad m] [Fork ε m] [Reports m]
  {w : Window α} {T : Tracking w.lo m Id}

/-- A result that a related plain value determines. -/
theorem same_of_rel {β γ : Type} {R : β → γ → Prop} {x : m β} {y : Id γ} (rel : T.Rel R x y)
    (back : γ → β) (results : ∀ b c, R b c → b = back c) : T.Same x (back y) := by
  have moved : T.Rel Eq (id <$> x) (back <$> y) := rel.map results
  rwa [id_map] at moved

theorem eq_refill_of_left {w w' v' : Window α} (left : w.Left w' v') : w' = w.refill v'.elems := by
  obtain ⟨xs, -, rfl, rfl⟩ := left
  rw [elems_refill]

/-- What is put into a window is what is put into its elements alone. -/
theorem same_of_left {x : m (Window α)} {y : Id (Window α)} (rel : T.Rel w.Left x y) {ys : Array α}
    (value : y = w.alone.whole.refill ys) : T.Same x (w.refill ys) := by
  have back := same_of_rel rel (fun v => w.refill v.elems) fun _ _ => eq_refill_of_left
  rwa [value, elems_refill] at back

/-! ## Operations on each element -/

theorem same_replaceWith {f : α → m α} {g : α → α} (same : ∀ x, T.Same (f x) (g x)) :
    T.Same (w.replaceWith f) (w.refill ((w.upTo w.hi).map g).toArray) := by
  refine same_of_left (tracks_replaceWith (g := g) same) ?_
  rw [replaceWith_loop (fun _ => rfl), upTo_alone, mapM_id]
  rfl

theorem same_replaceWithIndex {f : Nat → m α} {g : Nat → α} (same : ∀ i, T.Same (f i) (g i)) :
    T.Same (w.replaceWithIndex f) (w.refill ((List.range' w.lo w.size).map g).toArray) := by
  refine same_of_left (tracks_replaceWithIndex (g := fun i => g (w.lo + i)) fun i => same _) ?_
  rw [replaceWithIndex_loop (fun _ => rfl), size_alone, mapM_id, indices_alone, List.map_map]
  rfl

theorem same_replaceWithCombined {f : α → β → m α} {g : α → β → α}
    (same : ∀ x y, T.Same (f x y) (g x y)) (other : Store β) :
    T.Same (w.replaceWithCombined other f)
      (if other.size < w.size then .error (.lengthMismatch w.size other.size)
        else .ok (w.refill (((w.upTo w.hi).zip other.toList).map fun p => g p.1 p.2).toArray)) := by
  by_cases short : other.size < w.size
  · rw [replaceWithCombined, if_pos short, if_pos short]
    exact T.pure rfl
  · have tracks : T.Rel (Results Eq w.Left) (w.replaceWithCombined other f)
      (w.alone.whole.replaceWithCombined (m := Id) other g) := tracks_replaceWithCombined same
    have enough : w.alone.whole.size ≤ other.size := by
      rw [size_alone]
      exact Nat.le_of_not_lt short
    rw [replaceWithCombined_loop (fun _ => rfl) _ enough, upTo_alone, mapM_id] at tracks
    have back := same_of_rel tracks (fun r => r.map fun v => w.refill v.elems) fun b c results => by
      cases results with
      | error eq => exact congrArg _ eq
      | ok left =>
        obtain ⟨xs, -, rfl, rfl⟩ := left
        exact congrArg Except.ok (congrArg _ (elems_refill _ xs).symm)
    rw [if_neg short, ← elems_refill w.alone.whole (List.toArray _)]
    exact back

/-! ## Selections -/

/-- A selection by computations that follow a plain function. -/
theorem follows_build {f : α → m Bool} {g : α → Bool} (same : ∀ x, T.Same (f x) (g x))
    (t : Threshold) :
    T.Rel (Selection.Follows w.lo w.size) (Selection.build t (w.holdsAt f) w.lo w.size)
      (Selection.build (m := Id) t (fun i => pure ((w.get? (w.lo + i)).any g)) 0 w.size) :=
  tracks_build fun i _ => by
    rw [holdsAt_eq]
    cases w.get? (w.lo + i) with
    | none => exact T.pure rfl
    | some x => exact same x

section
variable (w : Window α)

/-- What is at the indices for which they are asked. -/
theorem map_get?_filter (g : α → Bool) :
    ((List.range' w.lo w.size).filter fun i => (w.get? i).any g).map w.get? =
      ((w.upTo w.hi).filter g).map some := by
  have elems := congrArg (List.filter fun x? : Option α => x?.any g) w.map_get?_range
  rwa [List.filter_map, List.filter_map] at elems

/-- The elements at the indices for which they are asked are those that are asked for. -/
theorem filterMap_get?_filter (g : α → Bool) :
    ((List.range' w.lo w.size).filter fun i => (w.get? i).any g).filterMap w.get? =
      (w.upTo w.hi).filter g := by
  have elems := congrArg (List.filterMap id) (w.map_get?_filter g)
  rwa [List.filterMap_map, List.filterMap_map, Function.id_comp, Function.id_comp,
    List.filterMap_some] at elems

/-- A selection counts the elements that are asked for. -/
theorem size_selection {tree : Selection} {g : α → Bool} (sized : tree.Sized)
    (indices : tree.toList = (List.range' w.lo w.size).filter fun i => (w.get? i).any g) :
    tree.size = ((w.upTo w.hi).filter g).length := by
  have elems := congrArg List.length (w.map_get?_filter g)
  rw [List.length_map, List.length_map, ← indices] at elems
  rw [sized.size_eq, elems]

theorem holdsAt_id (g : α → Bool) :
    w.holdsAt (m := Id) g = fun i => pure ((w.get? i).any g) := by
  funext i
  rw [holdsAt]
  cases w.get? i <;> rfl

/-- The tree of a selection is one of the indices that are asked for. -/
theorem found_of_follows {t : Threshold} {g : α → Bool} {tree : Selection}
    (follows : tree.Follows w.lo w.size
      (Selection.build (m := Id) t (fun i => pure ((w.get? (w.lo + i)).any g)) 0 w.size)) :
    tree.Sized ∧ tree.toList = (List.range' w.lo w.size).filter fun i => (w.get? i).any g := by
  have found : tree.Sized ∧ tree.toList =
      (List.range' (w.lo + 0) w.size).filter fun i => (w.get? i).any g := follows.of_id
  exact found

theorem getElem?_elems {i : Nat} (above : w.lo ≤ i) (below : i < w.hi) :
    w.elems[i - w.lo]? = w.get? i := by
  rw [← w.getElem?_upTo above below, elems, ← Array.getElem?_toList, Store.toList_toArray,
    toList_part]

theorem size_elems : w.elems.size = w.size := by
  rw [elems, Store.size_toArray, size_part, Window.size]

/-- Indices of a window, in increasing order, are indices of its elements. -/
theorem selected_inside (keep : Nat → Bool) :
    ((List.range' w.lo w.size).filter keep).Pairwise (· < ·) ∧
      ∀ i ∈ (List.range' w.lo w.size).filter keep, w.lo ≤ i ∧ i < w.lo + w.elems.size := by
  constructor
  · exact (List.pairwise_lt_range' _).filter _
  · intro i mem
    rw [size_elems]
    exact List.mem_range'_1.mp (List.mem_of_mem_filter mem)

/-- What is at selected indices of a window is what is there among its elements. -/
theorem filterMap_elems {indices : List Nat}
    (inside : ∀ i ∈ indices, w.lo ≤ i ∧ i < w.lo + w.elems.size) :
    (indices.filterMap fun i => w.elems[i - w.lo]?) = indices.filterMap w.get? := by
  apply List.filterMap_congr
  intro i mem
  obtain ⟨above, below⟩ := inside i mem
  rw [size_elems, w.lo_add_size] at below
  exact w.getElem?_elems above below

/-- What is kept of the elements of a window. -/
theorem compact_selected {tree : Selection} {keep : Nat → Bool}
    (indices : tree.toList = (List.range' w.lo w.size).filter keep) :
    tree.compact w.lo w.elems =
      (((List.range' w.lo w.size).filter keep).filterMap w.get?).toArray := by
  obtain ⟨increasing, inside⟩ := w.selected_inside keep
  rw [← indices] at increasing inside
  rw [Selection.compact_eq increasing inside, w.filterMap_elems inside, indices]

end

/-! ## What there has to be room for -/

section
variable [RoomFailure ε] (w : Window α)

theorem map_ok [Cell β] (g : α → β) : (w.map (fun x => .ok (g x)) : Except ε (BulkArray β)) = (do
    claimRoom w.size (Cell.bytes β)
    .ok (w.array.derive ((w.upTo w.hi).map g).toArray)) := by
  rw [map_loop fun _ => rfl]
  refine bind_congr fun _ => ?_
  rw [show (w.upTo w.hi).mapM (fun x => .ok (g x)) = (.ok _ : Except ε (List β)) from
    List.mapM_pure]
  rfl

omit [RoomFailure ε] in
theorem holdsAt_ok (g : α → Bool) :
    w.holdsAt (m := Except ε) (fun x => .ok (g x)) = fun i => .ok ((w.get? i).any g) := by
  funext i
  rw [holdsAt]
  cases w.get? i <;> rfl

theorem selected_ok [Cell α] (g : α → Bool) (before : Nat) :
    (w.selected (fun x => .ok (g x)) before : Except ε (Array α)) = (do
      claimRoom w.size indexBytes
      claimRoom (before + ((w.upTo w.hi).filter g).length) (Cell.bytes α)
      .ok ((w.upTo w.hi).filter g).toArray) := by
  obtain ⟨tree, built, sized, indices⟩ := exists_build (ε := ε) (w.array.leafThreshold w.size)
    (fun i => (w.get? i).any g) w.lo w.size
  have fetched : tree.fetchAll w.get? = ((w.upTo w.hi).filter g).toArray := by
    rw [sized.fetchAll_eq, indices, filterMap_get?_filter]
  rw [selected, holdsAt_ok, begin_silent fun _ => rfl, pure_bind, built, ← fetched,
    ← w.size_selection sized indices]
  rfl

theorem keepIndices_ok (action : Action) (keep : Nat → Bool) :
    (w.keepIndices action (fun i => .ok (keep i)) : Except ε (Window α)) = (do
      claimRoom w.size indexBytes
      .ok (w.refill
        (((List.range' w.lo w.size).filter keep).filterMap w.get?).toArray)) := by
  obtain ⟨tree, built, -, indices⟩ := exists_build (ε := ε) (w.array.leafThreshold w.size) keep
    w.lo w.size
  rw [keepIndices, begin_silent fun _ => rfl, pure_bind, built, ← w.compact_selected indices]
  rfl

theorem retain_ok (g : α → Bool) : (w.retain (fun x => .ok (g x)) : Except ε (Window α)) = (do
    claimRoom w.size indexBytes
    .ok (w.refill ((w.upTo w.hi).filter g).toArray)) := by
  rw [retain, holdsAt_ok, keepIndices_ok, filterMap_get?_filter]

theorem removeAll_ok (g : α → Bool) :
    (w.removeAll (fun x => .ok (g x)) : Except ε (Window α)) = (do
      claimRoom w.size indexBytes
      .ok (w.refill ((w.upTo w.hi).filter fun x => !g x).toArray)) := by
  have kept := w.keepIndices_ok (ε := ε) .removeAll fun i => (w.get? i).any fun x => !g x
  rw [filterMap_get?_filter, ← holdsAt_ok] at kept
  exact kept

end

section
variable {T : Tracking w.lo m (Except ε)} [RoomFailure ε]
  (lacking : T.expected RoomFailure.noRoom RoomFailure.noRoom)
include lacking

theorem same_map [Cell β] {f : α → m β} {g : α → β} (same : ∀ x, T.Same (f x) (.ok (g x))) :
    T.Same (w.map f) (do
      claimRoom w.size (Cell.bytes β)
      .ok (w.array.derive ((w.upTo w.hi).map g).toArray)) := by
  have tracks := tracks_map (fun _ => lacking) same
  rwa [map_ok, size_alone, upTo_alone] at tracks

section
variable {f : α → m Bool} {g : α → Bool} (same : ∀ x, T.Same (f x) (.ok (g x)))
include same

theorem same_selected [Cell α] (before : Nat) : T.Same (w.selected f before) (do
    claimRoom w.size indexBytes
    claimRoom (before + ((w.upTo w.hi).filter g).length) (Cell.bytes α)
    .ok ((w.upTo w.hi).filter g).toArray) := by
  have tracks := tracks_selected lacking same before
  rwa [selected_ok, size_alone, upTo_alone] at tracks

theorem same_select [Cell α] : T.Same (w.select f) (do
    claimRoom w.size indexBytes
    claimRoom ((w.upTo w.hi).filter g).length (Cell.bytes α)
    .ok (w.array.derive ((w.upTo w.hi).filter g).toArray)) := by
  have selects := (same_selected lacking same 0).map w.array.derive
  rwa [map_bind, map_bind, Nat.zero_add] at selects

theorem same_appendSelected [Cell α] (dest : Store α) : T.Same (w.appendSelected f dest) (do
    claimRoom w.size indexBytes
    claimRoom (dest.size + ((w.upTo w.hi).filter g).length) (Cell.bytes α)
    .ok (dest.append ((w.upTo w.hi).filter g).toArray)) := by
  have selects := (same_selected lacking same dest.size).map dest.append
  rwa [map_bind, map_bind] at selects

end

omit lacking in
/-- What is put into a window is what is put into its elements alone, if there is room. -/
theorem same_of_left_claimed {x : m (Window α)} {ys : Array α} {cells bytes : Nat}
    (rel : T.Rel w.Left x (do claimRoom cells bytes; .ok (w.alone.whole.refill ys))) :
    T.Same x (do claimRoom cells bytes; .ok (w.refill ys)) := by
  let back (v : Window α) : Window α := w.refill v.elems
  have moved : T.Rel Eq (id <$> x) (back <$> _) := rel.map fun _ _ => eq_refill_of_left
  have same : back <$> .ok (w.alone.whole.refill ys) = (.ok (w.refill ys) : Except ε (Window α)) :=
    congrArg Except.ok (congrArg w.refill (elems_refill _ ys))
  rwa [id_map, map_bind, same] at moved

section
variable {f : α → m Bool} {g : α → Bool} (same : ∀ x, T.Same (f x) (.ok (g x)))
include same

theorem same_retain : T.Same (w.retain f) (do
    claimRoom w.size indexBytes
    .ok (w.refill ((w.upTo w.hi).filter g).toArray)) := by
  have tracks := tracks_retain (fun _ => lacking) same
  rw [retain_ok, size_alone, upTo_alone] at tracks
  exact same_of_left_claimed tracks

theorem same_removeAll : T.Same (w.removeAll f) (do
    claimRoom w.size indexBytes
    .ok (w.refill ((w.upTo w.hi).filter fun x => !g x).toArray)) := by
  have tracks := tracks_removeAll (fun _ => lacking) same
  rw [removeAll_ok, size_alone, upTo_alone] at tracks
  exact same_of_left_claimed tracks

end

end

end Window

end Bisection
