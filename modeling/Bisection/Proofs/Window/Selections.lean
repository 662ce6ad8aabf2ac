import Bisection.Element.Kinds
import Bisection.Proofs.Agreement.Endings
import Bisection.Proofs.Window.Values
import Bisection.Script.Callback

/-!
# What a selection leaves in its destination

In every order in which the halves of its forks take turns, a selection asks once about each element
of the window and finds the same indices. Handing out the slots of a destination, it then writes to
each of them once, so that nothing of the destination is left as it was, and what is in the slots
are the elements that were asked for, in their order.
-/

namespace Bisection
set_option autoImplicit false

/-! ## What is asked for in all orders -/

namespace Concurrent
variable {ι ε β γ : Type} {d : Nat}

theorem noted (p : ι → β) (xs : List ι) (before : Array ι) :
    ((inTurn (xs.map fun x => ending (noting p x))).run before).2.toList = before.toList ++ xs := by
  induction xs generalizing before with
  | nil => exact (List.append_nil _).symm
  | cons x xs ih =>
    have rest := ih (before.push x)
    rw [Array.toList_push, List.append_assoc] at rest
    exact rest

/-- A computation that asks what a plain loop over some elements asks, in some order. -/
theorem always_asks {R : β → γ → Prop} {δ : Type} {p : ι → δ} {xs : List ι} {x : Concurrent ι ε β}
    {y : StateM (Array ι) γ} (rel : (gathering d).Rel R x y)
    (loop : ending y = inTurn (xs.map fun x => ending (noting p x))) :
    x.Always fun calls _ => calls.Perm xs := by
  refine ⟨rel.1, fun calls r run => ?_⟩
  obtain ⟨b, -, gathered⟩ := rel.2 calls r run
  have perm := (gathered #[]).2
  have visited : (y.run #[]).2 = ((ending y).run #[]).2 := rfl
  rw [visited, loop, noted] at perm
  exact perm.symm

/-- In all orders the first pass of a selection asks once about each index, and finds the indices
for which it is told to. -/
theorem always_build (t : Threshold) (hit : Nat → Bool) (lo n : Nat) :
    (Selection.build t (fun i => call i (.ok (hit i))) lo n : Concurrent Nat ε Selection).Always
      fun asked r => asked.Perm (List.range' lo n) ∧
        ∃ tree, r = .ok tree ∧ tree.Sized ∧ tree.toList = (List.range' lo n).filter hit := by
  have asks : (gathering 0).Rel (Selection.Follows 0 (lo + n))
      (Selection.build t (fun i => call i (.ok (hit i))) (0 + lo) n : Concurrent Nat ε Selection)
      (Selection.build t (noting hit) lo n) := by
    apply Tracking.build
    intro i _ _
    rw [Nat.zero_add]
    exact gathers_noting hit i
  have finds : (total 0).Rel (Selection.Follows 0 (lo + n))
      (Selection.build t (fun i => call i (.ok (hit i))) (0 + lo) n : Concurrent Nat ε Selection)
      (Selection.build (m := Id) t (fun i => pure (hit (0 + i))) lo n) := by
    apply Tracking.build
    intro i _ _
    rw [Nat.zero_add]
    exact same_call (d := 0) i (.ok (hit i))
  rw [Nat.zero_add] at asks finds
  have loop : ending (Selection.build t (noting hit) lo n) =
      inTurn ((List.range' lo n).map fun i => ending (noting hit i)) := by
    rw [← ending_map Selection.toList, toList_build, ending_chosen]
  refine ((always_asks asks loop).and (always_of_rel finds)).mono fun asked r ends => ?_
  obtain ⟨perm, tree, ok, follows⟩ := ends
  have found := follows.of_id
  rw [Nat.zero_add] at found
  exact ⟨perm, tree, ok, found⟩

/-- What a claim comes to, which makes no call. -/
theorem claimRoom_then [RoomFailure ε] (cells bytes : Nat) (b : β) :
    (do claimRoom cells bytes; pure b : Concurrent ι ε β) =
      ends (do claimRoom cells bytes; .ok b) := by
  cases room : hasRoom cells bytes with
  | true =>
    rw [claimRoom_of_room room, claimRoom_of_room room, pure_bind]
    rfl
  | false =>
    rw [claimRoom_bind_of_no_room room, claimRoom_bind_of_no_room room]
    rfl

theorem map_call (i : ι) (b : β) (f : β → γ) :
    (f <$> call i (.ok b) : Concurrent ι ε γ) = call i (.ok (f b)) := by
  refine ext fun calls r => (then_ends (call i (.ok b)) f calls r).trans ⟨?_, ?_⟩
  · rintro ⟨_, ⟨rfl, rfl⟩, rfl⟩
    exact ⟨rfl, rfl⟩
  · rintro ⟨rfl, rfl⟩
    exact ⟨_, ⟨rfl, rfl⟩, rfl⟩

end Concurrent

namespace Window

section
variable {ε α : Type} (w : Window α) (p : α → Bool)

/-- A callback that tells which elements it is asked about. -/
def ask (x : α) : Concurrent α ε Bool := .call x (.ok (p x))

/-- In all orders the first pass of a selection asks once about each element, and finds the indices
of those it is told to. -/
theorem always_holdsAt (t : Threshold) :
    (Selection.build t (w.holdsAt (ask p)) w.lo w.size : Concurrent α ε Selection).Always
      fun asked r => ∃ tree, r = .ok tree ∧ asked.Perm (w.upTo w.hi) ∧ tree.Sized ∧
        tree.toList = (List.range' w.lo w.size).filter fun i => (w.get? i).any p := by
  have asks : (Concurrent.gathering w.lo).Rel _ (Selection.build t (w.holdsAt (ask p)) w.lo w.size :
      Concurrent α ε Selection) _ := tracks_build fun i inside =>
    same_holdsAt (Concurrent.gathers_noting p) inside
  have loop := w.alone.whole.ending_build t (Concurrent.noting p)
  rw [size_alone, upTo_alone] at loop
  have finds := follows_build (w := w) (T := Concurrent.total (ε := ε) w.lo)
    (fun x => Concurrent.same_call (d := w.lo) x (.ok (p x))) t
  refine ((Concurrent.always_asks asks loop).and (Concurrent.always_of_rel finds)).mono
    fun asked r ends => ?_
  obtain ⟨perm, tree, ok, follows⟩ := ends
  exact ⟨tree, ok, perm, w.found_of_follows follows⟩

/-- In all orders a selection with room for its table asks once about each element, and has those it
is told to if there is room for them. -/
theorem always_selected [RoomFailure ε] [Cell α] (room : hasRoom w.size indexBytes) (before : Nat) :
    (w.selected (ask p) before : Concurrent α ε (Array α)).Always fun calls r =>
      calls.Perm (w.upTo w.hi) ∧ r = (do
        claimRoom (before + ((w.upTo w.hi).filter p).length) (Cell.bytes α)
        .ok ((w.upTo w.hi).filter p).toArray) := by
  have silent (n : Notice) : Reports.note n = (pure () : Concurrent α ε Unit) := rfl
  rw [selected, begin_silent silent, pure_bind, claimRoom_of_room room, pure_bind]
  refine (w.always_holdsAt p _).then fun calls tree told => ?_
  obtain ⟨perm, sized, indices⟩ := told
  have fetched : tree.fetchAll w.get? = ((w.upTo w.hi).filter p).toArray := by
    rw [sized.fetchAll_eq, indices, filterMap_get?_filter]
  rw [silent, pure_bind, w.size_selection sized indices, fetched, Concurrent.claimRoom_then]
  refine Concurrent.always_ends ⟨?_, rfl⟩
  rwa [List.append_nil]

/-! ## Slots -/

/-- However the halves of the forks take turns, a placement in a destination as long as the
selection ends well, writes to each slot once, and leaves the elements that are asked for. -/
theorem always_place {tree : Selection} (sized : tree.Sized)
    (indices : tree.toList = (List.range' w.lo w.size).filter fun i => (w.get? i).any p) :
    (tree.place (fun slot i => Concurrent.call (slot, i) (.ok ())) ⟨0, tree.size⟩).Always
      fun writes r => r = .ok () ∧ (writes.map Prod.fst).Perm (List.range tree.size) ∧
        (Selection.fill w.get? writes (Array.replicate tree.size none)).toList =
          ((w.upTo w.hi).filter p).map some := by
  have fits : (⟨0, tree.size⟩ : Span).size = tree.size := rfl
  refine (sized.always_place fits).mono fun writes r ends => ?_
  obtain ⟨ok, perm⟩ := ends
  rw [fits] at perm
  have slots : ((List.range' 0 tree.size).zip tree.toList).map Prod.fst = List.range tree.size := by
    rw [List.map_fst_zip, List.range_eq_range']
    rw [List.length_range', sized.size_eq]
  have each := perm.map Prod.fst
  rw [slots] at each
  have filled := Selection.fill_range w.get? tree.toList []
  rw [List.nil_append, List.nil_append, List.length_nil, ← sized.size_eq,
    List.toArray_replicate] at filled
  refine ⟨ok, each, ?_⟩
  rw [Selection.fill_perm w.get? perm (each.nodup_iff.mpr List.nodup_range), filled, indices]
  exact w.map_get?_filter p

end

/-! ## Destinations -/

/-- What a selection comes to that puts what is kept behind what was in its destination before:
both, if there is room for them. -/
structure Placed {ε α γ : Type} [RoomFailure ε] [Cell α] (toList : γ → List α)
    (before kept : List α) (r : Except ε γ) : Prop where
  placed : hasRoom (before.length + kept.length) (Cell.bytes α) = true →
    ∃ out, r = .ok out ∧ toList out = before ++ kept
  lacking : hasRoom (before.length + kept.length) (Cell.bytes α) = false →
    r = .error RoomFailure.noRoom

/-- A selection that has claimed the room it needs is put behind what was there. -/
theorem placed_of_claim {ε α β γ : Type} [RoomFailure ε] [Cell α] {toList : γ → List α}
    {before kept : List α} {n : Nat} {put : β → γ} {b : β} (length : before.length = n)
    (elems : toList (put b) = before ++ kept) :
    Placed toList before kept
      (put <$> (do claimRoom (n + kept.length) (Cell.bytes α); .ok b) : Except ε γ) := by
  subst length
  constructor
  case placed =>
    intro room
    rw [claimRoom_of_room room]
    exact ⟨_, rfl, elems⟩
  case lacking =>
    intro short
    rw [claimRoom_bind_of_no_room short]
    rfl

/-- In all orders a selection with room for its table asks once about each element, and puts those
it is told to behind what was in its destination if there is room for both. -/
theorem always_placed {ε α γ : Type} [RoomFailure ε] [Cell α] {w : Window α}
    (room : hasRoom w.size indexBytes) (p : α → Bool) {toList : γ → List α} {before : List α}
    {n : Nat} {put : Array α → γ} (length : before.length = n)
    (elems : ∀ kept, toList (put kept.toArray) = before ++ kept) :
    (put <$> w.selected (ask p) n : Concurrent α ε γ).Always fun calls r =>
      calls.Perm (w.upTo w.hi) ∧ Placed toList before ((w.upTo w.hi).filter p) r := by
  refine ((w.always_selected p room n).map put).mono fun calls r ends => ?_
  obtain ⟨_, ⟨perm, rfl⟩, rfl⟩ := ends
  exact ⟨perm, placed_of_claim length (elems _)⟩

/-- With any threshold and any number of workers, a selection that has room for the table of its
indices asks about each element of the window once. Then it puts the elements that satisfy the
predicate, in their order, behind what was in its destination, if there is room for both. Without
room for its table it asks nothing. Whichever tree its first pass builds, the second finds every
destination as long as it has to be, and writes to each slot once, so that none is left empty. -/
theorem appendSelected_places {ε α : Type} [RoomFailure ε] [Cell α] (w : Window α) (p : α → Bool)
    (dest : Store α) :
    let kept := (w.upTo w.hi).filter p
    (hasRoom w.size indexBytes = true →
      Placed Store.toList dest.toList kept
        (w.appendSelected (m := Except ε) (fun x => .ok (p x)) dest) ∧
      Placed BulkArray.toList [] kept (w.select (m := Except ε) fun x => .ok (p x)) ∧
      (w.appendSelected (ask p) dest : Concurrent α ε (Store α)).Always (fun calls r =>
        calls.Perm (w.upTo w.hi) ∧ Placed Store.toList dest.toList kept r) ∧
      (w.select (ask p) : Concurrent α ε (BulkArray α)).Always fun calls r =>
        calls.Perm (w.upTo w.hi) ∧ Placed BulkArray.toList [] kept r) ∧
    (hasRoom w.size indexBytes = false →
      (w.appendSelected (ask p) dest : Concurrent α ε (Store α)).Always (fun calls r =>
        calls = [] ∧ r = .error RoomFailure.noRoom) ∧
      (w.select (ask p) : Concurrent α ε (BulkArray α)).Always fun calls r =>
        calls = [] ∧ r = .error RoomFailure.noRoom) ∧
    ∀ t, (Selection.build t (fun i => .call i (.ok ((w.get? i).any p))) w.lo w.size :
        Concurrent Nat ε Selection).Always fun asked r =>
      asked.Perm (List.range' w.lo w.size) ∧ ∃ tree, r = .ok tree ∧ tree.size = kept.length ∧
        (tree.place (fun slot i => Concurrent.call (slot, i) (.ok ())) ⟨0, tree.size⟩).Always
          fun writes r => r = .ok () ∧ (writes.map Prod.fst).Perm (List.range tree.size) ∧
            (Selection.fill w.get? writes (Array.replicate tree.size none)).toList =
              kept.map some := by
  intro kept
  have appended (kept : List α) : (dest.append kept.toArray).toList = dest.toList ++ kept :=
    Store.toList_append ..
  have derived (kept : List α) : (w.array.derive kept.toArray).toList = [] ++ kept := rfl
  refine ⟨fun room => ⟨?_, ?_, ?_, ?_⟩, fun short => ⟨?_, ?_⟩, fun t => ?_⟩
  · rw [appendSelected, selected_ok, claimRoom_of_room room]
    exact placed_of_claim dest.length_toList (appended kept)
  · rw [select, selected_ok, claimRoom_of_room room]
    exact placed_of_claim rfl (derived kept)
  · exact always_placed room p dest.length_toList appended
  · exact always_placed room p rfl derived
  · rw [w.appendSelected_of_no_room (fun _ => rfl) short]
    exact Concurrent.always_ends ⟨rfl, rfl⟩
  · rw [w.select_of_no_room (fun _ => rfl) short]
    exact Concurrent.always_ends ⟨rfl, rfl⟩
  · refine (Concurrent.always_build t _ w.lo w.size).mono fun asked r ends => ?_
    obtain ⟨perm, tree, ok, sized, indices⟩ := ends
    exact ⟨perm, tree, ok, w.size_selection sized indices, w.always_place p sized indices⟩

/-- Of three letters those that are no `b` are put behind the letter in the destination. The letters
before the window and behind it are not. -/
theorem appendSelected_places_letters :
    let w : Window Char :=
      ⟨⟨default, some ⟨1, Nat.one_pos⟩, .cells #['x', 'a', 'b', 'c', 'y']⟩, 1, 4, by decide,
        by decide⟩
    let dest : Store Char := .cells #['z']
    (∃ out, w.appendSelected (m := Except Abort) (fun x => .ok (x != 'b')) dest = .ok out ∧
      out.toList = ['z', 'a', 'c']) ∧
    ∃ out, w.select (m := Except Abort) (fun x => .ok (x != 'b')) = .ok out ∧
      out.toList = ['a', 'c'] := by
  intro w dest
  obtain ⟨places, -⟩ := appendSelected_places (ε := Abort) w (fun x => x != 'b') dest
  obtain ⟨appended, selected, -⟩ := places (by decide)
  exact ⟨appended.placed (by decide), selected.placed (by decide)⟩

/-- So many units have no room for the table of their indices: a selection of none of them asks
about none, and what was in its destination is not left. -/
theorem appendSelected_lacks_room :
    let w := countless
    let dest : Store Unit := .cells #[(), (), ()]
    let kept := (w.upTo w.hi).filter fun _ => false
    (w.appendSelected (ask fun _ => false) dest : Concurrent Unit Abort (Store Unit)).Always
      fun calls r => ¬ calls.Perm (w.upTo w.hi) ∧
        ¬ ∃ out, r = .ok out ∧ out.toList = dest.toList ++ kept := by
  intro w dest kept
  rw [w.appendSelected_of_no_room (fun _ => rfl) countless_short]
  refine Concurrent.always_ends ⟨fun perm => ?_, fun ⟨out, fails, _⟩ => nomatch fails⟩
  have none : 0 = w.size := perm.length_eq.trans w.length_upTo
  exact absurd none (by decide)

end Window

end Bisection
