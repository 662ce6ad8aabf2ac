import Bisection.Proofs.Alone.Selecting
import Bisection.Proofs.Pieces.Concurrency
import Mathlib.Data.List.Nodup

/-!
# The slots of a destination

A selection whose nodes know how many indices are below them hands out the slots of a destination
without a remainder: the first one to the first index, the next to the next, down to the leaves. No
destination is of the wrong length on the way, and each slot is written once. As no two writes are
to the same slot, what the destination holds in the end does not depend on the order in which the
halves of the forks write.
-/

namespace Bisection
set_option autoImplicit false

namespace Selection

/-- The sizes of a selection are right. -/
def Sized : Selection → Prop
  | leaf _ => True
  | node n left right => n = left.toList.length + right.toList.length ∧ left.Sized ∧ right.Sized

theorem Sized.size_eq {s : Selection} (sized : s.Sized) : s.size = s.toList.length := by
  cases s with
  | leaf indices => rfl
  | node n left right => rw [size, toList, List.length_append, sized.1]

theorem Sized.moved {s : Selection} (sized : s.Sized) (d : Nat) : (s.moved d).Sized := by
  induction s with
  | leaf indices => trivial
  | node n left right ihl ihr =>
    obtain ⟨size, sizedLeft, sizedRight⟩ := sized
    refine ⟨?_, ihl sizedLeft, ihr sizedRight⟩
    rw [toList_moved, toList_moved, List.length_map, List.length_map, size]

/-! ## One write after another -/

section
variable {m : Type → Type} [Monad m] [Fork Mismatch m] {write : Nat → Nat → m Unit}
  {Q : List (Nat × Nat) → m Unit → Prop}

/-- A way to tell computations from the writes they make, whether one comes after another or both
are the halves of a fork. -/
structure Tells (write : Nat → Nat → m Unit) (Q : List (Nat × Nat) → m Unit → Prop) : Prop where
  none : Q [] (pure ())
  one : ∀ slot i, Q [(slot, i)] (write slot i)
  next : ∀ {writes later x y}, Q writes x → Q later y → Q (writes ++ later) (x >>= fun _ => y)
  both : ∀ {writes writes' x y}, Q writes x → Q writes' y →
    Q (writes ++ writes') (Fork.join x y >>= fun _ => pure ())

theorem Tells.forM (tells : Tells write Q) (writes : List (Nat × Nat)) :
    Q writes (forM writes fun (slot, i) => write slot i) := by
  induction writes with
  | nil => exact tells.none
  | cons first writes ih =>
    rw [List.forM_cons]
    exact tells.next (tells.one first.1 first.2) ih

/-- A placement writes to each slot of a destination of the right length, from the first one on,
for the selected indices in their order. -/
theorem Sized.tells_place (tells : Tells write Q) {s : Selection} (sized : s.Sized) {dest : Span}
    (fits : dest.size = s.size) :
    Q ((List.range' dest.lo dest.size).zip s.toList) (s.place write dest) := by
  induction s generalizing dest with
  | leaf indices =>
    rw [place, if_pos fits]
    exact tells.forM _
  | node n left right ihl ihr =>
    obtain ⟨size, sizedLeft, sizedRight⟩ := sized
    rw [Selection.size, size, ← sizedLeft.size_eq] at fits
    have inside : left.size ≤ dest.size := fits ▸ Nat.le_add_right _ _
    -- The slots behind the cut are as many as the right half needs.
    have first : (Piece.cut dest left.size).1.size = left.size :=
      (LawfulPiece.size_cut dest inside).1
    have rest : (Piece.cut dest left.size).2.size = right.size := by
      refine (LawfulPiece.size_cut dest inside).2.trans ?_
      show dest.size - left.size = right.size
      rw [fits, Nat.add_sub_cancel_left, sizedRight.size_eq]
    have slots : (List.range' dest.lo dest.size).zip (left.toList ++ right.toList) =
        (List.range' dest.lo left.size).zip left.toList ++
          (List.range' (dest.lo + left.size) right.size).zip right.toList := by
      rw [fits, ← sizedRight.size_eq, ← List.range'_append_1, List.zip_append]
      rw [List.length_range', sizedLeft.size_eq]
    have halves := tells.both (ihl sizedLeft first) (ihr sizedRight rest)
    rw [first, rest] at halves
    rw [place, if_pos (by rw [Selection.size, size, ← sizedLeft.size_eq, fits]), if_pos inside,
      toList, slots]
    exact halves

end

/-! ## What a destination holds -/

section
variable {β : Type}

/-- What a destination holds after some writes, each of what is fetched for its index. -/
def fill (fetch : Nat → Option β) (writes : List (Nat × Nat)) (dest : Array (Option β)) :
    Array (Option β) :=
  writes.foldl (fun dest (slot, i) => dest.setIfInBounds slot (fetch i)) dest

theorem fill_append (fetch : Nat → Option β) (writes later : List (Nat × Nat))
    (dest : Array (Option β)) :
    fill fetch (writes ++ later) dest = fill fetch later (fill fetch writes dest) :=
  List.foldl_append

/-- Writes to different slots come to the same in any order. -/
theorem fill_perm (fetch : Nat → Option β) {writes writes' : List (Nat × Nat)}
    (perm : writes.Perm writes') (apart : (writes.map Prod.fst).Nodup) (dest : Array (Option β)) :
    fill fetch writes dest = fill fetch writes' dest := by
  apply perm.foldl_eq'
  intro p mem q mem' dest
  by_cases same : p.1 = q.1
  · rw [List.inj_on_of_nodup_map apart mem mem' same]
  · exact Array.setIfInBounds_comm _ _ same

/-- Filling the slots from the first one on, one for each index. -/
theorem fill_range (fetch : Nat → Option β) (indices : List Nat) (before : List (Option β)) :
    (fill fetch ((List.range' before.length indices.length).zip indices)
      (before ++ List.replicate indices.length none).toArray).toList =
      before ++ indices.map fetch := by
  induction indices generalizing before with
  | nil => simp [fill]
  | cons i indices ih =>
    have next := ih (before ++ [fetch i])
    rw [List.length_append, List.length_singleton, List.append_assoc, List.append_assoc] at next
    rw [List.length_cons, List.range'_succ, List.zip_cons_cons, fill, List.foldl_cons,
      List.replicate_succ]
    simpa [fill] using next

theorem Placing.run_bind {γ δ : Type} {x : Placing β γ} {f : γ → Placing β δ}
    {dest dest' : Array (Option β)} {c : γ} (first : x.run dest = (.ok c, dest')) :
    (x >>= f).run dest = (f c).run dest' := by
  show (x.run >>= ExceptT.bindCont f) dest = _
  show StateT.bind x.run (ExceptT.bindCont f) dest = _
  rw [StateT.bind, first]
  rfl

theorem tells_fill (fetch : Nat → Option β) :
    Tells (m := Placing β) (fun slot i => modify (·.setIfInBounds slot (fetch i)))
      fun writes x => ∀ dest, x.run dest = (.ok (), fill fetch writes dest) where
  none dest := rfl
  one slot i dest := rfl
  next {writes later x y} first second dest := by
    rw [Placing.run_bind (first dest), fill_append]
    exact second _
  both {writes writes' x y} first second dest := by
    have joined : ExceptT.run (Fork.join (m := Placing β) x y) dest =
        (.ok ((), ()), fill fetch writes' (fill fetch writes dest)) := by
      show StateT.bind x.run (fun a => StateT.bind y.run fun b => pure (bothResults a b)) dest = _
      rw [StateT.bind, first]
      show StateT.bind y.run _ _ = _
      rw [StateT.bind, second]
      rfl
    rw [Placing.run_bind joined, fill_append]
    rfl

/-- What is fetched for a selection is what is fetched for its indices, in their order. -/
theorem Sized.fetchAll_eq {s : Selection} (sized : s.Sized) (fetch : Nat → Option β) :
    s.fetchAll fetch = (s.toList.filterMap fetch).toArray := by
  have fits : (⟨0, s.size⟩ : Span).size = s.size := rfl
  have written := sized.tells_place (tells_fill fetch) fits (Array.replicate s.size none)
  have filled := fill_range fetch s.toList []
  rw [List.nil_append, List.nil_append, List.length_nil] at filled
  rw [fetchAll, written]
  apply Array.toList_inj.mp
  rw [fits, sized.size_eq, ← List.toArray_replicate, Array.toList_filterMap, filled,
    List.filterMap_map]
  rfl

end

/-! ## Placements in all orders -/

theorem tells_calls :
    Tells (m := Concurrent (Nat × Nat) Mismatch) (fun slot i => .call (slot, i) (.ok ()))
      fun writes x => x.Always fun calls r => r = .ok () ∧ calls.Perm writes where
  none := Concurrent.always_ends ⟨rfl, .refl _⟩
  one _ _ := Concurrent.always_call ⟨rfl, .refl _⟩
  next {writes later x y} first second := by
    have goes : x.Always fun calls r => ∃ b, r = .ok b ∧ calls.Perm writes :=
      first.mono fun _ _ ends => ⟨(), ends⟩
    refine goes.then fun calls _ perm => ?_
    exact second.mono fun _ _ ends => ⟨ends.1, perm.append ends.2⟩
  both left right := by
    refine ((left.beside right).map fun _ => ()).mono fun calls _ ends => ?_
    obtain ⟨_, ⟨ours, theirs, _, _, ⟨rfl, perm⟩, ⟨rfl, perm'⟩, turns, rfl⟩, rfl⟩ := ends
    exact ⟨rfl, turns.trans (perm.append perm')⟩

/-- However the halves of the forks take turns, a placement in a destination of the right length
ends well and writes to each slot once, for the index with as many selected ones before it. -/
theorem Sized.always_place {s : Selection} (sized : s.Sized) {dest : Span}
    (fits : dest.size = s.size) :
    (s.place (fun slot i => Concurrent.call (slot, i) (.ok ())) dest).Always fun calls r =>
      r = .ok () ∧ calls.Perm ((List.range' dest.lo dest.size).zip s.toList) :=
  sized.tells_place tells_calls fits

end Selection

end Bisection
