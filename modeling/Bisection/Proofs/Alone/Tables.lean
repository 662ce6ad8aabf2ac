import Bisection.Proofs.KeyTable.Probing

/-!
# Tables of indices further on

Entering the indices that are greater by `d`, whose keys are those of the smaller ones, fills the
same slots of a table, with indices that are greater by `d`.
-/

namespace Bisection.KeyTable
set_option autoImplicit false

/-- The slot with an index greater by `d`. -/
def movedSlot (d : Nat) : Nat → Nat
  | 0 => 0
  | i + 1 => d + i + 1

/-- The table with all indices greater by `d`. -/
def moved (d : Nat) (t : KeyTable) : KeyTable := ⟨t.slots.map (movedSlot d)⟩

/-- All indices in the table are below `n`. -/
def Below (n : Nat) (t : KeyTable) : Prop := ∀ s x : Nat, t.slots[s]? = some x → x ≤ n

/-- The indices below `n` have the same keys among each other as those `d` places further on. -/
def Alike (d n : Nat) (same same' : Nat → Nat → Bool) : Prop :=
  ∀ i j, i < n → j < n → same (d + i) (d + j) = same' i j

section
variable {d n : Nat} {t : KeyTable}

@[simp] theorem size_moved (d : Nat) (t : KeyTable) : (t.moved d).slots.size = t.slots.size :=
  Array.size_map

theorem next_moved (d : Nat) (t : KeyTable) (s : Nat) : (t.moved d).next s = t.next s := by
  rw [next, next, size_moved]

/-- A slot is filled in both tables, or vacant in both. -/
theorem held_moved (d : Nat) (t : KeyTable) (s : Nat) :
    (t.moved d).held s = (t.held s).map (d + ·) := by
  have slot : (t.moved d).slots[s]? = t.slots[s]?.map (movedSlot d) := Array.getElem?_map
  rw [held, held, slot]
  rcases t.slots[s]? with - | - | i <;> rfl

theorem Below.of_held (below : t.Below n) {s j : Nat} (held : t.held s = some j) : j < n :=
  below s (j + 1) (held_eq_some.mp held)

/-- A claimed slot holds an index that is entered. -/
theorem Below.claim (below : t.Below n) {i : Nat} (inside : i < n) (s : Nat) :
    Below n ⟨t.slots.setIfInBounds s (i + 1)⟩ := by
  intro s' x at_s'
  rw [Array.getElem?_setIfInBounds] at at_s'
  split at at_s'
  · split at at_s' <;> cases at_s'
    exact inside
  · exact below s' x at_s'

/-- A slot that is lowered holds no greater index than before. -/
theorem Below.lower (below : t.Below n) (i s : Nat) : Below n ⟨t.slots.modify s (min i)⟩ := by
  intro s' x at_s'
  rw [Array.getElem?_modify] at at_s'
  split at at_s'
  · obtain ⟨y, at_y, rfl⟩ := Option.map_eq_some_iff.mp at_s'
    exact Nat.le_trans (Nat.min_le_right i y) (below s' y at_y)
  · exact below s' x at_s'

/-- To claim a slot and then move all indices is to claim it for an index further on. -/
theorem moved_claim (d : Nat) (t : KeyTable) (i s : Nat) :
    (⟨(t.moved d).slots.setIfInBounds s (d + i + 1)⟩ : KeyTable) =
      moved d ⟨t.slots.setIfInBounds s (i + 1)⟩ := by
  rw [moved, moved, Array.map_setIfInBounds]
  rfl

/-- The lesser of two indices further on is the lesser of both, further on. -/
theorem moved_lower (d : Nat) (t : KeyTable) (i s : Nat) :
    (⟨(t.moved d).slots.modify s (min (d + i + 1))⟩ : KeyTable) =
      moved d ⟨t.slots.modify s (min (i + 1))⟩ := by
  have slot (x : Nat) : min (d + i + 1) (movedSlot d x) = movedSlot d (min (i + 1) x) := by
    cases x with
    | zero => rw [Nat.min_zero]; rfl
    | succ j =>
      rw [Nat.add_min_add_right]
      show min (d + i + 1) (d + j + 1) = d + min i j + 1
      omega
  rw [moved, moved, KeyTable.mk.injEq]
  refine Array.ext_getElem? fun s' => ?_
  rw [Array.getElem?_modify, Array.getElem?_map, Array.getElem?_map, Array.getElem?_modify]
  split
  · rw [Option.map_map, Option.map_map]
    exact congrArg (Option.map · _) (funext slot)
  · rfl

end

section
variable {d n i : Nat} {t : KeyTable} {same same' : Nat → Nat → Bool}

/-- A step of entering an index further on. -/
theorem step_moved (alike : Alike d n same same') (below : t.Below n) (inside : i < n) (e : Entry) :
    e.step same (d + i) (t.moved d) =
        ((e.step same' i t).1.moved d, (e.step same' i t).2) ∧
      (e.step same' i t).1.Below n := by
  have onHeld (s : Nat) {j : Nat} (held : t.held s = some j) :
      Entry.onHeld same (t.moved d) (d + i) s (d + j) = Entry.onHeld same' t i s j := by
    rw [Entry.onHeld, Entry.onHeld, alike i j inside (below.of_held held), next_moved]
  cases e with
  | load s =>
    cases held : t.held s with
    | none => simp [Entry.step, held_moved, held, below]
    | some j => simp [Entry.step, held_moved, held, onHeld s held, below]
  | claim s =>
    cases held : t.held s with
    | none => simp [Entry.step, held_moved, held, moved_claim, below.claim inside s]
    | some j => simp [Entry.step, held_moved, held, onHeld s held, below]
  | lower s => simp [Entry.step, moved_lower, below.lower (i + 1) s]

end

end Bisection.KeyTable
