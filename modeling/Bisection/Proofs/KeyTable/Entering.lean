import Bisection.Proofs.KeyTable.Sharing
import Bisection.Proofs.Window.Values

/-!
# Entering all indices of a window

A single worker enters one index after the other. Several workers enter them in turns, in some
order, and there is an order in which they get done. Either way the table then finds for each key
the lowest index that holds it.
-/

namespace Bisection.KeyTable
set_option autoImplicit false

section
variable {same : Nat → Nat → Bool} {hash : Nat → UInt64} {indices : List Nat} {t : KeyTable}
  (keyed : Keyed same hash indices)
include keyed

/-- An index is entered with nobody else at the table in one step for each slot that is passed and
two on the last. -/
theorem insertFrom_grows (placed : Placed same hash indices t) {i d fuel : Nat} (mem : i ∈ indices)
    (passed : t.Passed (same i) (hash i) d) (enough : t.slots.size + 1 ≤ d + fuel) :
    let t' := insertFrom same i fuel (.load (t.ahead (hash i) d)) t
    Grows same t t' ∧ Placed same hash indices t' ∧
      (User.entered i).Stands same hash indices t' (hash i) 0 := by
  induction fuel generalizing d with
  | zero =>
    have inside := placed.lt_of_passed keyed passed
    omega
  | succ fuel ih =>
    have inside := placed.lt_of_passed keyed passed
    obtain ⟨left, rfl⟩ : ∃ left, fuel = left + 1 := ⟨fuel - 1, by omega⟩
    rw [insertFrom, Entry.step]
    cases held : t.held (t.ahead (hash i) d) with
    | none =>
      obtain ⟨grows, placed', held'⟩ := placed.claim keyed mem held passed
      simp only [insertFrom, Entry.step, held]
      exact ⟨grows, placed', mem, _, i, held', keyed.refl i mem, Nat.le_refl i⟩
    | some j =>
      dsimp only
      rw [Entry.onHeld]
      cases alike : same i j with
      | true =>
        have stepped := stepped_lower (h := hash i) (d := 0) placed keyed ⟨mem, j, held, alike⟩
        exact ⟨stepped.grows, stepped.placed, stepped.stands⟩
      | false =>
        rw [if_neg Bool.false_ne_true, next_ahead placed.pow]
        exact ih (passed.succ held alike) (by omega)

/-- Indices are entered one after the other. -/
theorem foldl_insert_grows (placed : Placed same hash indices t) (entered : List Nat)
    (inside : ∀ i ∈ entered, i ∈ indices) :
    let t' := entered.foldl (fun t i => t.insert same (hash i) i) t
    Grows same t t' ∧ Placed same hash indices t' ∧
      ∀ i ∈ entered, (User.entered i).Stands same hash indices t' (hash i) 0 := by
  induction entered generalizing t with
  | nil => exact ⟨.refl, placed, nofun⟩
  | cons i entered ih =>
    obtain ⟨mem, inside⟩ := List.forall_mem_cons.mp inside
    have home : t.home (hash i) = t.ahead (hash i) 0 := home_eq placed.pow
    obtain ⟨grows, placed', stands⟩ :=
      insertFrom_grows keyed placed mem .zero (show _ ≤ 0 + (t.slots.size + 2) by omega)
    rw [← home] at grows placed' stands
    obtain ⟨grows', placed'', stands'⟩ := ih placed' inside
    refine ⟨grows.trans keyed grows', placed'', fun j mem => ?_⟩
    rcases List.mem_cons.mp mem with rfl | mem
    · exact stands.mono grows' keyed
    · exact stands' j mem

/-- There is an order of the steps in which everybody gets done: everybody in turn, as many times as
anybody may need. -/
theorem Shared.Sound.exists_done {st : Shared} (sound : st.Sound same hash indices) :
    ∃ schedule, ∀ u ∈ (st.run same schedule).users, u.isDone := by
  let turns := 2 * st.table.slots.size + 2
  let schedule := (List.replicate turns (List.range st.users.length)).flatten
  refine ⟨schedule, fun u mem => ?_⟩
  obtain ⟨p, at_p⟩ := List.mem_iff_getElem?.mp mem
  cases first : st.users[p]? with
  | none =>
    rw [(Shared.probes_of_none first schedule).2] at at_p
    cases at_p
  | some v =>
    obtain ⟨h, d, stands⟩ := sound.stands v (List.mem_of_getElem? first)
    obtain ⟨u', _, ends, -, -, left⟩ := sound.own_run keyed schedule first stands
    rw [ends, Option.some.injEq] at at_p
    subst at_p
    have once : (List.range st.users.length).count p = 1 :=
      List.count_eq_one_of_mem List.nodup_range
        (List.mem_range.mpr (List.getElem?_eq_some_iff.mp first).1)
    have count : schedule.count p = turns := by
      rw [List.count_flatten, List.map_replicate, once, List.sum_replicate_nat, Nat.mul_one]
    have most := stands.stepsLeft_le sound.placed keyed
    by_contra goes
    have few := (left (Bool.not_eq_true _ ▸ goes)).2
    omega

end

end KeyTable

/-! ## The first of each key -/

namespace Window

section
variable {α : Type} (w : Window α) {same : α → α → Bool} {hash : α → UInt64}

variable (same) in
/-- Whether an index is the lowest of the window that holds its key. -/
def holdsFirst (i : Nat) : Bool :=
  ((List.range' w.lo w.size).filter (w.sameKeyAt same i)).min? == some i

variable (same hash) in
/-- All indices of the window about to be entered. -/
def entries (table : KeyTable) : KeyTable.Shared :=
  .start table (w.hashAt hash) (List.range' w.lo w.size) []

variable (equiv : Equivalence fun x y => same x y = true)
  (compat : ∀ x y, same x y → hash x = hash y) {table : KeyTable}
include equiv compat

theorem keyed_range :
    KeyTable.Keyed (w.sameKeyAt same) (w.hashAt hash) (List.range' w.lo w.size) :=
  KeyTable.keyed_window w equiv compat fun i mem => by
    have below := (List.mem_range'_1.mp mem).2
    have within : w.hi ≤ w.array.size := w.hi_le_size
    rw [w.lo_add_size] at below
    omega

/-- In a table where all indices are entered, the first index of a key is the lowest one. -/
theorem isFirst_of_entered {st : KeyTable.Shared}
    (sound : st.Sound (w.sameKeyAt same) (w.hashAt hash) (List.range' w.lo w.size))
    (entered : ∀ i ∈ List.range' w.lo w.size, .entered i ∈ st.users) (i : Nat) :
    w.isFirst same hash st.table i = w.holdsFirst same i := by
  have keyed := w.keyed_range equiv compat
  rw [isFirst, holdsFirst, KeyTable.firstIndex,
    sound.firstIndexFrom_eq keyed entered (keyed.oneKey i) (Nat.le_refl _)]

variable (made : KeyTable.make w.size = .ok table)
include made

omit equiv compat in
variable (same hash) in
theorem sound_entries :
    (w.entries hash table).Sound (w.sameKeyAt same) (w.hashAt hash) (List.range' w.lo w.size) :=
  KeyTable.Shared.sound_start made (by rw [List.length_range']) []

theorem isFirst_enterAll (i : Nat) :
    w.isFirst same hash (w.enterAll same hash table) i = w.holdsFirst same i := by
  have start := w.sound_entries same hash made
  obtain ⟨-, placed, stands⟩ := KeyTable.foldl_insert_grows (w.keyed_range equiv compat)
    start.placed (List.range' w.lo w.size) fun _ => id
  let st : KeyTable.Shared := ⟨w.enterAll same hash table, (List.range' w.lo w.size).map .entered⟩
  refine @isFirst_of_entered α w same hash equiv compat st ⟨placed, fun u mem => ?_⟩
    (fun i => List.mem_map_of_mem) i
  obtain ⟨j, inside, rfl⟩ := List.mem_map.mp mem
  exact ⟨_, 0, stands j inside⟩

/-- Several workers enter the indices of a window in some order of their steps. -/
theorem isFirst_run {schedule : List Nat}
    (done : ∀ u ∈ ((w.entries hash table).run (w.sameKeyAt same) schedule).users, u.isDone)
    (i : Nat) :
    w.isFirst same hash ((w.entries hash table).run (w.sameKeyAt same) schedule).table i =
      w.holdsFirst same i := by
  have start := w.sound_entries same hash made
  have sound := (start.run (w.keyed_range equiv compat) schedule).1
  refine w.isFirst_of_entered equiv compat sound (KeyTable.Shared.entered_of_run ?_) i
  intro i e mem
  cases done _ mem

end

section
variable {ε α : Type} {m : Type → Type} [Monad m] [LawfulMonad m] [Fork ε m] [Reports m]
  {w : Window α} {T : Tracking w.lo m Id}

/-- The elements at the indices for which they are asked. -/
theorem same_fetched (t : Threshold) (asked : Nat → Bool) :
    T.Same ((·.fetchAll w.get?) <$> Selection.build t (fun i => pure (asked i)) w.lo w.size)
      (((List.range' w.lo w.size).filter asked).filterMap w.get?).toArray := by
  have built : T.Rel (Selection.Follows w.lo w.size)
      (Selection.build t (fun i => pure (asked i)) w.lo w.size)
      (Selection.build (m := Id) t (fun i => pure (asked (w.lo + i))) 0 w.size) :=
    tracks_build fun i _ => T.pure rfl
  have fetched := built.map fun s s' follows => fetchAll_alone follows
  obtain ⟨sized, indices⟩ := selection_id t (fun i => asked (w.lo + i)) 0 w.size
  have elems : ((List.range' 0 w.size).filter fun i => asked (w.lo + i)).filterMap
      w.alone.whole.get? = ((List.range' w.lo w.size).filter asked).filterMap w.get? := by
    rw [indices_alone, List.filter_map, List.filterMap_map]
    refine List.filterMap_congr fun i mem => (w.get?_alone ?_).symm
    simpa using (List.mem_range'_1.mp (List.mem_of_mem_filter mem)).2
  have value := sized.fetchAll_eq w.alone.whole.get?
  rw [indices, elems] at value
  rw [← value]
  exact fetched

/-- The elements at the indices for which they are asked, as a new array. -/
theorem same_derived (t : Threshold) (asked : Nat → Bool) :
    T.Same (do
        let s ← Selection.build t (fun i => pure (asked i)) w.lo w.size
        pure (.ok (w.array.derive (s.fetchAll w.get?))))
      (Except.ok (w.array.derive
        (((List.range' w.lo w.size).filter asked).filterMap w.get?).toArray) :
          Except Failure (BulkArray α)) := by
  have derived := (same_fetched (T := T) t asked).map fun xs =>
    (Except.ok (w.array.derive xs) : Except Failure _)
  rwa [map_eq_pure_bind, bind_map_left] at derived

/-- The first element for each key. -/
theorem same_uniqueBy {same : α → α → Bool} {hash : α → UInt64}
    (equiv : Equivalence fun x y => same x y = true)
    (compat : ∀ x y, same x y → hash x = hash y) :
    T.Same (w.uniqueBy same hash) ((KeyTable.make w.size).map fun _ => w.array.derive
      (((List.range' w.lo w.size).filter (w.holdsFirst same)).filterMap w.get?).toArray) := by
  rw [uniqueBy]
  cases made : KeyTable.make w.size with
  | error e => exact T.pure rfl
  | ok table =>
    have first := funext fun i => w.isFirst_enterAll equiv compat made i
    dsimp only
    rw [first]
    exact Likeness.Rel.bind_same (g := fun _ => _) (same_begin T w .unique w.size) fun t =>
      same_derived t (w.holdsFirst same)

end

end Window

end Bisection
