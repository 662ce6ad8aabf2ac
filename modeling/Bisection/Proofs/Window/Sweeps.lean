import Bisection.Element.Kinds
import Bisection.Proofs.Alone.Indices
import Bisection.Proofs.Pieces.Concurrency
import Bisection.Proofs.Window.Loops
import Bisection.Script.Callback

/-!
# The failure that comes out of an operation

A `Sweep` is an operation that calls a function once for each element or index of a window. When
the function fails for some of them, each leaf stops at its own first failure, and the halves of a
bisection hand up one failure each. In every order of the calls the failure that comes out is that
of the lowest index (`Sweep.first_failure_wins`), which is where a plain loop stops.
-/

namespace Bisection
set_option autoImplicit false

/-! ## The first failure of a loop -/

section
variable {ε β γ : Type} {outcomes : List (Except ε Unit)} {e : ε}

theorem ending_eq_error {r : Except ε β} : ending r = .error e ↔ r = .error e := by
  cases r with
  | ok _ => exact ⟨nofun, nofun⟩
  | error e' =>
    show Except.error e' = .error e ↔ _
    rw [Except.error.injEq, Except.error.injEq]

/-- Computations with related results end alike. -/
theorem ending_eq_of_results {R : β → γ → Prop} {r : Except ε β} {r' : Except ε γ}
    (results : Results Eq R r r') : ending r = ending r' := by
  cases results with
  | ok _ => rfl
  | error same =>
    rw [same]
    rfl

/-- A plain loop ends with the first failure. -/
theorem inTurn_eq_error : inTurn outcomes = .error e ↔
    ∃ k : Nat, outcomes[k]? = some (.error e) ∧ ∀ j < k, outcomes[j]? = some (.ok ()) := by
  induction outcomes with
  | nil => exact ⟨nofun, fun ⟨k, at_k, _⟩ => nomatch at_k⟩
  | cons r rest ih =>
    cases r with
    | error e' =>
      constructor
      · rintro ⟨⟩
        exact ⟨0, rfl, nofun⟩
      · rintro ⟨k, at_k, before⟩
        cases k with
        | zero =>
          cases at_k
          rfl
        | succ k => cases before 0 (Nat.zero_lt_succ k)
    | ok _ =>
      refine ih.trans ⟨?_, ?_⟩
      · rintro ⟨k, at_k, before⟩
        refine ⟨k + 1, at_k, fun j lt => ?_⟩
        cases j with
        | zero => rfl
        | succ j => exact before j (Nat.lt_of_succ_lt_succ lt)
      · rintro ⟨k, at_k, before⟩
        cases k with
        | zero => cases at_k
        | succ k => exact ⟨k, at_k, fun j lt => before (j + 1) (Nat.succ_lt_succ lt)⟩

/-- A plain loop fails if something in it does. -/
theorem inTurn_fails : (∃ e, inTurn outcomes = .error e) ↔ ∃ e, .error e ∈ outcomes := by
  induction outcomes with
  | nil => exact ⟨nofun, fun ⟨_, mem⟩ => nomatch mem⟩
  | cons r rest ih =>
    cases r with
    | error e => exact ⟨fun _ => ⟨e, List.mem_cons_self⟩, fun _ => ⟨e, rfl⟩⟩
    | ok _ =>
      refine ih.trans (exists_congr fun e => ?_)
      rw [List.mem_cons]
      exact ⟨.inr, fun mem => mem.resolve_left nofun⟩

end

/-! ## Sweeps -/

/-- The arguments of a call. -/
inductive CallOn (α β : Type) where
  | element (x : α)
  | index (i : Nat)
  | pair (x : α) (y : β)

/-- An operation that calls a function once for each element or index of a window. -/
inductive Sweep (ε α β : Type) where
  | forEach (f : α → Except ε Unit)
  | replaceWith (f : α → Except ε α)
  | replaceWithIndex (f : Nat → Except ε α)
  | replaceWithCombined (other : Store β) (f : α → β → Except ε α)
  | map (f : α → Except ε β)
  | select (p : α → Except ε Bool)
  | appendSelected (p : α → Except ε Bool) (dest : Store α)
  | retain (p : α → Except ε Bool)
  | removeAll (p : α → Except ε Bool)

namespace Sweep

section
variable {ε α β : Type}

/-- What an operation gives. -/
def Given : Sweep ε α β → Type
  | forEach _ => Unit
  | replaceWith _ | replaceWithIndex _ | retain _ | removeAll _ => Window α
  | replaceWithCombined _ _ => Except Failure (Window α)
  | map _ => BulkArray β
  | select _ => BulkArray α
  | appendSelected _ _ => Store α

/-- How the function ends for each of the elements or indices from `lo` on, in order. An operation
that is refused does not call it. -/
def outcomes (lo : Nat) (xs : List α) : Sweep ε α β → List (Except ε Unit)
  | forEach f => xs.map f
  | replaceWith f => xs.map fun x => ending (f x)
  | replaceWithIndex f => (List.range' lo xs.length).map fun i => ending (f i)
  | replaceWithCombined other f =>
    if other.size < xs.length then []
    else (xs.zip other.toList).map fun p => ending (f p.1 p.2)
  | map f => xs.map fun x => ending (f x)
  | select p | appendSelected p _ | retain p | removeAll p => xs.map fun x => ending (p x)

/-- Whether a predicate holds for an element. -/
def accepts (p : α → Except ε Bool) (x : α) : Bool :=
  match p x with
  | .ok hit => hit
  | .error _ => false

/-- What is done with the number of elements that a plain loop finds. -/
theorem chosen_then (p : α → Except ε Bool) (next : Nat → Except ε Unit) (xs : List α) :
    (do let n ← List.length <$> chosen p xs; next n) =
      (do inTurn (xs.map fun x => ending (p x)); next (xs.countP (accepts p))) := by
  induction xs generalizing next with
  | nil => rfl
  | cons x xs ih =>
    rw [length_chosen_cons, List.map_cons, inTurn, List.countP_cons, accepts]
    cases p x with
    | error e => rfl
    | ok hit =>
      show (do
        let n ← (fun n => if hit then n + 1 else n) <$> (List.length <$> chosen p xs)
        next n) = _
      rw [bind_map_left, ih]
      cases hit <;> rfl

/-- The operation on the elements alone: a function of indices is told the greater ones. -/
def moved (d : Nat) : Sweep ε α β → Sweep ε α β
  | replaceWithIndex f => replaceWithIndex fun i => f (d + i)
  | s => s

theorem outcomes_moved (d : Nat) (xs : List α) (s : Sweep ε α β) :
    (s.moved d).outcomes 0 xs = s.outcomes d xs := by
  cases s with
  | replaceWithIndex f =>
    show (List.range' 0 xs.length).map (fun i => ending (f (d + i))) =
      (List.range' d xs.length).map fun i => ending (f i)
    rw [← Nat.add_zero d, ← List.map_add_range', List.map_map]
    rfl
  | _ => rfl

end

variable {ε α β : Type} [RoomFailure ε] [Cell α] [Cell β]

/-- Runs an operation, where `call` calls its function. -/
def run {m : Type → Type} [Monad m] [Fork ε m] [Reports m]
    (call : {γ : Type} → CallOn α β → Except ε γ → m γ) (w : Window α) :
    (s : Sweep ε α β) → m s.Given
  | forEach f => w.forEach fun x => call (.element x) (f x)
  | replaceWith f => w.replaceWith fun x => call (.element x) (f x)
  | replaceWithIndex f => w.replaceWithIndex fun i => call (.index i) (f i)
  | replaceWithCombined other f =>
    w.replaceWithCombined other fun x y => call (.pair x y) (f x y)
  | map f => w.map fun x => call (.element x) (f x)
  | select p => w.select fun x => call (.element x) (p x)
  | appendSelected p dest => w.appendSelected (fun x => call (.element x) (p x)) dest
  | retain p => w.retain fun x => call (.element x) (p x)
  | removeAll p => w.removeAll fun x => call (.element x) (p x)

/-- Whether there is room for the new array or the table of `n` indices that an operation makes
before it calls its function. -/
def hasTable (n : Nat) : Sweep ε α β → Bool
  | map _ => hasRoom n (Cell.bytes β)
  | select _ | appendSelected _ _ | retain _ | removeAll _ => hasRoom n indexBytes
  | _ => true

/-- Whether there is room for the elements that an operation selects, after it has called its
function. -/
def hasPlace (xs : List α) : Sweep ε α β → Bool
  | select p => hasRoom (xs.countP (accepts p)) (Cell.bytes α)
  | appendSelected p dest => hasRoom (dest.size + xs.countP (accepts p)) (Cell.bytes α)
  | _ => true

/-- The failure for lack of room, if there is none. -/
def claimed (room : Bool) : Except ε Unit := if room then .ok () else .error RoomFailure.noRoom

/-- A sweep with calls that are not written down is a plain loop between two claims. -/
theorem ending_run (s : Sweep ε α β) (w : Window α) :
    ending (s.run (fun _ r => r) w : Except ε s.Given) = (do
      claimed (s.hasTable w.size)
      inTurn (s.outcomes w.lo (w.upTo w.hi))
      claimed (s.hasPlace (w.upTo w.hi))) := by
  have silent (n : Notice) : Reports.note n = (pure () : Except ε Unit) := rfl
  have unclaimed (x : Except ε Unit) : x = (do claimed true; x; claimed true) :=
    (bind_pure_unit (x := x)).symm
  cases s with
  | forEach f =>
    show ending (w.forEach f) = _
    rw [ending_unit, w.forEach_loop silent]
    exact unclaimed _
  | replaceWith f =>
    show ending (w.replaceWith f) = _
    rw [w.replaceWith_loop silent, ending_map, ending_mapM]
    exact unclaimed _
  | replaceWithIndex f =>
    show ending (w.replaceWithIndex f) = _
    rw [w.replaceWithIndex_loop silent, ending_map, ending_mapM, outcomes, w.length_upTo]
    exact unclaimed _
  | replaceWithCombined other f =>
    show ending (w.replaceWithCombined other f) = _
    rw [outcomes, w.length_upTo]
    by_cases short : other.size < w.size
    · rw [if_pos short, Window.replaceWithCombined, if_pos short]
      rfl
    · rw [if_neg short, w.replaceWithCombined_loop silent (Nat.not_lt.mp short), ending_map,
        ending_mapM]
      exact unclaimed _
  | map f =>
    show ending (w.map f) = _
    rw [w.map_loop silent, ending_bind]
    refine bind_congr fun _ => ?_
    rw [ending_map, ending_mapM]
    exact (bind_pure_unit (x := inTurn _)).symm
  | select p =>
    show ending (w.select p) = _
    rw [Window.select, ending_map, w.ending_selected silent]
    simp only [Nat.zero_add]
    exact bind_congr fun _ => chosen_then p (fun n => claimRoom n (Cell.bytes α)) _
  | appendSelected p dest =>
    show ending (w.appendSelected p dest) = _
    rw [Window.appendSelected, ending_map, w.ending_selected silent]
    exact bind_congr fun _ => chosen_then p (fun n => claimRoom (dest.size + n) (Cell.bytes α)) _
  | retain p =>
    show ending (w.retain p) = _
    rw [Window.retain, w.ending_keepIndices silent]
    exact bind_congr fun _ => (bind_pure_unit (x := inTurn _)).symm
  | removeAll p =>
    show ending (w.removeAll p) = _
    rw [Window.removeAll, w.ending_keepIndices silent]
    simp only [ending_map]
    exact bind_congr fun _ => (bind_pure_unit (x := inTurn _)).symm

/-- Every run of a sweep on a window ends as the same sweep does on the elements alone, without
forks. -/
theorem tracks_run (s : Sweep ε α β) (w : Window α) :
    (Concurrent.tracking w.lo).Rel (fun _ _ => True)
      (s.run Concurrent.call w : Concurrent (CallOn α β) ε s.Given)
      ((s.moved w.lo).run (fun _ r => r) w.alone.whole : Except ε (s.moved w.lo).Given) := by
  have same {γ : Type} (on : CallOn α β) (r : Except ε γ) :
      (Concurrent.tracking w.lo).Same (Concurrent.call on r) r := Concurrent.same_call on r
  have any {γ δ : Type} {R : γ → δ → Prop} {x : Concurrent (CallOn α β) ε γ} {y : Except ε δ}
      (rel : (Concurrent.tracking w.lo).Rel R x y) :
      (Concurrent.tracking w.lo).Rel (fun _ _ => True) x y := rel.mono fun _ _ _ => trivial
  cases s with
  | forEach f => exact any (Window.tracks_forEach fun x => same _ (f x))
  | replaceWith f => exact any (Window.tracks_replaceWith fun x => same _ (f x))
  | replaceWithIndex f => exact any (Window.tracks_replaceWithIndex fun i => same _ (f (w.lo + i)))
  | replaceWithCombined other f =>
    exact any (Window.tracks_replaceWithCombined fun x y => same _ (f x y))
  | map f => exact any (Window.tracks_map (fun _ => rfl) fun x => same _ (f x))
  | select p => exact any (Window.tracks_select rfl fun x => same _ (p x))
  | appendSelected p dest => exact any (Window.tracks_appendSelected rfl fun x => same _ (p x))
  | retain p => exact any (Window.tracks_retain (fun _ => rfl) fun x => same _ (p x))
  | removeAll p => exact any (Window.tracks_removeAll (fun _ => rfl) fun x => same _ (p x))

/-- Without room for what it makes before, a sweep does not call its function. -/
theorem run_of_no_room {s : Sweep ε α β} {w : Window α} (short : s.hasTable w.size = false) :
    (s.run Concurrent.call w : Concurrent (CallOn α β) ε s.Given) =
      Fork.raise RoomFailure.noRoom := by
  have silent (n : Notice) : Reports.note n = (pure () : Concurrent (CallOn α β) ε Unit) := rfl
  cases s with
  | map f => exact w.map_of_no_room silent short _
  | select p => exact w.select_of_no_room silent short _
  | appendSelected p dest => exact w.appendSelected_of_no_room silent short _ dest
  | retain p => exact w.keepIndices_of_no_room silent short _ _
  | removeAll p => exact w.keepIndices_of_no_room silent short _ _
  | _ => cases short

/-- In every order of the calls, with any threshold and any number of workers: an operation fails
if and only if its function fails for some element or index of the window, and then with the
failure for the lowest of them, where a plain loop from left to right stops. Besides, it fails for
lack of room: before any call, if there is none for its new array or its table of indices, and
after all of them, if none of them fails and there is none for what is selected. -/
theorem first_failure_wins (s : Sweep ε α β) (w : Window α) :
    let xs := w.upTo w.hi
    let outcomes := s.outcomes w.lo xs
    (∃ calls r, s.run Concurrent.call w calls r) ∧
    ∀ calls r, s.run Concurrent.call w calls r →
      (s.hasTable w.size = false → calls = [] ∧ r = .error RoomFailure.noRoom) ∧
      (s.hasTable w.size = true → (s.hasPlace xs = true ∨ ∃ e, .error e ∈ outcomes) →
        ((∃ e, r = .error e) ↔ ∃ e, .error e ∈ outcomes) ∧
        (∀ e, r = .error e ↔
          ∃ k : Nat, outcomes[k]? = some (.error e) ∧ ∀ j < k, outcomes[j]? = some (.ok ())) ∧
        ending r = inTurn outcomes) ∧
      (s.hasTable w.size = true → s.hasPlace xs = false → (∀ e, .error e ∉ outcomes) →
        r = .error RoomFailure.noRoom) := by
  intro xs outcomes
  obtain ⟨exists_run, each⟩ := s.tracks_run w
  refine ⟨exists_run, fun calls r run => ?_⟩
  have alone : w.alone.whole.upTo w.alone.whole.hi = xs := by
    rw [← Window.toList_part, w.part_alone, Window.toList_part]
  have table : (s.moved w.lo).hasTable w.alone.whole.size = s.hasTable w.size := by
    rw [w.size_alone]
    cases s <;> rfl
  have place : (s.moved w.lo).hasPlace xs = s.hasPlace xs := by cases s <;> rfl
  have loop : ending r = (do
      claimed (s.hasTable w.size)
      inTurn outcomes
      claimed (s.hasPlace xs)) := by
    have moved : (s.moved w.lo).outcomes 0 xs = outcomes := outcomes_moved w.lo xs s
    rw [ending_eq_of_results (each calls r run), ending_run, alone, table, place, ← moved]
    rfl
  refine ⟨fun short => ?_, fun room placed => ?_, fun room full returns => ?_⟩
  · rw [run_of_no_room short] at run
    exact run
  · have plain : ending r = inTurn outcomes := by
      rw [loop, room]
      rcases placed with placed | fails
      · rw [placed]
        exact bind_pure_unit (x := inTurn outcomes)
      · obtain ⟨e, failed⟩ := inTurn_fails.mpr fails
        show (do inTurn outcomes; claimed _) = inTurn outcomes
        rw [failed]
        rfl
    have failure (e : ε) : r = .error e ↔ inTurn outcomes = .error e := by
      rw [← plain, ending_eq_error]
    refine ⟨?_, fun e => (failure e).trans inTurn_eq_error, plain⟩
    rw [← inTurn_fails]
    exact exists_congr failure
  · have returned : inTurn outcomes = .ok () := by
      cases ended : inTurn outcomes with
      | ok _ => rfl
      | error e =>
        obtain ⟨e', mem⟩ := inTurn_fails.mp ⟨e, ended⟩
        exact absurd mem (returns e')
    rw [room, full, returned] at loop
    exact ending_eq_error.mp loop

/-- The function fails for the second and the third of three letters, each of them in a part of its
own. Every run ends with the failure for the second. -/
theorem first_failure_wins_second :
    let f (x : Char) : Except Abort Char :=
      if x = 'b' then .error ⟨"second"⟩ else if x = 'c' then .error ⟨"third"⟩ else .ok x
    let s : Sweep Abort Char Char := .map f
    let w : Window Char :=
      ⟨⟨default, some ⟨1, Nat.one_pos⟩, .cells #['b', 'a', 'b', 'c', 'b']⟩, 1, 4, by decide,
        by decide⟩
    (∃ calls r, s.run Concurrent.call w calls r) ∧
      ∀ calls r, s.run Concurrent.call w calls r → r = .error ⟨"second"⟩ := by
  intro f s w
  obtain ⟨runs, each⟩ := first_failure_wins s w
  refine ⟨runs, fun calls r run => ?_⟩
  obtain ⟨-, fails, -⟩ := each calls r run
  obtain ⟨-, lowest, -⟩ := fails (by decide) (.inl rfl)
  refine (lowest ⟨"second"⟩).mpr ⟨1, rfl, fun j before => ?_⟩
  rw [Nat.lt_one_iff.mp before]
  rfl

/-- There are so many units that there is no room for a table of their indices: to retain them all
fails, though the predicate does not. -/
theorem retain_lacks_room :
    let s : Sweep Abort Unit Unit := .retain fun _ => .ok true
    let w := Window.countless
    (∀ e, .error e ∉ s.outcomes w.lo (w.upTo w.hi)) ∧
      (s.run Concurrent.call w : Concurrent (CallOn Unit Unit) Abort s.Given).Always
        fun calls r => calls = [] ∧ r = .error .noRoom := by
  intro s w
  refine ⟨fun e mem => ?_, ?_⟩
  · obtain ⟨x, -, eq⟩ := List.mem_map.mp mem
    cases eq
  · have fails := run_of_no_room (s := s) (w := w) Window.countless_short
    rw [fails]
    exact Concurrent.always_ends ⟨rfl, rfl⟩

end Sweep

end Bisection
