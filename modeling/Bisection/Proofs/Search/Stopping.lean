import Bisection.Proofs.Window.Matches
import Bisection.Script.Journal

/-!
# Where a single worker stops

A worker that searches alone goes from left to right, whatever the threshold. It stops where a plain
loop does, at the first index that matches or that the predicate fails on. After a match nothing
more is asked: each half that is left finds the cell set. After a failure the halves that are left
are searched all the same. They may set the cell or fail too, but the leftmost failure wins over
both.
-/

namespace Bisection
set_option autoImplicit false

namespace Watched
variable {β γ : Type} {x : Watched β} {f : β → Watched γ} {b : β} {e : Abort} {xs ys : List Nat}

/-- A computation asks about these indices one after the other and ends like this, whatever the
journal says before. -/
def Asks (x : Watched β) (indices : List Nat) (r : Except Abort β) : Prop :=
  ∀ j, ∃ j', (ExceptT.run x).run j = (r, j') ∧
    j'.arguments.toList = j.arguments.toList ++ indices.map .index

theorem asks_pure (b : β) : (pure b : Watched β).Asks [] (.ok b) :=
  fun j => ⟨j, rfl, (List.append_nil _).symm⟩

theorem asks_note (n : Notice) : (Reports.note n : Watched Unit).Asks [] (.ok ()) :=
  fun _ => ⟨_, rfl, (List.append_nil _).symm⟩

theorem run_bind {r : Except Abort β} {j j' : Journal} (ran : (ExceptT.run x).run j = (r, j')) :
    (ExceptT.run (x >>= f)).run j = (ExceptT.bindCont f r).run j' := by
  show StateT.run (ExceptT.run x >>= ExceptT.bindCont f) j = _
  rw [StateT.run_bind, ran]
  rfl

/-- Indices are asked for in the order in which the parts are run. -/
theorem Asks.bind {r : Except Abort γ} (first : x.Asks xs (.ok b)) (next : (f b).Asks ys r) :
    (x >>= f).Asks (xs ++ ys) r := by
  intro j
  obtain ⟨j', ran, told⟩ := first j
  obtain ⟨j'', ran', told'⟩ := next j'
  refine ⟨j'', (run_bind ran).trans ran', ?_⟩
  rw [told', told, List.map_append, List.append_assoc]

/-- After a failure nothing is asked any more. -/
theorem Asks.bind_fails (first : x.Asks xs (.error e)) : (x >>= f).Asks xs (.error e) := by
  intro j
  obtain ⟨j', ran, told⟩ := first j
  exact ⟨j', run_bind ran, told⟩

/-- A failure that is waited for was asked for like any other result. -/
theorem Asks.attempt {r : Except Abort β} (asks : x.Asks xs r) :
    (Fork.attempt x : Watched _).Asks xs (.ok r) := by
  intro j
  obtain ⟨j', ran, told⟩ := asks j
  refine ⟨j', ?_, told⟩
  show StateT.run (Except.ok <$> ExceptT.run x) j = _
  rw [StateT.run_map, ran]
  rfl

theorem asks_raise (e : Abort) : (Fork.raise e : Watched β).Asks [] (.error e) :=
  fun j => ⟨j, rfl, (List.append_nil _).symm⟩

/-- A predicate with all its calls taken down. -/
abbrev asking (p : Nat → Except Abort Bool) : Nat → Watched Bool := onIndex ⟨true, true⟩ p

/-- A call of the predicate asks for one index. -/
theorem asks_asking (p : Nat → Except Abort Bool) (i : Nat) : (asking p i).Asks [i] (p i) := by
  intro j
  refine ⟨{ j with calls := j.calls + 1, arguments := j.arguments.push (.index i) }, rfl, ?_⟩
  exact Array.toList_push

end Watched

open Watched

section
variable {p : Nat → Except Abort Bool} {t : Threshold} {lo hi n i : Nat} {e : Abort}

/-! ## The plain loop -/

/-- Whether a plain loop ends at an index, with a match or with a failure. -/
def stops (p : Nat → Except Abort Bool) (i : Nat) : Bool :=
  match p i with
  | .ok hit => hit
  | .error _ => true

theorem stops_eq_false_iff : stops p i = false ↔ p i = .ok false := by
  rw [stops]
  cases p i with
  | error e => exact ⟨nofun, nofun⟩
  | ok hit => rw [Except.ok.injEq]

/-- The first index of `n` from `lo` on at which a plain loop ends, if there is one. -/
def firstStop (p : Nat → Except Abort Bool) (lo n : Nat) : Option Nat :=
  (List.range' lo n).find? (stops p)

/-- The loop stops at the lowest index that is not passed. -/
theorem firstStop_eq_some_iff : firstStop p lo (hi - lo) = some i ↔
    lo ≤ i ∧ i < hi ∧ p i ≠ .ok false ∧ ∀ k, lo ≤ k → k < i → p k = .ok false := by
  have inside : i ∈ List.range' lo (hi - lo) ↔ lo ≤ i ∧ i < hi := by
    rw [List.mem_range'_1]
    omega
  rw [firstStop, List.find?_range'_eq_some, inside, ← Bool.not_eq_false, stops_eq_false_iff]
  simp only [Bool.not_eq_true', stops_eq_false_iff]
  tauto

/-- The loop passes all indices of a range that has none to stop at. -/
theorem firstStop_eq_none_iff :
    firstStop p lo (hi - lo) = none ↔ ∀ k, lo ≤ k → k < hi → p k = .ok false := by
  have inside (k : Nat) (above : lo ≤ k) : k < lo + (hi - lo) ↔ k < hi := by omega
  rw [firstStop, List.find?_range'_eq_none]
  simp +contextual only [Bool.not_eq_true', stops_eq_false_iff, inside]

theorem le_of_firstStop (stop : firstStop p lo n = some i) : lo ≤ i :=
  (List.mem_range'_1.mp (List.mem_of_find?_eq_some stop)).1

/-- The loop over a range stops in its left half, or else where it stops in the right one. -/
theorem firstStop_halves (lo n : Nat) : firstStop p lo n =
    (firstStop p lo (n / 2)).or (firstStop p (lo + n / 2) (n - n / 2)) := by
  rw [firstStop, range'_halves lo n, List.find?_append]
  rfl

theorem firstStop_of_left (stop : firstStop p lo (n / 2) = some i) : firstStop p lo n = some i := by
  rw [firstStop_halves, stop, Option.some_or]

theorem firstStop_of_right (passed : firstStop p lo (n / 2) = none) :
    firstStop p lo n = firstStop p (lo + n / 2) (n - n / 2) := by
  rw [firstStop_halves, passed, Option.none_or]

/-- An index of a range fits into a cell. -/
theorem get_ofFirst_firstStop (small : lo + n ≤ maxSize) :
    (MatchCell.ofFirst (firstStop p lo n)).get = firstStop p lo n :=
  MatchCell.get_ofFirst small

/-- The result of a plain loop that ends at this index, or at the end of its range. -/
def stopped (p : Nat → Except Abort Bool) : Option Nat → Except Abort (Option Nat)
  | none => .ok none
  | some i => (p i).map fun _ => some i

theorem found_of_stopped {stop found : Option Nat} (ends : stopped p stop = .ok found) :
    found = stop := by
  cases stop with
  | none => exact (Except.ok.inj ends).symm
  | some i =>
    rw [stopped] at ends
    cases outcome : p i with
    | error e =>
      rw [outcome] at ends
      cases ends
    | ok hit =>
      rw [outcome] at ends
      exact (Except.ok.inj ends).symm

/-- The indices from `lo` on that a plain loop asks about, of `n` in all. -/
def askedUntil (lo n : Nat) (stop : Option Nat) : List Nat :=
  List.range' lo (stop.elim n (· + 1 - lo))

/-- What was asked about in a left part without a stop, and then in the rest. -/
theorem askedUntil_append {d : Nat} (le : d ≤ n) {stop : Option Nat}
    (beyond : ∀ i, stop = some i → lo + d ≤ i) :
    askedUntil lo d none ++ askedUntil (lo + d) (n - d) stop = askedUntil lo n stop := by
  obtain ⟨k, asked, later⟩ : ∃ k, stop.elim n (· + 1 - lo) = d + k ∧
      stop.elim (n - d) (· + 1 - (lo + d)) = k := by
    cases stop with
    | none => exact ⟨n - d, (Nat.add_sub_cancel' le).symm, rfl⟩
    | some i =>
      have above := beyond i rfl
      refine ⟨i + 1 - (lo + d), ?_, rfl⟩
      show i + 1 - lo = d + (i + 1 - (lo + d))
      omega
  rw [askedUntil, askedUntil, askedUntil, asked, later]
  exact List.range'_append_1

theorem askedUntil_firstStop {d : Nat} (le : d ≤ n) (m : Nat) :
    askedUntil lo d none ++ askedUntil (lo + d) (n - d) (firstStop p (lo + d) m) =
      askedUntil lo n (firstStop p (lo + d) m) :=
  askedUntil_append le fun _ => le_of_firstStop

/-- A loop over a leaf asks for the indices up to where it stops. -/
theorem asks_firstMatch (p : Nat → Except Abort Bool) (lo n : Nat) :
    (firstMatch (asking p) lo (lo + n)).Asks (askedUntil lo n (firstStop p lo n))
      (stopped p (firstStop p lo n)) := by
  induction n generalizing lo with
  | zero =>
    rw [firstMatch_of_le _ (Nat.le_of_eq (Nat.add_zero lo))]
    exact asks_pure none
  | succ n ih =>
    have here : firstStop p lo (n + 1) =
        if stops p lo then some lo else firstStop p (lo + 1) n := by
      rw [firstStop, List.range'_succ, List.find?_cons]
      cases stops p lo <;> rfl
    have only : askedUntil lo (n + 1) (some lo) = [lo] := by
      rw [askedUntil, show Option.elim (some lo) (n + 1) (· + 1 - lo) = 1 by
        show lo + 1 - lo = 1
        omega]
      rfl
    rw [firstMatch_of_lt _ (by omega), here, stops]
    have asked := asks_asking p lo
    cases outcome : p lo with
    | error e =>
      rw [outcome] at asked
      rw [if_pos rfl, only, stopped, outcome]
      exact asked.bind_fails
    | ok hit =>
      rw [outcome] at asked
      cases hit with
      | true =>
        rw [if_pos rfl, only, stopped, outcome]
        exact asked.bind (asks_pure (some lo))
      | false =>
        have rest := ih (lo + 1)
        rw [Nat.add_assoc, Nat.add_comm 1 n] at rest
        rw [if_neg Bool.false_ne_true, ← askedUntil_firstStop (Nat.le_add_left 1 n)]
        exact asked.bind rest

/-! ## The search -/

/-- A leaf that stops at a match stores it, and one that stops nowhere leaves the cell empty. -/
theorem asks_searchLeaf {found : Option Nat} (ends : stopped p (firstStop p lo n) = .ok found) :
    (searchLeaf (asking p) lo (lo + n) .empty).Asks (askedUntil lo n (firstStop p lo n))
      (.ok (.ofFirst found, none)) := by
  have loop := (asks_firstMatch p lo n).attempt
  rw [ends] at loop
  rw [← List.append_nil (askedUntil _ _ _)]
  refine loop.bind ?_
  cases found with
  | none => exact asks_pure _
  | some i => exact (asks_note _).bind (asks_pure _)

/-- A leaf that stops at a failure leaves the cell as it was. -/
theorem asks_searchLeaf_fails (ends : stopped p (firstStop p lo n) = .error e) (cell : MatchCell) :
    (searchLeaf (asking p) lo (lo + n) cell).Asks (askedUntil lo n (firstStop p lo n))
      (.ok (cell, some e)) := by
  have loop := (asks_firstMatch p lo n).attempt
  rw [ends] at loop
  rw [← List.append_nil (askedUntil _ _ _)]
  exact loop.bind (asks_pure _)

/-- Nothing is asked about a range that is left out. -/
theorem asks_searchRange_set {cell : MatchCell} (set : cell.isSet) (lo hi : Nat) :
    (searchRange t (searchLeaf (asking p)) lo hi cell).Asks [] (.ok (cell, none)) := by
  rw [searchRange, if_pos set]
  exact (asks_note _).bind (asks_pure _)

theorem searchRange_of_le {cell : MatchCell} (unset : cell.isSet = false) (short : n ≤ t.val) :
    searchRange t (searchLeaf (asking p)) lo (lo + n) cell =
      searchLeaf (asking p) lo (lo + n) cell := by
  have short' : lo + n - lo ≤ t.val := by rwa [Nat.add_sub_cancel_left]
  rw [searchRange, unset, if_neg Bool.false_ne_true, dif_pos short']

/-- The halves of a range that is reached before a match was found, one after the other. -/
theorem asks_searchRange_halves {cell : MatchCell} {left right : MatchCell × Option Abort}
    {xs ys : List Nat} (unset : cell.isSet = false) (long : ¬ n ≤ t.val)
    (first : (searchRange t (searchLeaf (asking p)) lo (lo + n / 2) cell).Asks xs (.ok left))
    (second : (searchRange t (searchLeaf (asking p)) (lo + n / 2)
      (lo + n / 2 + (n - n / 2)) left.1).Asks ys (.ok right)) :
    (searchRange t (searchLeaf (asking p)) lo (lo + n) cell).Asks (xs ++ ys)
      (.ok (right.1, left.2 <|> right.2)) := by
  have whole : lo + n / 2 + (n - n / 2) = lo + n := by omega
  have long' : ¬ lo + n - lo ≤ t.val := by rwa [Nat.add_sub_cancel_left]
  rw [whole] at second
  rw [searchRange, unset, if_neg Bool.false_ne_true, dif_neg long', Nat.add_sub_cancel_left,
    ← List.append_nil ys]
  exact first.bind (second.bind (asks_pure _))

/-- Each search comes to an end without failing, even if the predicate fails. -/
theorem exists_asks_searchRange (t : Threshold) (p : Nat → Except Abort Bool) (lo n : Nat)
    (cell : MatchCell) : ∃ xs result,
      (searchRange t (searchLeaf (asking p)) lo (lo + n) cell).Asks xs (.ok result) := by
  induction n using Nat.strongRecOn generalizing lo cell with
  | ind n ih =>
    cases unset : cell.isSet with
    | true => exact ⟨_, _, asks_searchRange_set unset _ _⟩
    | false =>
      by_cases short : n ≤ t.val
      · rw [searchRange_of_le unset short]
        have loop := (asks_firstMatch p lo n).attempt
        cases ends : stopped p (firstStop p lo n) with
        | error e => exact ⟨_, _, asks_searchLeaf_fails ends cell⟩
        | ok found =>
          rw [ends] at loop
          cases found with
          | none => exact ⟨_, _, loop.bind (asks_pure _)⟩
          | some i => exact ⟨_, _, loop.bind ((asks_note _).bind (asks_pure _))⟩
      · have two := Threshold.two_le short
        obtain ⟨xs, left, first⟩ := ih (n / 2) (by omega) lo cell
        obtain ⟨ys, right, second⟩ := ih (n - n / 2) (by omega) (lo + n / 2) left.1
        exact ⟨_, _, asks_searchRange_halves unset short first second⟩

/-- A search asks what the plain loop asks if that comes to an end without a failure. -/
theorem asks_searchRange (small : lo + n ≤ maxSize) {found : Option Nat}
    (ends : stopped p (firstStop p lo n) = .ok found) :
    (searchRange t (searchLeaf (asking p)) lo (lo + n) .empty).Asks
      (askedUntil lo n (firstStop p lo n)) (.ok (.ofFirst found, none)) := by
  induction n using Nat.strongRecOn generalizing lo found with
  | ind n ih =>
    by_cases short : n ≤ t.val
    · rw [searchRange_of_le rfl short]
      exact asks_searchLeaf ends
    · have two := Threshold.two_le short
      have left := fun found => @ih (n / 2) (by omega) lo (by omega) found
      cases stop : firstStop p lo (n / 2) with
      | none =>
        rw [firstStop_of_right stop] at ends ⊢
        rw [stop] at left
        rw [← askedUntil_firstStop (Nat.div_le_self n 2)]
        exact asks_searchRange_halves rfl short (left none rfl) (ih _ (by omega) (by omega) ends)
      | some i =>
        rw [firstStop_of_left stop] at ends ⊢
        rw [stop] at left
        obtain rfl : found = some i := found_of_stopped ends
        -- The match is in the cell by now, so that the right half is left out.
        have set : (MatchCell.ofFirst (some i)).isSet := by
          rw [MatchCell.isSet_eq, ← stop, get_ofFirst_firstStop (by omega), stop]
          rfl
        have both := asks_searchRange_halves rfl short (left _ ends) (asks_searchRange_set set _ _)
        rwa [List.append_nil] at both

/-- A search fails with the failure that ends the plain loop. The right halves may set the cell. -/
theorem asks_searchRange_fails (small : lo + n ≤ maxSize) (t : Threshold)
    (ends : stopped p (firstStop p lo n) = .error e) :
    ∃ xs cell, (searchRange t (searchLeaf (asking p)) lo (lo + n) .empty).Asks xs
      (.ok (cell, some e)) := by
  induction n using Nat.strongRecOn generalizing lo with
  | ind n ih =>
    by_cases short : n ≤ t.val
    · rw [searchRange_of_le rfl short]
      exact ⟨_, _, asks_searchLeaf_fails ends .empty⟩
    · have two := Threshold.two_le short
      cases stop : firstStop p lo (n / 2) with
      | none =>
        have ends' : stopped p (firstStop p lo (n / 2)) = .ok none := by
          rw [stop]
          rfl
        have left := asks_searchRange (t := t) (by omega) ends'
        rw [firstStop_of_right stop] at ends
        obtain ⟨ys, cell, right⟩ := ih _ (by omega) (by omega) ends
        exact ⟨_, cell, asks_searchRange_halves rfl short left right⟩
      | some i =>
        rw [firstStop_of_left stop, ← stop] at ends
        -- The right half starts with whatever cell the failed left half leaves.
        obtain ⟨xs, cell, left⟩ := ih (n / 2) (by omega) (by omega) ends
        obtain ⟨ys, right, second⟩ := exists_asks_searchRange t p (lo + n / 2) (n - n / 2) cell
        have both := asks_searchRange_halves rfl short left second
        exact ⟨xs ++ ys, right.1, both⟩

theorem asks_findAny_of_le (empty : hi ≤ lo) (t : Threshold) (p : Nat → Except Abort Bool) :
    (findAny t (asking p) lo hi).Asks [] (.ok none) := by
  have short : hi - lo ≤ t.val := Nat.sub_eq_zero_of_le empty ▸ Nat.zero_le t.val
  have nothing : (firstMatch (asking p) lo hi).Asks [] (.ok none) := by
    rw [firstMatch_of_le _ empty]
    exact asks_pure none
  have leaf : (searchLeaf (asking p) lo hi .empty).Asks ([] ++ []) (.ok (.empty, none)) := by
    refine nothing.attempt.bind ?_
    exact asks_pure _
  rw [findAny, searchRange, MatchCell.isSet_empty, if_neg Bool.false_ne_true, dif_pos short,
    ← List.append_nil []]
  refine leaf.bind ?_
  exact asks_pure none

/-- A search ends as the plain loop does. If it does not fail, it asks what the plain loop asks. -/
theorem asks_findAny (lo : Nat) (small : hi ≤ maxSize) (t : Threshold)
    (p : Nat → Except Abort Bool) :
    ∃ xs, (findAny t (asking p) lo hi).Asks xs (stopped p (firstStop p lo (hi - lo))) ∧
      ∀ found, stopped p (firstStop p lo (hi - lo)) = .ok found →
        xs = askedUntil lo (hi - lo) found := by
  rcases Nat.le_total hi lo with empty | range
  · rw [Nat.sub_eq_zero_of_le empty]
    refine ⟨[], asks_findAny_of_le empty t p, fun found ends => ?_⟩
    rw [found_of_stopped ends]
    rfl
  · obtain ⟨n, rfl⟩ := Nat.exists_eq_add_of_le range
    rw [Nat.add_sub_cancel_left]
    cases ends : stopped p (firstStop p lo n) with
    | error e =>
      obtain ⟨xs, cell, search⟩ := asks_searchRange_fails small t ends
      exact ⟨_, search.bind (asks_raise e), nofun⟩
    | ok found =>
      obtain rfl := found_of_stopped ends
      have answer : (findAny t (asking p) lo (lo + n)).Asks
          (askedUntil lo n (firstStop p lo n) ++ [])
          (.ok (MatchCell.ofFirst (firstStop p lo n)).get) :=
        (asks_searchRange small ends).bind (asks_pure _)
      rw [get_ofFirst_firstStop small, List.append_nil] at answer
      refine ⟨_, answer, fun found same => ?_⟩
      rw [Except.ok.inj same]

/-! ## How the plain loop ends -/

/-- The loop finds the lowest match, if it fails for no index before it. -/
theorem stopped_eq_match_iff : stopped p (firstStop p lo (hi - lo)) = .ok (some i) ↔
    lo ≤ i ∧ i < hi ∧ p i = .ok true ∧ ∀ k, lo ≤ k → k < i → p k = .ok false := by
  constructor
  · intro ends
    have stop : firstStop p lo (hi - lo) = some i := (found_of_stopped ends).symm
    obtain ⟨above, below, stops, before⟩ := firstStop_eq_some_iff.mp stop
    rw [stop, stopped] at ends
    refine ⟨above, below, ?_, before⟩
    cases outcome : p i with
    | error e =>
      rw [outcome] at ends
      cases ends
    | ok hit =>
      cases hit with
      | true => rfl
      | false => exact absurd outcome stops
  · rintro ⟨above, below, hit, before⟩
    have stops : p i ≠ .ok false := by
      intro skip
      rw [hit] at skip
      cases skip
    have stop : firstStop p lo (hi - lo) = some i :=
      firstStop_eq_some_iff.mpr ⟨above, below, stops, before⟩
    rw [stop, stopped, hit]
    rfl

/-- The loop fails for the lowest index to stop at, if it does not match. -/
theorem stopped_eq_error_iff : stopped p (firstStop p lo (hi - lo)) = .error e ↔ ∃ i,
    lo ≤ i ∧ i < hi ∧ p i = .error e ∧ ∀ k, lo ≤ k → k < i → p k = .ok false := by
  constructor
  · intro ends
    cases stop : firstStop p lo (hi - lo) with
    | none =>
      rw [stop] at ends
      cases ends
    | some i =>
      obtain ⟨above, below, -, before⟩ := firstStop_eq_some_iff.mp stop
      rw [stop, stopped] at ends
      refine ⟨i, above, below, ?_, before⟩
      cases outcome : p i with
      | error e' =>
        rw [outcome] at ends
        cases ends
        rfl
      | ok hit =>
        rw [outcome] at ends
        cases ends
  · rintro ⟨i, above, below, fails, before⟩
    have stops : p i ≠ .ok false := by
      intro skip
      rw [fails] at skip
      cases skip
    have stop : firstStop p lo (hi - lo) = some i :=
      firstStop_eq_some_iff.mpr ⟨above, below, stops, before⟩
    rw [stop, stopped, fails]
    rfl

/-- The loop finds nothing if it passes all indices. -/
theorem stopped_eq_none_iff : stopped p (firstStop p lo (hi - lo)) = .ok none ↔
    ∀ k, lo ≤ k → k < hi → p k = .ok false := by
  rw [← firstStop_eq_none_iff]
  constructor
  · intro ends
    exact (found_of_stopped ends).symm
  · intro passed
    rw [passed]
    rfl

end

/-- A search by a single worker stops where the plain loop from `lo` to `hi` does, at the first
index that matches or that the predicate fails on. It gives the match, fails with the failure, or
finds nothing if there is neither. Unless it fails it has asked about all indices up to that one,
each of them once and in this order. -/
theorem findAny_stops_first (t : Threshold) (p : Nat → Except Abort Bool) (lo hi : Nat)
    (small : hi ≤ maxSize) :
    let run := (findAny t (onIndex ⟨true, true⟩ p) lo hi).run'
    (∀ i, run.1 = .ok (some i) ↔
      lo ≤ i ∧ i < hi ∧ p i = .ok true ∧ ∀ k, lo ≤ k → k < i → p k = .ok false) ∧
    (∀ e, run.1 = .error e ↔ ∃ i,
      lo ≤ i ∧ i < hi ∧ p i = .error e ∧ ∀ k, lo ≤ k → k < i → p k = .ok false) ∧
    (run.1 = .ok none ↔ ∀ k, lo ≤ k → k < hi → p k = .ok false) ∧
    ∀ found, run.1 = .ok found → run.2.arguments.toList =
      (List.range' lo (found.elim (hi - lo) (· + 1 - lo))).map .index := by
  intro run
  obtain ⟨xs, asks, clean⟩ := asks_findAny lo small t p
  obtain ⟨j, ran, told⟩ := asks .empty
  have result : run.1 = stopped p (firstStop p lo (hi - lo)) := congrArg Prod.fst ran
  have journal : run.2 = j := congrArg Prod.snd ran
  rw [result, journal]
  refine ⟨fun i => stopped_eq_match_iff, fun e => stopped_eq_error_iff, stopped_eq_none_iff,
    fun found ends => ?_⟩
  rw [told, clean found ends, askedUntil]
  rfl

/-- A predicate that matches at 6 and at 12, and fails at 9 and, if it is to fail early, at 3. -/
def sampleAnswer (early : Bool) (i : Nat) : Except Abort Bool :=
  if i = 9 ∨ early ∧ i = 3 then .error ⟨"no answer"⟩ else .ok (i = 6 ∨ i = 12)

/-- The failure at 3 wins over the match at 6, though the range of the match is searched all the
same. Without an early failure the one at 9 is never met. -/
theorem findAny_stops_first_sample :
    (findAny ⟨2, by decide⟩ (onIndex ⟨true, true⟩ (sampleAnswer true)) 1 15).run'.1 =
      .error ⟨"no answer"⟩ ∧
    (findAny ⟨2, by decide⟩ (onIndex ⟨true, true⟩ (sampleAnswer false)) 1 15).run'.1 =
      .ok (some 6) ∧
    (findAny ⟨2, by decide⟩ (onIndex ⟨true, true⟩ (sampleAnswer false)) 1 15).run'.2.arguments =
      #[.index 1, .index 2, .index 3, .index 4, .index 5, .index 6] := by
  have failing := findAny_stops_first ⟨2, by decide⟩ (sampleAnswer true) 1 15 (by decide)
  have matching := findAny_stops_first ⟨2, by decide⟩ (sampleAnswer false) 1 15 (by decide)
  have six := (matching.1 6).mpr (by decide)
  refine ⟨(failing.2.1 _).mpr ⟨3, by decide⟩, six, ?_⟩
  exact Array.toList_inj.mp (matching.2.2.2 _ six)

end Bisection
