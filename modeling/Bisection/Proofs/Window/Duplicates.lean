import Bisection.Number.Binary
import Bisection.Proofs.Window.Selections
import Mathlib.Data.List.Destutter
import Mathlib.Data.List.SplitBy

/-!
# Consecutive duplicates

A scan from the left drops each element that equals the last one it kept. The decisions of a
bisection cannot wait for each other: an element is dropped there if it equals the one just before
it, which may be dropped itself. Both come to the same for an equality that is symmetric and
transitive, since all the elements dropped in a row equal the one kept before them. That an element
equals itself is not needed: one that does not equals nothing, and is kept.
-/

namespace Bisection
set_option autoImplicit false

section
variable {α : Type} [BEq α]

/-! ## Two scans -/

/-- What a scan keeps that drops each element that equals the last one it kept. -/
def withoutRepeats (xs : List α) : List α := xs.destutter fun last x => (last == x) = false

/-- The elements that do not equal the one just before them, where `x` is before the first. -/
def changesAfter (x : α) : List α → List α
  | [] => []
  | y :: ys => if y == x then changesAfter y ys else y :: changesAfter y ys

/-- The first element, and those that do not equal the one just before them. -/
def changes : List α → List α
  | [] => []
  | x :: xs => x :: changesAfter x xs

variable {x y last : α} {xs ys : List α}

theorem changesAfter_same (same : (y == x) = true) :
    changesAfter x (y :: ys) = changesAfter y ys := by
  rw [changesAfter, if_pos same]

theorem changesAfter_new (new : (y == x) = false) :
    changesAfter x (y :: ys) = changes (y :: ys) := by
  rw [changesAfter, new, if_neg Bool.false_ne_true, changes]

/-! ## Decisions at the indices -/

/-- Whether the element at an index is kept, where `get` gives the elements from `first` on. -/
def keepsAt (get : Nat → Option α) (first i : Nat) : Bool :=
  i == first || match get i, get (i - 1) with
    | some x, some y => !(x == y)
    | _, _ => false

theorem filterMap_keepsAt_after {get : Nat → Option α} {first lo : Nat} (above : first < lo)
    (before : get (lo - 1) = some x) (elems : ∀ k < ys.length, get (lo + k) = ys[k]?) :
    ((List.range' lo ys.length).filter (keepsAt get first)).filterMap get = changesAfter x ys := by
  induction ys generalizing x lo with
  | nil => rfl
  | cons y ys ih =>
    have at_lo : get lo = some y := elems 0 (Nat.zero_lt_succ _)
    have rest := @ih y (lo + 1) (Nat.lt_succ_of_lt above) at_lo fun k lt => by
      rw [Nat.add_assoc, Nat.add_comm 1]
      exact elems (k + 1) (Nat.succ_lt_succ lt)
    have decision : keepsAt get first lo = !(y == x) := by
      rw [keepsAt, at_lo, before, beq_false_of_ne (Nat.ne_of_gt above), Bool.false_or]
    rw [List.length_cons, List.range'_succ, List.filter_cons, decision]
    cases same : y == x with
    | true => rw [changesAfter_same same, ← rest]; rfl
    | false =>
      rw [changesAfter_new same, changes, ← rest]
      exact List.filterMap_cons_some at_lo

/-- The elements at the indices that are kept. -/
theorem filterMap_keepsAt {get : Nat → Option α} {first : Nat}
    (elems : ∀ k < xs.length, get (first + k) = xs[k]?) :
    ((List.range' first xs.length).filter (keepsAt get first)).filterMap get = changes xs := by
  cases xs with
  | nil => rfl
  | cons x xs =>
    have at_first : get first = some x := elems 0 (Nat.zero_lt_succ _)
    have rest := @filterMap_keepsAt_after _ _ x xs get first (first + 1) (Nat.lt_succ_self first)
      at_first fun k lt => by
        rw [Nat.add_assoc, Nat.add_comm 1]
        exact elems (k + 1) (Nat.succ_lt_succ lt)
    have exempt : keepsAt get first first = true := by rw [keepsAt, beq_self_eq_true, Bool.true_or]
    rw [List.length_cons, List.range'_succ, List.filter_cons, exempt, if_pos rfl, changes, ← rest]
    exact List.filterMap_cons_some at_first

/-! ## The last element kept -/

variable [PartialEquivBEq α]

/-- The element before is the last one that was kept, or equals it, all through a scan. -/
theorem destutter'_eq_changesAfter (before : x = last ∨ (last == x) = true) :
    ys.destutter' (fun last x => (last == x) = false) last = last :: changesAfter x ys := by
  induction ys generalizing x last with
  | nil => rfl
  | cons y ys ih =>
    have equal : (last == y) = (x == y) := by
      rcases before with rfl | same
      · rfl
      · exact BEq.congr_left same
    cases same : x == y with
    | true =>
      rw [same] at equal
      rw [List.destutter'_cons, if_neg (by simp [equal]), changesAfter_same (BEq.symm same)]
      exact ih (.inr equal)
    | false =>
      have new : (y == x) = false := by rw [BEq.comm, same]
      rw [same] at equal
      rw [List.destutter'_cons, if_pos equal, changesAfter_new new, changes, ih (.inl rfl)]

/-- It makes no difference whether an element is compared with the last one kept or with the one
just before it. -/
theorem withoutRepeats_eq_changes (xs : List α) : withoutRepeats xs = changes xs := by
  cases xs with
  | nil => rfl
  | cons x xs => exact destutter'_eq_changesAfter (.inl rfl)

/-! ## Runs of equal elements -/

theorem changesAfter_run {run : List α} (equal : (x :: run).IsChain fun x y => (x == y) = true)
    (ys : List α) : changesAfter x (run ++ ys) =
      changesAfter ((x :: run).getLast (List.cons_ne_nil x run)) ys := by
  induction run generalizing x with
  | nil => rfl
  | cons y run ih =>
    obtain ⟨same, equal⟩ := List.isChain_cons_cons.mp equal
    rw [List.cons_append, changesAfter_same (BEq.symm same), ih equal,
      List.getLast_cons (List.cons_ne_nil y run)]

/-- Of runs of equal elements, none of which goes on in the next, the first elements are kept. -/
theorem changes_flatten {runs : List (List α)} (nonempty : [] ∉ runs)
    (equal : ∀ run ∈ runs, run.IsChain fun x y => (x == y) = true)
    (apart : runs.IsChain fun run next => ∃ ne ne', (run.getLast ne == next.head ne') = false) :
    changes runs.flatten = runs.filterMap List.head? := by
  induction runs with
  | nil => rfl
  | cons run runs ih =>
    have rest := ih (fun mem => nonempty (List.mem_cons_of_mem _ mem))
      (fun run mem => equal run (List.mem_cons_of_mem _ mem)) apart.tail
    cases run with
    | nil => exact absurd List.mem_cons_self nonempty
    | cons x run =>
      rw [List.flatten_cons, List.cons_append, changes,
        changesAfter_run (equal _ List.mem_cons_self), List.filterMap_cons, ← rest]
      refine congrArg (x :: ·) ?_
      cases runs with
      | nil => rfl
      | cons next runs =>
        obtain ⟨_, ne, new⟩ := (List.isChain_cons_cons.mp apart).1
        cases next with
        | nil => exact absurd rfl ne
        | cons y next =>
          rw [BEq.comm] at new
          exact changesAfter_new new

/-- The first element of each run of consecutive elements that are equal is kept. -/
theorem withoutRepeats_eq_heads (xs : List α) :
    withoutRepeats xs = (xs.splitBy (· == ·)).filterMap List.head? := by
  rw [withoutRepeats_eq_changes]
  have heads := changes_flatten (List.nil_notMem_splitBy (· == ·) xs)
    (fun _ mem => List.isChain_of_mem_splitBy mem) (List.isChain_getLast_head_splitBy _ xs)
  rwa [List.flatten_splitBy] at heads

/-- An element that does not equal itself equals none. -/
theorem filter_changesAfter (x : α) (ys : List α) :
    (changesAfter x ys).filter (fun y => !(y == y)) = ys.filter fun y => !(y == y) := by
  induction ys generalizing x with
  | nil => rfl
  | cons y ys ih =>
    cases same : y == x with
    | true =>
      have self : (y == y) = true := BEq.trans same (BEq.symm same)
      rw [changesAfter_same same, ih, List.filter_cons_of_neg (by simp [self])]
    | false => rw [changesAfter_new same, changes, List.filter_cons, List.filter_cons, ih]

theorem filter_withoutRepeats (xs : List α) :
    (withoutRepeats xs).filter (fun x => !(x == x)) = xs.filter fun x => !(x == x) := by
  rw [withoutRepeats_eq_changes]
  cases xs with
  | nil => rfl
  | cons x xs => rw [changes, List.filter_cons, List.filter_cons, filter_changesAfter]

end

/-! ## Numbers -/

namespace Binary
variable {f : BinaryFormat} {x y z : Binary f}

theorem beq_iff :
    (x == y) = true ↔ x.isNaN = false ∧ y.isNaN = false ∧ x.position = y.position := by
  show (x.compareNumbers y == some .eq) = true ↔ _
  unfold compareNumbers
  by_cases nan : x.isNaN ∨ y.isNaN
  · rw [if_pos nan]
    constructor
    · intro same
      cases same
    · rintro ⟨first, second, -⟩
      simp [first, second] at nan
  · obtain ⟨first, second⟩ := not_or.mp nan
    rw [if_neg nan]
    simp [first, second]

/-- Equality of numbers is symmetric and transitive. -/
instance : PartialEquivBEq (Binary f) where
  symm same := by
    obtain ⟨first, second, equal⟩ := beq_iff.mp same
    exact beq_iff.mpr ⟨second, first, equal.symm⟩
  trans same same' := by
    obtain ⟨first, -, equal⟩ := beq_iff.mp same
    obtain ⟨-, third, equal'⟩ := beq_iff.mp same'
    exact beq_iff.mpr ⟨first, third, equal.trans equal'⟩

/-- A value equals itself unless it is no number. -/
theorem beq_self_iff : (x == x) = true ↔ x.isNaN = false := by
  rw [beq_iff]
  exact ⟨And.left, fun number => ⟨number, number, rfl⟩⟩

end Binary

namespace Window

section
variable {α : Type} [BEq α] (w : Window α)

theorem filterMap_keepsAt_get? :
    ((List.range' w.lo w.size).filter (keepsAt w.get? w.lo)).filterMap w.get? =
      changes (w.upTo w.hi) := by
  have elems : ∀ k < (w.upTo w.hi).length, w.get? (w.lo + k) = (w.upTo w.hi)[k]? := by
    intro k lt
    rw [length_upTo] at lt
    exact (w.getElem?_upTo_add lt).symm
  have kept := filterMap_keepsAt elems
  rwa [length_upTo] at kept

theorem removeConsecutiveDuplicates_ok {ε : Type} [RoomFailure ε] :
    (w.removeConsecutiveDuplicates : Except ε (Window α)) = (do
      claimRoom w.size indexBytes
      .ok (w.refill (changes (w.upTo w.hi)).toArray)) := by
  rw [← filterMap_keepsAt_get?]
  exact w.keepIndices_ok .removeConsecutiveDuplicates (keepsAt w.get? w.lo)

theorem same_changes {ε : Type} {m : Type → Type} [Monad m] [LawfulMonad m] [Fork ε m] [Reports m]
    [RoomFailure ε] {T : Tracking w.lo m (Except ε)}
    (lacking : T.expected RoomFailure.noRoom RoomFailure.noRoom) :
    T.Same w.removeConsecutiveDuplicates (do
      claimRoom w.size indexBytes
      .ok (w.refill (changes (w.upTo w.hi)).toArray)) := by
  have tracks := tracks_removeConsecutiveDuplicates (T := T) fun _ => lacking
  rw [removeConsecutiveDuplicates_ok, size_alone, upTo_alone] at tracks
  exact same_of_left_claimed tracks

end

/-- With any threshold and any number of workers, removing consecutive duplicates leaves in a window
what a scan leaves that compares each element with the last one kept: the first of every run of
equal elements, and each element that does not equal itself. No two elements next to each other are
equal then, and removing again changes nothing. What is before the window and behind it stays,
whatever it equals. Each index is decided once, and all before any element is moved. Without room
for the table of its indices there is no result. -/
theorem removeConsecutiveDuplicates_scans {ι ε α : Type} [RoomFailure ε] [BEq α]
    [PartialEquivBEq α] (w : Window α) :
    let kept := withoutRepeats (w.upTo w.hi)
    let after : Window α := w.refill kept.toArray
    (after.array.toList = w.array.toList.take w.lo ++ kept ++ w.array.toList.drop w.hi ∧
      after.lo = w.lo ∧ after.hi = w.lo + kept.length ∧ after.upTo after.hi = kept) ∧
    (kept = ((w.upTo w.hi).splitBy (· == ·)).filterMap List.head? ∧
      kept.filter (fun x => !(x == x)) = (w.upTo w.hi).filter fun x => !(x == x)) ∧
    kept.IsChain (fun x y => (x == y) = false) ∧
    (hasRoom w.size indexBytes = true →
      w.removeConsecutiveDuplicates (m := Except ε) = .ok after ∧
      after.removeConsecutiveDuplicates (m := Except ε) = .ok after ∧
      (w.removeConsecutiveDuplicates : Concurrent ι ε (Window α)).Always fun _ r => r = .ok after) ∧
    (hasRoom w.size indexBytes = false →
      (w.removeConsecutiveDuplicates : Concurrent ι ε (Window α)).Always fun _ r =>
        r = .error RoomFailure.noRoom) ∧
    ∀ t, (Selection.build t (fun i => .call i (.ok (keepsAt w.get? w.lo i))) w.lo w.size :
        Concurrent Nat ε Selection).Always fun asked r =>
      asked.Perm (List.range' w.lo w.size) ∧ ∃ tree, r = .ok tree ∧
        w.refill (tree.compact w.lo w.elems) = after := by
  intro kept after
  have scanned : changes (w.upTo w.hi) = kept := (withoutRepeats_eq_changes _).symm
  have elems : after.upTo after.hi = kept := w.upTo_refill kept.toArray
  refine ⟨⟨Store.toList_splice .., rfl, rfl, elems⟩, ?kept, List.isChain_destutter _ _,
    fun room => ⟨?scan, ?again, ?orders⟩, fun short => ?lacking, fun t => ?decided⟩
  case kept => exact ⟨withoutRepeats_eq_heads _, filter_withoutRepeats _⟩
  case scan =>
    rw [removeConsecutiveDuplicates_ok, claimRoom_of_room room, scanned]
    rfl
  case again =>
    have still : withoutRepeats kept = kept := List.destutter_idem _ _
    have fewer : after.size ≤ w.size := by
      rw [← length_upTo, ← length_upTo, elems]
      exact (List.destutter_sublist _ _).length_le
    rw [removeConsecutiveDuplicates_ok, claimRoom_of_room (hasRoom_of_le fewer room), elems,
      ← withoutRepeats_eq_changes, still, refill_refill]
    rfl
  case orders =>
    refine ⟨(w.same_changes (T := Concurrent.tracking w.lo) rfl).1, fun calls r run => ?_⟩
    have ends := Concurrent.eq_of_same (w.same_changes (ε := ε) rfl) run
    rwa [claimRoom_of_room room, scanned] at ends
  case lacking =>
    rw [removeConsecutiveDuplicates, w.keepIndices_of_no_room (fun _ => rfl) short]
    exact Concurrent.always_ends rfl
  case decided =>
    refine (Concurrent.always_build t _ w.lo w.size).mono fun asked r ends => ?_
    obtain ⟨perm, tree, ok, -, indices⟩ := ends
    refine ⟨perm, tree, ok, ?_⟩
    rw [w.compact_selected indices, filterMap_keepsAt_get?, scanned]

/-- Of two zeros next to each other the first is kept, and so is all that is no number. The zero
before the window and the one behind it are not compared. -/
theorem removeConsecutiveDuplicates_scans_zeros :
    let zero : Binary .single := .ofBits 0
    let negative : Binary .single := .ofBits 0x80000000
    let nan : Binary .single := .canonicalNaN
    let w : Window (Binary .single) :=
      ⟨⟨default, none, .cells #[zero, negative, zero, nan, nan, zero, negative, zero]⟩, 1, 7,
        by decide, by decide⟩
    (negative == zero) = true ∧ (nan == nan) = false ∧
      ∃ after, w.removeConsecutiveDuplicates (m := Except Abort) = .ok after ∧
        after.array.toList = [zero, negative, nan, nan, zero, zero] := by
  intro zero negative nan w
  obtain ⟨⟨left, -⟩, -, -, scans, -⟩ :=
    w.removeConsecutiveDuplicates_scans (ι := Unit) (ε := Abort)
  have noNumber : (nan == nan) = false := by
    apply Bool.eq_false_iff.mpr
    rw [Ne, Binary.beq_self_iff]
    decide +kernel
  refine ⟨by decide +kernel, noNumber, _, (scans (by decide)).1, left.trans ?_⟩
  decide +kernel

/-- So many units have no room for the table of their indices: the one of them that a scan would
leave is not left. -/
theorem removeConsecutiveDuplicates_lacks_room :
    let w := countless
    let kept := withoutRepeats (w.upTo w.hi)
    (w.removeConsecutiveDuplicates : Concurrent Unit Abort (Window Unit)).Always fun _ r =>
      ¬ ∃ after, r = .ok after ∧ after.upTo after.hi = kept := by
  intro w kept
  rw [removeConsecutiveDuplicates, w.keepIndices_of_no_room (fun _ => rfl) countless_short]
  exact Concurrent.always_ends fun ⟨_, fails, _⟩ => nomatch fails

end Window

end Bisection
