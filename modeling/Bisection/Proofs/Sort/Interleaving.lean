import Bisection.Proofs.Pieces.Forking
import Bisection.Proofs.Sort.Stability
import Mathlib.Algebra.GroupWithZero.Nat
import Mathlib.Tactic.Choose

/-!
# Merges without an order

Whatever a comparator answers, a merge only ever takes the next element of one of its runs, so what
it writes is an interleaving of them. This needs neither runs in order nor a comparator that is a
function: it may remember its calls, fail, or take turns with others. `checked` is the merge of two
runs that trusts no length: its destination is a list of slots, it looks at every index and cut
before it uses it, and it is allowed a number of levels. None of these checks ever strikes, so it
makes the calls of `merge` and comes to the same.
-/

namespace Bisection
set_option autoImplicit false

/-! ## Forks that keep to the results of their halves -/

/-- Computations whose forks do nothing to the two results but put them side by side. -/
class LawfulFork {ε : outParam Type} (m : Type → Type) [Monad m] [Fork ε m] : Prop where
  join_map {β γ β' γ' : Type} (f : β → β') (g : γ → γ') (x : m β) (y : m γ) :
    Fork.join (f <$> x) (g <$> y) = Prod.map f g <$> Fork.join x y

theorem bothResults_map {ε β γ β' γ' : Type} (f : β → β') (g : γ → γ') (r : Except ε β)
    (s : Except ε γ) :
    bothResults (r.map f) (s.map g) = (bothResults r s).map (Prod.map f g) := by
  cases r with
  | error e => rfl
  | ok b => cases s <;> rfl

instance : LawfulFork Id where
  join_map _ _ _ _ := rfl

instance {ε : Type} : LawfulFork (Except ε) where
  join_map := bothResults_map

instance {σ : Type} : LawfulFork (StateM σ) where
  join_map _ _ _ _ := rfl

instance {ε : Type} {m : Type → Type} [Monad m] [LawfulMonad m] : LawfulFork (ExceptT ε m) where
  join_map f g x y := by
    refine ExceptT.ext ?_
    show (do
      let a ← (f <$> x).run
      let b ← (g <$> y).run
      pure (bothResults a b)) = ExceptT.run (Prod.map f g <$> (ExceptT.mk (do
        let a ← x.run
        let b ← y.run
        pure (bothResults a b)) : ExceptT ε m _))
    simp only [ExceptT.run_map, ExceptT.run_mk, map_bind, map_pure, bind_map_left, bothResults_map]

instance {ι ε : Type} : LawfulFork (Concurrent ι ε) where
  join_map f g x y := by
    refine Concurrent.ext fun calls r => ?_
    refine Iff.trans ?_ (Concurrent.then_ends _ _ calls r).symm
    constructor
    · intro run
      cases run with
      | both left right turns =>
        obtain ⟨r, run, rfl⟩ := (Concurrent.then_ends x f _ _).mp left
        obtain ⟨s, run', rfl⟩ := (Concurrent.then_ends y g _ _).mp right
        exact ⟨_, .both run run' turns, bothResults_map f g r s⟩
    · rintro ⟨rs, run, rfl⟩
      cases run with
      | both left right turns =>
        rw [← bothResults_map]
        exact .both ((Concurrent.then_ends x f _ _).mpr ⟨_, left, rfl⟩)
          ((Concurrent.then_ends y g _ _).mpr ⟨_, right, rfl⟩) turns

/-! ## Two lists in turns -/

namespace Interleaved
variable {ι : Type} {xs ys zs xs' ys' zs' : List ι}

theorem onlyLeft (xs : List ι) : Interleaved xs [] xs := by
  induction xs with
  | nil => exact .nil
  | cons x xs ih => exact .left ih

theorem append_append (first : Interleaved xs ys zs) (second : Interleaved xs' ys' zs') :
    Interleaved (xs ++ xs') (ys ++ ys') (zs ++ zs') := by
  induction first with
  | nil => exact second
  | left _ ih => exact .left ih
  | right _ ih => exact .right ih

end Interleaved

namespace Merge
variable {ε α : Type} {m : Type → Type} [Monad m]

/-- The elements of two lists in the turns that a comparator gives them. -/
def takeTurns (cmp : α → α → m Ordering) :
    (xs ys : List α) → m {zs : List α // Interleaved xs ys zs}
  | [], ys => pure ⟨ys, .append [] ys⟩
  | x :: xs, [] => pure ⟨x :: xs, .onlyLeft (x :: xs)⟩
  | x :: xs, y :: ys => do
    match ← cmp x y with
    | .gt => (fun zs => ⟨y :: zs.1, .right zs.2⟩) <$> takeTurns cmp (x :: xs) ys
    | _ => (fun zs => ⟨x :: zs.1, .left zs.2⟩) <$> takeTurns cmp xs (y :: ys)
termination_by xs ys => xs.length + ys.length

/-- `takeTurns` without what is known of its list. -/
def turns (cmp : α → α → m Ordering) (xs ys : List α) : m (List α) :=
  Subtype.val <$> takeTurns cmp xs ys

/-! ## A merge with all its checks -/

/-- What a merge takes for granted. -/
inductive Mishap where
  /-- A destination is not as long as its two runs. -/
  | lengths
  /-- An index or a cut is out of bounds. -/
  | bounds
  /-- A slot is left when both runs have ended. -/
  | surplus
  /-- No level is left for another cut. -/
  | depth
deriving DecidableEq, Repr

/-- Fills the slots of a destination from left to right, from `i` on in `left` and from `j` on in
`right`. -/
def fill (cmp : α → α → m Ordering) (left right : List α) (i j : Nat) :
    List (Option α) → m (Except Mishap (List (Option α)))
  | [] => pure (.ok [])
  | _ :: slots =>
    match left[i]?, right[j]? with
    | some x, some y => do
      match ← cmp x y with
      | .gt => Except.map (some y :: ·) <$> fill cmp left right i (j + 1) slots
      | _ => Except.map (some x :: ·) <$> fill cmp left right (i + 1) j slots
    | some x, none => Except.map (some x :: ·) <$> fill cmp left right (i + 1) j slots
    | none, some y => Except.map (some y :: ·) <$> fill cmp left right i (j + 1) slots
    | none, none => pure (.error .surplus)

/-- The parts of a list before and from an index, if it is not behind the end. -/
def cut? {β : Type} (xs : List β) (k : Nat) : Option (List β × List β) :=
  if k ≤ xs.length then some (xs.take k, xs.drop k) else none

/-- Merges two runs into a destination, by at most so many levels of cuts. -/
def checked [Fork ε m] (t : Threshold) (cmp : α → α → m Ordering) (search : CutSearch m α) :
    Nat → List α → List α → List (Option α) → m (Except Mishap (List (Option α)))
  | 0, _, _, _ => pure (.error .depth)
  | depth + 1, left, right, slots =>
    if slots.length ≠ left.length + right.length then pure (.error .lengths)
    else if left.length ≤ t.val ∨ right.length = 0 then fill cmp left right 0 0 slots
    else
      match left[left.length / 2]? with
      | none => pure (.error .bounds)
      | some first => do
        let cut ← search (fun x => do pure ((← cmp x first) == .lt)) ⟨right.toArray, rfl⟩
        match cut? left (left.length / 2), cut? right cut, cut? slots (left.length / 2 + cut) with
        | some lefts, some rights, some parts => do
          let results ← Fork.join (checked t cmp search depth lefts.1 rights.1 parts.1)
            (checked t cmp search depth lefts.2 rights.2 parts.2)
          pure ((bothResults results.1 results.2).map fun filled => filled.1 ++ filled.2)
        | _, _, _ => pure (.error .bounds)

variable [LawfulMonad m]

theorem turns_nil (cmp : α → α → m Ordering) (xs : List α) : turns cmp xs [] = pure xs := by
  cases xs <;> rw [turns, takeTurns, map_pure]

theorem nil_turns (cmp : α → α → m Ordering) (ys : List α) : turns cmp [] ys = pure ys := by
  rw [turns, takeTurns, map_pure]

theorem turns_cons (cmp : α → α → m Ordering) (x y : α) (xs ys : List α) :
    turns cmp (x :: xs) (y :: ys) = (do
      match ← cmp x y with
      | .gt => (y :: ·) <$> turns cmp (x :: xs) ys
      | _ => (x :: ·) <$> turns cmp xs (y :: ys)) := by
  rw [turns, takeTurns, map_bind]
  refine bind_congr fun order => ?_
  cases order <;> simp only [turns, Functor.map_map]

/-- The sequential merge keeps what it has written, and takes turns with what is left. -/
theorem mergeRunsFrom_eq_turns (cmp : α → α → m Ordering) {a b : Nat} (left : Vector α a)
    (right : Vector α b) (i j : Nat) (dest : Vector α (a + b)) (hi : i ≤ a) (hj : j ≤ b) :
    Vector.toList <$> mergeRunsFrom cmp left right i j dest hi hj =
      (dest.toList.take (i + j) ++ ·) <$>
        turns cmp (left.toList.drop i) (right.toList.drop j) := by
  induction i, j, dest, hi, hj using mergeRunsFrom.induct left right with
  | case1 i j dest hi hj more hl hr takeRight takeLeft =>
    rw [mergeRunsFrom, dif_pos more, dif_pos hl, dif_pos hr, map_bind, drop_toList left hl,
      drop_toList right hr, turns_cons, map_bind]
    refine bind_congr fun order => ?_
    cases order <;> dsimp only
    case gt =>
      rw [takeRight, ← Nat.add_assoc, take_toList_set, ← drop_toList left hl]
      simp only [Functor.map_map, List.append_assoc, List.singleton_append]
    all_goals
      rw [takeLeft, Nat.add_right_comm, take_toList_set, ← drop_toList right hr]
      simp only [Functor.map_map, List.append_assoc, List.singleton_append]
  | case2 i j dest hi hj more hl hr ih =>
    have none : right.toList.drop j = [] := List.drop_eq_nil_of_le (by simp; omega)
    rw [mergeRunsFrom, dif_pos more, dif_pos hl, dif_neg hr, ih, Nat.add_right_comm,
      take_toList_set, drop_toList left hl, none]
    simp only [turns_nil, map_pure, List.append_assoc, List.singleton_append]
  | case3 i j dest hi hj more hl hr ih =>
    have none : left.toList.drop i = [] := List.drop_eq_nil_of_le (by simp; omega)
    rw [mergeRunsFrom, dif_pos more, dif_neg hl, ih, ← Nat.add_assoc, take_toList_set,
      drop_toList right hr, none]
    simp only [nil_turns, map_pure, List.append_assoc, List.singleton_append]
  | case4 i j dest hi hj done =>
    have noLeft : left.toList.drop i = [] := List.drop_eq_nil_of_le (by simp; omega)
    have noRight : right.toList.drop j = [] := List.drop_eq_nil_of_le (by simp; omega)
    rw [mergeRunsFrom, dif_neg done, noLeft, noRight, turns_nil, map_pure, map_pure,
      List.append_nil, List.take_of_length_le (by simp; omega)]

theorem drop_of_some {xs : List α} {i : Nat} {x : α} (found : xs[i]? = some x) :
    xs.drop i = x :: xs.drop (i + 1) := by
  obtain ⟨lt, rfl⟩ := List.getElem?_eq_some_iff.mp found
  exact List.drop_eq_getElem_cons lt

theorem drop_of_none {xs : List α} {i : Nat} (ended : xs[i]? = none) : xs.drop i = [] :=
  List.drop_eq_nil_of_le (List.getElem?_eq_none_iff.mp ended)

/-- A destination with a slot for each element that is left is filled by taking turns. -/
theorem fill_eq_turns (cmp : α → α → m Ordering) (left right : List α)
    (slots : List (Option α)) (i j : Nat)
    (length : slots.length = (left.drop i).length + (right.drop j).length) :
    fill cmp left right i j slots =
      (fun zs => .ok (zs.map some)) <$> turns cmp (left.drop i) (right.drop j) := by
  induction slots generalizing i j with
  | nil =>
    rw [List.length_nil, eq_comm, Nat.add_eq_zero_iff, List.length_eq_zero_iff,
      List.length_eq_zero_iff] at length
    rw [fill, length.1, length.2, turns_nil, map_pure, List.map_nil]
  | cons slot slots ih =>
    rw [List.length_cons] at length
    rw [fill]
    cases hl : left[i]? with
    | none =>
      have noLeft := drop_of_none hl
      cases hr : right[j]? with
      | none =>
        rw [noLeft, drop_of_none hr] at length
        cases length
      | some y =>
        rw [drop_of_some hr, List.length_cons] at length
        dsimp only
        rw [ih i (j + 1) (by omega), drop_of_some hr, noLeft]
        simp only [nil_turns, map_pure]
        rfl
    | some x =>
      rw [drop_of_some hl, List.length_cons] at length
      cases hr : right[j]? with
      | none =>
        dsimp only
        rw [ih (i + 1) j (by omega), drop_of_some hl, drop_of_none hr]
        simp only [turns_nil, map_pure]
        rfl
      | some y =>
        rw [drop_of_some hr, List.length_cons] at length
        rw [drop_of_some hl, drop_of_some hr, turns_cons, map_bind]
        refine bind_congr fun order => ?_
        cases order <;> dsimp only
        case gt =>
          rw [ih i (j + 1) (by rw [drop_of_some hl, List.length_cons]; omega), drop_of_some hl]
          simp only [Functor.map_map]
          rfl
        all_goals
          rw [ih (i + 1) j (by rw [drop_of_some hr, List.length_cons]; omega), drop_of_some hr]
          simp only [Functor.map_map]
          rfl

section
variable [Fork ε m] {t : Threshold} {cmp : α → α → m Ordering} {search : CutSearch m α} {a b : Nat}
  {left : Vector α a} {right : Vector α b}

theorem toList_merge_of_short (dest : Vector α (a + b)) (short : a ≤ t.val ∨ b = 0) :
    Vector.toList <$> merge t cmp left right dest search = turns cmp left.toList right.toList := by
  rw [merge, dif_pos short, mergeRuns, mergeRunsFrom_eq_turns]
  simp only [Nat.add_zero, List.take_zero, List.nil_append, List.drop_zero, id_map']

theorem toList_merge_of_long [LawfulFork m] (dest : Vector α (a + b)) (long : ¬ (a ≤ t.val ∨ b = 0))
    (hmid : a / 2 < a) :
    Vector.toList <$> merge t cmp left right dest search = (do
      let cut ← search (fun x => do pure ((← cmp x left[a / 2]) == .lt)) right
      (fun halves => halves.1 ++ halves.2) <$> Fork.join
        (Vector.toList <$> merge t cmp (lower left (a / 2) (by omega))
          (lower right cut (by have := cut.isLt; omega))
          (lower dest (a / 2 + cut) (by have := cut.isLt; omega)) search)
        (Vector.toList <$> merge t cmp (upper left (a / 2)) (upper right cut)
          ((upper dest (a / 2 + cut)).cast (by have := cut.isLt; omega)) search)) := by
  rw [merge, dif_neg long, map_bind]
  refine bind_congr fun cut => ?_
  rw [LawfulFork.join_map, Functor.map_map, map_bind, map_eq_pure_bind]
  refine bind_congr fun halves => ?_
  rw [map_pure, toList_glue, Vector.toList_cast]
  rfl

theorem checked_of_short {depth : Nat} {slots : List (Option α)} (length : slots.length = a + b)
    (short : a ≤ t.val ∨ b = 0) :
    checked t cmp search (depth + 1) left.toList right.toList slots =
      (fun out => .ok (out.map some)) <$> turns cmp left.toList right.toList := by
  rw [checked, Vector.length_toList, Vector.length_toList, if_neg (not_not_intro length),
    if_pos short, fill_eq_turns _ _ _ _ _ _ (by simpa using length)]
  rfl

theorem checked_of_long {depth : Nat} {slots : List (Option α)} (length : slots.length = a + b)
    (long : ¬ (a ≤ t.val ∨ b = 0)) (hmid : a / 2 < a) :
    checked t cmp search (depth + 1) left.toList right.toList slots = (do
      let cut ← search (fun x => do pure ((← cmp x left[a / 2]) == .lt)) right
      (fun results => (bothResults results.1 results.2).map fun filled => filled.1 ++ filled.2) <$>
        Fork.join
          (checked t cmp search depth (lower left (a / 2) (by omega)).toList
            (lower right cut (by have := cut.isLt; omega)).toList (slots.take (a / 2 + cut)))
          (checked t cmp search depth (upper left (a / 2)).toList (upper right cut).toList
            (slots.drop (a / 2 + cut)))) := by
  have first : left.toList[left.toList.length / 2]? = some left[a / 2] := by
    rw [List.getElem?_eq_getElem (by simpa using hmid)]
    simp
  rw [checked, if_neg (by simpa using length), if_neg (by simpa using long), first]
  obtain ⟨⟨right⟩, rfl⟩ := right
  refine bind_congr fun cut => ?_
  have inLeft : a / 2 ≤ left.toList.length := by rw [Vector.length_toList]; omega
  have inRight : cut.val ≤ (Vector.mk (Array.mk right) rfl).toList.length :=
    Nat.le_of_lt_succ cut.isLt
  have inSlots : a / 2 + cut ≤ slots.length := by
    rw [length]
    exact Nat.add_le_add (Nat.le_of_lt hmid) inRight
  rw [Vector.length_toList, cut?, if_pos inLeft, cut?, if_pos inRight, cut?, if_pos inSlots,
    toList_lower, toList_lower, toList_upper, toList_upper, map_eq_pure_bind]

/-- What comes of the parts of two runs, put together, has both runs in turns. -/
theorem interleaved_append {i j : Nat} {hi : i ≤ a} {hj : j ≤ b} {zs zs' : List α}
    (below : Interleaved (lower left i hi).toList (lower right j hj).toList zs)
    (above : Interleaved (upper left i).toList (upper right j).toList zs') :
    Interleaved left.toList right.toList (zs ++ zs') := by
  have both := below.append_append above
  rwa [toList_lower, toList_lower, toList_upper, toList_upper, List.take_append_drop,
    List.take_append_drop] at both

variable [LawfulFork m]

/-- Whatever its comparator and its search do, a merge comes to an interleaving of its runs, which
is the same for all destinations. -/
theorem exists_interleaving (t : Threshold) (cmp : α → α → m Ordering) (search : CutSearch m α)
    (left : Vector α a) (right : Vector α b) :
    ∃ merged : m {out : List α // Interleaved left.toList right.toList out},
      ∀ dest, Vector.toList <$> merge t cmp left right dest search = Subtype.val <$> merged := by
  induction a using Nat.strongRecOn generalizing b with
  | ind a ih =>
    by_cases short : a ≤ t.val ∨ b = 0
    · exact ⟨takeTurns cmp left.toList right.toList, fun dest => toList_merge_of_short dest short⟩
    · have hmid : a / 2 < a := by
        have := t.pos
        omega
      have rest : a - a / 2 < a := by
        have := t.pos
        omega
      choose below hbelow using fun cut : Fin (b + 1) =>
        ih (a / 2) hmid (lower left (a / 2) (by omega))
          (lower right cut (by have := cut.isLt; omega))
      choose above habove using fun cut : Fin (b + 1) =>
        ih (a - a / 2) rest (upper left (a / 2)) (upper right cut)
      refine ⟨do
        let cut ← search (fun x => do pure ((← cmp x left[a / 2]) == .lt)) right
        (fun halves => ⟨halves.1.1 ++ halves.2.1, interleaved_append halves.1.2 halves.2.2⟩) <$>
          Fork.join (below cut) (above cut), fun dest => ?_⟩
      rw [toList_merge_of_long dest short hmid, map_bind]
      refine bind_congr fun cut => ?_
      rw [hbelow, habove, LawfulFork.join_map, Functor.map_map, Functor.map_map]
      rfl

/-- No check of `checked` strikes: it makes the calls of `merge` and fills each slot with what
`merge` writes there. -/
theorem checked_eq_merge (t : Threshold) (cmp : α → α → m Ordering) (search : CutSearch m α)
    (left : Vector α a) (right : Vector α b) (dest : Vector α (a + b)) (depth : Nat)
    (slots : List (Option α)) (levels : a ≤ 2 ^ depth) (length : slots.length = a + b) :
    checked t cmp search (depth + 1) left.toList right.toList slots =
      (fun out => .ok (out.map some)) <$>
        (Vector.toList <$> merge t cmp left right dest search) := by
  induction a, b, left, right, dest using merge.induct t generalizing depth slots with
  | case1 a b left right dest short =>
    rw [toList_merge_of_short dest short, checked_of_short length short]
  | case2 a b left right dest long mid hmid lower upper =>
    cases depth with
    | zero =>
      have := t.pos
      rw [Nat.pow_zero] at levels
      omega
    | succ depth =>
      rw [Nat.pow_succ] at levels
      rw [toList_merge_of_long dest long hmid, checked_of_long length long hmid, map_bind]
      refine bind_congr fun cut => ?_
      have inRight := cut.isLt
      have below := lower cut depth (slots.take (mid + cut)) (by omega)
        (by rw [List.length_take]; omega)
      have above := upper cut depth (slots.drop (mid + cut)) (by omega)
        (by rw [List.length_drop]; omega)
      rw [below, above]
      simp only [LawfulFork.join_map, Functor.map_map]
      refine map_congr fun halves => ?_
      exact congrArg Except.ok List.map_append.symm

end

end Merge

/-- Whatever its comparator and its search for cuts do, a merge comes to its two runs in turns: each
element of each run once, in the order of its run. What was in the destination makes no difference.
A merge that checks all lengths, indices and cuts makes the same calls, finds nothing wrong, ends
after as many levels as the left run can be halved, and fills all slots of its destination. -/
theorem merge_interleaves {ε α : Type} {m : Type → Type} [Monad m] [LawfulMonad m] [Fork ε m]
    [LawfulFork m] (t : Threshold) (cmp : α → α → m Ordering) (search : Merge.CutSearch m α)
    {a b : Nat} (left : Vector α a) (right : Vector α b) :
    ∃ merged : m {out : List α // Interleaved left.toList right.toList out},
      (∀ dest, Vector.toList <$> merge t cmp left right dest search = Subtype.val <$> merged) ∧
      ∀ (depth : Nat) (slots : List (Option α)), a ≤ 2 ^ depth → slots.length = a + b →
        Merge.checked t cmp search (depth + 1) left.toList right.toList slots =
          (fun out => .ok (out.1.map some)) <$> merged := by
  obtain ⟨merged, eq⟩ := Merge.exists_interleaving t cmp search left right
  refine ⟨merged, eq, fun depth slots levels length => ?_⟩
  have dest : Vector α (a + b) := left ++ right
  rw [Merge.checked_eq_merge t cmp search left right dest depth slots levels length, eq,
    Functor.map_map]

/-- The comparator answers by the number of its calls, and all cuts are at the end. -/
theorem merge_interleaves_unordered :
    let cmp : Nat → Nat → StateM Nat Ordering := fun _ _ =>
      modifyGet fun calls => (if calls % 2 = 0 then .gt else .lt, calls + 1)
    let search : Merge.CutSearch (StateM Nat) Nat := fun {b} _ _ => pure (Fin.last b)
    let t : Threshold := ⟨1, by decide⟩
    let left : Vector Nat 3 := #v[5, 1, 4]
    let right : Vector Nat 2 := #v[2, 7]
    let slots : List (Option Nat) := [none, some 9, none, none, none]
    3 ≤ 2 ^ 2 ∧ slots.length = 3 + 2 ∧
    ∃ merged : StateM Nat {out : List Nat // Interleaved left.toList right.toList out},
      (∀ dest, Vector.toList <$> merge t cmp left right dest search = Subtype.val <$> merged) ∧
      Merge.checked t cmp search 3 left.toList right.toList slots =
        (fun out => .ok (out.1.map some)) <$> merged ∧
      (merged.run 0).1.1 = [2, 5, 7, 1, 4] := by
  intro cmp search t left right slots
  have levels : 3 ≤ 2 ^ 2 := by decide
  have length : slots.length = 3 + 2 := rfl
  obtain ⟨merged, eq, checks⟩ := merge_interleaves t cmp search left right
  have same := checks 2 slots levels length
  refine ⟨levels, length, merged, eq, same, ?_⟩
  have filled : ((Merge.checked t cmp search 3 left.toList right.toList slots).run 0).1 =
      .ok ([2, 5, 7, 1, 4].map some) := by
    with_unfolding_all rfl
  rw [same] at filled
  exact (List.map_inj_right fun _ _ => Option.some.inj).mp (Except.ok.inj filled)

end Bisection
