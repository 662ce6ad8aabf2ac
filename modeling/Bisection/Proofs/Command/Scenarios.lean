import Bisection.Proofs.Agreement.Operations
import Bisection.Proofs.Command.Sums
import Bisection.Proofs.Random.Samples
import Bisection.Proofs.Window.Sortedness

/-!
# What the scenarios print

The line that a scenario prints is known from its options and the numbers that were drawn for it
(`Prints`), wherever the threshold has the input cut and whoever carries out its operation: one
worker from left to right, or those of a pool in any order of their steps. A scenario is one program
for all of them (`scenario`), up to the operations in which workers share memory (`Shared`).
-/

namespace Bisection
set_option autoImplicit false

/-! ## Computations that follow a value -/

section
variable {β γ : Type} {m : Type → Type} [Monad m] [LawfulMonad m] {ρ : Likeness m Id}

/-- What is like a plain computation is like the value that it gives. -/
structure Likeness.Definite (ρ : Likeness m Id) : Prop where
  value {β γ : Type} {R : β → γ → Prop} {x : m β} {y : Id γ} (rel : ρ.Rel R x y) :
    ρ.Rel (fun b (_ : Unit) => R b y.run) x (Pure.pure ())

theorem Likeness.Same.comesTo {x : m β} {v : β} (definite : ρ.Definite) (same : ρ.Same x v) :
    ρ.ComesTo x v :=
  definite.value same

theorem Likeness.ComesTo.then_pure {x : m β} {v : β} (comes : ρ.ComesTo x v) (f : β → γ) :
    ρ.ComesTo (x >>= fun b => Pure.pure (f b)) (f v) :=
  comes.bind (.pure (f v))

end

theorem Tracking.definite_succeeding {ε : Type} (d : Nat) :
    (succeeding (ε := ε) d).Definite := ⟨fun rel => rel⟩

theorem Concurrent.definite_total {ι ε : Type} (d : Nat) :
    (total d : Tracking d (Concurrent ι ε) Id).Definite := by
  refine ⟨fun {_ _ R x y} rel => ⟨rel.1, fun calls r run => ?_⟩⟩
  cases rel.2 calls r run with
  | ok related => exact .ok related

/-! ## Selections -/

/-- A selection that has room for its table and for all elements. -/
theorem Window.comesTo_select {ε α : Type} {m : Type → Type} [Monad m] [LawfulMonad m] [Fork ε m]
    [Reports m] [RoomFailure ε] [Cell α] {w : Window α} {T : Tracking w.lo m Id}
    (definite : T.Definite) (table : hasRoom w.size indexBytes)
    (place : hasRoom w.size (Cell.bytes α)) {f : α → m Bool} {g : α → Bool}
    (same : ∀ x, T.Same (f x) (g x)) :
    T.ComesTo (w.select f) (w.array.derive ((w.upTo w.hi).filter g).toArray) := by
  let t := w.array.leafThreshold w.size
  have begun : T.ComesTo (w.begin .select w.size) t :=
    (T.comesTo_note (.processing .select w.size t.val)).bind (.pure t)
  suffices T.ComesTo (w.selected f 0) ((w.upTo w.hi).filter g).toArray from this.map w.array.derive
  refine begun.bind ?_
  rw [claimRoom_of_room table, pure_bind]
  have built := definite.value (follows_build same t)
  refine T.bind (g := fun _ => pure ()) built fun tree _ follows => ?_
  obtain ⟨sized, indices⟩ := w.found_of_follows follows
  have size := w.size_selection sized indices
  have few : 0 + tree.size ≤ w.size := by
    rw [Nat.zero_add, size, ← length_upTo]
    exact List.length_filter_le _ _
  have noted : T.ComesTo (Reports.note (.selected tree.size w.lo w.hi)) () := by
    have note := T.comesTo_note (.selected tree.size 0 w.size)
    rwa [Notice.moved, Nat.add_zero, lo_add_size] at note
  rw [claimRoom_of_room (hasRoom_of_le few place), sized.fetchAll_eq, indices,
    filterMap_get?_filter]
  exact noted.bind (.bind (.pure ()) (.pure _))

/-! ## Searches -/

namespace Window
variable {α : Type} {w : Window α} {g : α → Bool}

/-- What a search for an element that satisfies a predicate may find. -/
structure Finds (w : Window α) (g : α → Bool) (found : Option Nat) : Prop where
  none_iff : found = none ↔ ∀ i ∈ List.range' w.lo w.size, (w.get? i).any g = false
  hit : ∀ i ∈ found, i ∈ List.range' w.lo w.size ∧ (w.get? i).any g
  first : w.array.pool.workers = 1 → found = w.lowest g

theorem Finds.of_ends {pool : Pool} {t : Threshold} {found : Option Nat} (fits : w.hi ≤ maxSize)
    (ends : Hunt.Ends pool t (fun i => (w.get? i).any g) w.lo w.hi found)
    (alone : w.array.pool.workers = 1 → found = w.lowest g) : w.Finds g found := by
  rw [← w.lo_add_size] at ends fits
  obtain ⟨none_iff, hit, -⟩ := ends.spec fits
  exact ⟨none_iff, hit, alone⟩

/-- The lowest index is always among them. -/
theorem finds_lowest (fits : w.hi ≤ maxSize) : w.Finds g (w.lowest g) := by
  have search : findAny (m := Id) (w.array.leafThreshold w.size) (fun i => (w.get? i).any g) w.lo
      (w.lo + w.size) = w.lowest g := findAny_eq_find? _ _ (by rwa [w.lo_add_size])
  rw [w.lo_add_size] at search
  have ends : Hunt.Ends .single (w.array.leafThreshold w.size) (fun i => (w.get? i).any g) w.lo
      w.hi (w.lowest g) := by
    rw [Hunt.Ends, if_pos (show Pool.single.workers = 1 from rfl)]
    exact search.symm
  exact .of_ends fits ends fun _ => rfl

theorem finds_hunt {ι : Type} (fits : w.hi ≤ maxSize) :
    (Concurrent.total w.lo).Rel (fun found (_ : Unit) => w.Finds g found)
      (w.hunt fun x => .ok (g x) : Concurrent ι Abort _) (pure ()) := by
  rw [hunt, Concurrent.oneOf_computes (g := g) fun _ => rfl, pure_bind]
  refine Concurrent.rel_oneOf (Hunt.exists_ends ..) fun found ends => ?_
  refine .of_ends fits ends fun one => ?_
  rw [← w.lo_add_size] at ends fits
  exact (ends.spec fits).2.2 one

end Window

namespace Command

/-! ## Scenarios -/

/-- The operations in which workers share memory. -/
structure Shared (m : Type → Type) where
  cumulate : Window Word64 → m (Window Word64)
  isSorted : Window Word64 → m Bool
  findOne : Window Word64 → m (Option Nat)

/-- All the work from left to right. -/
def Shared.plain : Shared (Except Abort) where
  cumulate w := w.cumulate (Fixed.ofInt 0) fun x y => .ok (x + y)
  isSorted w := w.isSorted
  findOne w := w.anyIndex fun x => .ok (x == Fixed.ofInt 1)

/-- The workers of a pool in any order of their steps, with an addition that may fail. -/
def Shared.inAnyOrder {ι : Type} (add : Word64 → Word64 → Except Abort Word64) :
    Shared (Concurrent ι Abort) where
  cumulate w := do
    let (s, _) ← Scan.inAnyOrder (w.array.leafThreshold w.size) (fun x y => .ends (add x y))
      .inclusive (Fixed.ofInt 0) w.part
    pure (w.refill s.toArray)
  isSorted w := match w.part.uniform? with
    | some _ => pure true
    | none => w.checkOrder fun x y => .ok (compare x y)
  findOne w := w.hunt fun x => .ok (x == Fixed.ofInt 1)

/-- The window on the input of a scenario. -/
def input (pool : Pool) (o : Options) (xs : Array Word64) : Window Word64 :=
  (⟨pool, o.threshold, .cells xs⟩ : BulkArray Word64).whole

/-- What a scenario prints, with this addition and these operations. -/
def scenario {ε : Type} {m : Type → Type} [Monad m] [Fork ε m] [Reports m] [RoomFailure ε]
    (source : Random.Source) (pool : Pool) (o : Options) (add : Word64 → Word64 → m Word64)
    (shared : Shared m) : m String :=
  match o.scenario with
  | .sum => do
    let total ← (input pool o (ascending o.inputSize)).reduce (Fixed.ofInt 0) add
    pure ("sum = " ++ digits total)
  | .summary => do
    let found ← (input pool o (randomNumbers source o.inputSize)).summary
    pure ("summary = " ++ summaryText found)
  | .select => do
    let w := input pool o (randomNumbers source o.inputSize)
    let selected ← w.select fun x => pure (isEven x)
    pure s!"selected {selected.size} out of {w.size} elements"
  | .cumulate => do
    let w ← shared.cumulate (input pool o (ascending o.inputSize))
    pure ("total = " ++ optional digits w.elems.back?)
  | .sort => do
    let w ← (input pool o (randomNumbers source o.inputSize)).sort
    let sorted ← shared.isSorted w
    pure s!"sorted {w.size} elements: {sorted}"
  | .findAny => do
    let found ← shared.findOne (input pool o (haystack source o.inputSize o.density))
    pure ("found = " ++ optional toString found)

theorem report_eq_scenario (source : Random.Source) (pool : Pool) (o : Options) :
    report source pool o = (do
      claimRoom o.inputSize (Cell.bytes Word64)
      scenario source pool o (fun x y => .ok (x + y)) Shared.plain) := by
  rw [report, scenario]
  cases o.scenario <;> rfl

/-- The line that a scenario is to print. -/
def Prints (source : Random.Source) (pool : Pool) (o : Options) (text : String) : Prop :=
  let n := o.inputSize
  let drawn := (randomNumbers source n).toList
  match o.scenario with
  | .sum => text = "sum = " ++ toString (n * (n - 1) / 2)
  | .summary => text = "summary = " ++
      summaryText (Window.summarized n (Extremes.ofList compare 0 drawn))
  | .select => text = s!"selected {drawn.countP isEven} out of {n} elements"
  | .cumulate =>
    text = "total = " ++ if n = 0 then "None" else "Some(" ++ toString (n * (n - 1) / 2) ++ ")"
  | .sort => text = s!"sorted {n} elements: true"
  | .findAny =>
    let needles := needles source n o.density
    if n = 0 ∨ o.density = 0 then text = "found = None"
    else ∃ i ∈ needles, text = "found = Some(" ++ toString i ++ ")" ∧
      (pool.workers = 1 → ∀ j ∈ needles, i ≤ j)

/-! ## Inputs -/

theorem size_drawNumbers (source : Random.Source) (n : Nat) (r : source.State)
    (out : Array Word64) : (drawNumbers source n r out).size = out.size + n := by
  induction n generalizing r out with
  | zero => rfl
  | succ n ih =>
    rw [drawNumbers, ih, Array.size_push]
    omega

theorem size_randomNumbers (source : Random.Source) (n : Nat) :
    (randomNumbers source n).size = n := by
  rw [randomNumbers, size_drawNumbers]
  exact Nat.zero_add n

theorem getElem?_foldl_setIfInBounds {α : Type} (x : α) (indices : List Nat) (xs : Array α)
    (i : Nat) : (indices.foldl (fun xs i => xs.setIfInBounds i x) xs)[i]? =
      if i ∈ indices ∧ i < xs.size then some x else xs[i]? := by
  induction indices generalizing xs with
  | nil => simp
  | cons j indices ih =>
    rw [List.foldl_cons, ih, Array.size_setIfInBounds, Array.getElem?_setIfInBounds]
    grind

theorem size_haystack (source : Random.Source) (n density : Nat) :
    (haystack source n density).size = n := by
  rw [haystack, ← Array.foldl_toList]
  induction (needles source n density).toList using List.reverseRecOn with
  | nil => exact Array.size_replicate
  | append_singleton indices i ih => rwa [List.foldl_concat, Array.size_setIfInBounds]

/-- There is a one at each of the needles, and nowhere else. -/
theorem any_haystack (source : Random.Source) (density : Nat) {n i : Nat} (lt : i < n) :
    (haystack source n density)[i]?.any (· == Fixed.ofInt 1) =
      decide (i ∈ needles source n density) := by
  have zero : (Fixed.ofInt 0 : Word64) ≠ Fixed.ofInt 1 := by decide
  rw [haystack, ← Array.foldl_toList, getElem?_foldl_setIfInBounds, Array.size_replicate]
  by_cases mem : i ∈ needles source n density <;> simp [mem, lt, zero]

section
variable (pool : Pool) (o : Options) (xs : Array Word64)

theorem size_input : (input pool o xs).size = xs.size := rfl

theorem part_input : (input pool o xs).part = .cells xs := Store.slice_all (.cells xs)

theorem upTo_input : (input pool o xs).upTo (input pool o xs).hi = xs.toList := by
  rw [← Window.toList_part, part_input]
  rfl

variable {xs} in
theorem hi_input_le (few : xs.size < 2 ^ 33) : (input pool o xs).hi ≤ maxSize := by
  have : xs.size ≤ maxSize := Nat.le_trans (Nat.le_of_lt few) (by decide)
  exact this

end

/-- So few numbers, or their indices, always have room. -/
theorem room_of_few {n : Nat} (few : n < 2 ^ 33) : hasRoom n (Cell.bytes Word64) := by
  have bytes : Cell.bytes Word64 = 8 := rfl
  have cells : 2 ^ 33 ≤ maxSize := by decide
  have block : 2 ^ 33 * 8 ≤ blockLimit := by decide
  rw [hasRoom, bytes, Bool.and_eq_true, decide_eq_true_eq, decide_eq_true_eq]
  omega

/-! ## Words in order -/

instance : Std.TransOrd Word64 := LawfulElement.order

theorem eq_of_compare_eq (x y : Word64) (eq : compare x y = .eq) : x = y :=
  Fixed.ext (compare_eq_iff_eq.mp eq)

theorem ascending_of_ordered {w : Window Word64} (ordered : w.Ordered compare) :
    w.ascending compare = true := by
  refine (Window.ascending_iff fun x y z hxy hyz => ?_).mpr ordered
  have le : (compare x z).isLE :=
    Std.TransCmp.isLE_trans (Ordering.ne_gt_iff_isLE.mp hxy) (Ordering.ne_gt_iff_isLE.mp hyz)
  exact Ordering.ne_gt_iff_isLE.mpr le

/-! ## Operations that share memory -/

/-- The shared operations come to what the scenarios expect of them. -/
structure Shared.Serves {ε : Type} {m : Type → Type} [Monad m] [LawfulMonad m] [Fork ε m]
    [Reports m] (shared : Shared m) (T : ∀ d, Tracking d m Id) : Prop where
  definite (d : Nat) : (T d).Definite
  cumulate (w : Window Word64) (small : exactSum (Fixed.ofInt 0 :: w.upTo w.hi) < 2 ^ 64) :
    (T w.lo).Rel (fun after (_ : Unit) => after.elems.toList = Scan.Reference.result
      (w.array.leafThreshold w.size) (· + ·) .inclusive true (Fixed.ofInt 0) (w.upTo w.hi))
      (shared.cumulate w) (pure ())
  isSorted (w : Window Word64) (fits : w.hi ≤ maxSize) (ordered : w.Ordered compare) :
    (T w.lo).ComesTo (shared.isSorted w) true
  findOne (w : Window Word64) (fits : w.hi ≤ maxSize) :
    (T w.lo).Rel (fun found (_ : Unit) => w.Finds (· == Fixed.ofInt 1) found) (shared.findOne w)
      (pure ())

theorem Shared.plain_serves : Shared.plain.Serves Tracking.succeeding where
  definite := Tracking.definite_succeeding
  cumulate w small := by
    have follows : (Tracking.succeeding w.lo).Rel w.Left (Shared.plain.cumulate w)
        (w.alone.whole.cumulate (m := Id) (Fixed.ofInt 0) fun x y => x + y) :=
      Window.tracks_cumulate fun x y => ⟨x + y, rfl, rfl⟩
    obtain ⟨after, ok, left⟩ := follows
    have values := (Scan.scan_id (w.array.leafThreshold w.alone.whole.size)
      (fun x y : Word64 => x + y) .inclusive (Fixed.ofInt 0) w.alone.whole.part).1
    refine ⟨after, ok, ?_⟩
    rw [Window.eq_refill_of_left left]
    show (Window.elems (w.refill (Window.elems (w.alone.whole.refill _)))).toList = _
    rw [Window.elems_refill, Window.elems_refill, Store.toList_toArray]
    refine values.trans ?_
    rw [Window.size_alone, Window.part_alone, Window.toList_part]
  isSorted w fits ordered := by
    rw [← ascending_of_ordered ordered]
    exact (Window.same_isSorted fits).comesTo (Tracking.definite_succeeding w.lo)
  findOne w fits := by
    obtain ⟨found, ok, eq⟩ := Window.same_anyIndex (T := Tracking.succeeding (ε := Abort) w.lo)
      (g := (· == Fixed.ofInt 1)) fits fun x => ⟨_, rfl, rfl⟩
    subst eq
    exact ⟨_, ok, Window.finds_lowest fits⟩

theorem Shared.inAnyOrder_serves {ι : Type} {add : Word64 → Word64 → Except Abort Word64}
    (adds : Adds add) : (Shared.inAnyOrder (ι := ι) add).Serves Concurrent.total where
  definite := Concurrent.definite_total
  cumulate w small := by
    rw [← Window.toList_part] at small ⊢
    have totals := Scan.rel_inAnyOrder (ι := ι) (ε := Abort) (adds.along small)
      (w.array.leafThreshold w.size) .inclusive
    refine (Concurrent.total w.lo).bind (g := fun _ => pure ()) totals ?_
    rintro left _ ⟨elems, -⟩
    refine (Concurrent.total w.lo).pure ?_
    rw [Window.elems_refill, Store.toList_toArray, elems]
  isSorted w fits ordered := by
    show (Concurrent.total w.lo).ComesTo (match w.part.uniform? with
      | some _ => pure true
      | none => w.checkOrder _) _
    cases w.part.uniform? with
    | some x => exact .pure true
    | none =>
      rw [← ascending_of_ordered ordered]
      exact (Window.same_checkOrder (fun _ _ => rfl) fits).comesTo (Concurrent.definite_total w.lo)
  findOne w fits := Window.finds_hunt fits

/-! ## What is printed -/

theorem digits_of_val {x : Word64} {k : Nat} (val : x.val = k) : digits x = toString k := by
  rw [digits, val]
  rfl

section
variable {ε : Type} {m : Type → Type} [Monad m] [LawfulMonad m] [Fork ε m] [Reports m]
  [RoomFailure ε] {T : ∀ d, Tracking d m Id} {source : Random.Source} {pool : Pool} {o : Options}
  {add : Word64 → Word64 → m Word64} {shared : Shared m}

theorem scenario_sum (chosen : o.scenario = .sum)
    (small : o.inputSize * (o.inputSize - 1) / 2 < 2 ^ 64)
    (along : (T 0).Along add (· + ·) (Fixed.ofInt 0 :: (ascending o.inputSize).toList)) :
    (T 0).ComesTo (scenario source pool o add shared)
      ("sum = " ++ toString (o.inputSize * (o.inputSize - 1) / 2)) := by
  let w := input pool o (ascending o.inputSize)
  rw [← upTo_input pool o] at along
  have total := Window.comesTo_reduce (T := T 0) (w := w) along
  rw [scenario, chosen, ← digits_of_val (val_reduced (w := w) small (upTo_input pool o _))]
  exact total.then_pure fun total => "sum = " ++ digits total

theorem scenario_summary (definite : (T 0).Definite) (chosen : o.scenario = .summary) :
    (T 0).ComesTo (scenario source pool o add shared) ("summary = " ++ summaryText
      (Window.summarized o.inputSize
        (Extremes.ofList compare 0 (randomNumbers source o.inputSize).toList))) := by
  let found := Window.summarized o.inputSize
    (Extremes.ofList compare 0 (randomNumbers source o.inputSize).toList)
  have same := Window.same_summary (w := input pool o (randomNumbers source o.inputSize))
    (T := T 0)
  rw [upTo_input, size_input, size_randomNumbers] at same
  have here : found.moved 0 = found := by
    simp [found, Summary.moved, Window.summarized, Function.comp_def]
  have comes : (T 0).ComesTo _ (found.moved 0) := same.comesTo definite
  rw [here] at comes
  rw [scenario, chosen]
  exact comes.then_pure fun found => "summary = " ++ summaryText found

theorem scenario_select (definite : (T 0).Definite) (chosen : o.scenario = .select)
    (few : o.inputSize < 2 ^ 33) :
    (T 0).ComesTo (scenario source pool o add shared) (
      let even := (randomNumbers source o.inputSize).toList.countP isEven
      s!"selected {even} out of {o.inputSize} elements") := by
  let w := input pool o (randomNumbers source o.inputSize)
  have size : w.size = o.inputSize := size_randomNumbers source o.inputSize
  have room : hasRoom w.size (Cell.bytes Word64) := room_of_few (by rwa [size])
  have selected : (T 0).ComesTo (w.select fun x => pure (isEven x)) _ :=
    Window.comesTo_select definite room room fun x => .pure (isEven x)
  rw [upTo_input] at selected
  have line (k : Nat) : s!"selected {k} out of {o.inputSize} elements" =
      s!"selected {k} out of {w.size} elements" := by rw [size]
  have told := selected.then_pure fun selected =>
    s!"selected {selected.size} out of {w.size} elements"
  rw [scenario, chosen, List.countP_eq_length_filter]
  show (T 0).ComesTo _ s!"selected {List.length _} out of {o.inputSize} elements"
  rw [line]
  exact told

theorem scenario_cumulate (serves : shared.Serves T) (chosen : o.scenario = .cumulate)
    (small : o.inputSize * (o.inputSize - 1) / 2 < 2 ^ 64) :
    (T 0).ComesTo (scenario source pool o add shared) ("total = " ++
      if o.inputSize = 0 then "None"
      else "Some(" ++ toString (o.inputSize * (o.inputSize - 1) / 2) ++ ")") := by
  let w := input pool o (ascending o.inputSize)
  have exact_sum := exactSum_ascending small
  have totals := serves.cumulate w (by rw [upTo_input]; omega)
  rw [upTo_input] at totals
  rw [scenario, chosen]
  refine (T 0).bind (g := fun _ => pure ()) totals fun after _ elems => (T 0).pure ?_
  have last := val_last_result small (w.array.leafThreshold w.size)
  rw [← elems, Array.getLast?_toList] at last
  split at last
  · next none =>
    rw [Option.map_eq_none_iff.mp last, if_pos none]
    rfl
  · next some =>
    obtain ⟨x, last, val⟩ := Option.map_eq_some_iff.mp last
    rw [last, if_neg some, optional, digits_of_val val]

theorem scenario_sort (serves : shared.Serves T) (chosen : o.scenario = .sort)
    (few : o.inputSize < 2 ^ 33) :
    (T 0).ComesTo (scenario source pool o add shared) s!"sorted {o.inputSize} elements: true" := by
  let xs := randomNumbers source o.inputSize
  have drawn : xs.size = o.inputSize := size_randomNumbers source o.inputSize
  have sorted := Window.same_sort (w := input pool o xs) (T := T 0) eq_of_compare_eq
  rw [upTo_input] at sorted
  -- What is checked afterwards are the same numbers in order, in a window of the same size.
  let after := (input pool o xs).refill (xs.toList.mergeSort fun x y => (compare x y).isLE).toArray
  have sorts : Sorts compare (xs.toList.mergeSort fun x y => (compare x y).isLE) xs.toList :=
    sorts_mergeSort xs.toList
  have size : after.size = o.inputSize := by
    rw [← drawn, ← Array.length_toList, ← sorts.perm.length_eq]
    exact Nat.add_sub_cancel_left _ _
  have fits : after.hi ≤ maxSize := by
    have : after.lo + after.size = after.hi := after.lo_add_size
    have : after.lo = 0 := rfl
    have : 2 ^ 33 ≤ maxSize := by decide
    omega
  have ordered : after.Ordered compare := by
    apply Window.Ordered.of_inOrder
    rw [Window.upTo_refill]
    exact sorts.inOrder
  have told := (serves.isSorted after fits ordered).then_pure fun sorted =>
    s!"sorted {after.size} elements: {sorted}"
  have yes : s!"sorted {after.size} elements: {true}" =
      s!"sorted {o.inputSize} elements: true" := by
    rw [size]
    exact @String.append_assoc _ " elements: " "true"
  rw [scenario, chosen, ← yes]
  exact (sorted.comesTo (serves.definite 0)).bind told

section
variable (samples : source.Samples) {n density : Nat}
include samples

/-- The needles are where the ones are. -/
theorem mem_needles_iff {i : Nat} : i ∈ needles source n density ↔
    i ∈ List.range' 0 n ∧
      ((input pool o (haystack source n density)).get? i).any (· == Fixed.ofInt 1) := by
  have one : i < n → ((input pool o (haystack source n density)).get? i).any
      (· == Fixed.ofInt 1) = decide (i ∈ needles source n density) := any_haystack source density
  rw [List.mem_range'_1, Nat.zero_add]
  constructor
  · intro needle
    have lt : i < n :=
      (samples n _ _ (Nat.min_le_right density n)).lt i (Array.mem_toList_iff.mpr needle)
    exact ⟨⟨Nat.zero_le i, lt⟩, (one lt).trans (decide_eq_true needle)⟩
  · rintro ⟨⟨-, lt⟩, hit⟩
    exact of_decide_eq_true ((one lt).symm.trans hit)

theorem no_needles_iff : (∀ i, i ∉ needles source n density) ↔ n = 0 ∨ density = 0 := by
  have size := (samples n _ (source.ofSeed seed) (Nat.min_le_right density n)).size
  rw [← Array.eq_empty_iff_forall_not_mem, ← Array.size_eq_zero_iff, needles, size]
  omega

/-- What is found among the zeros and ones is a needle. -/
theorem needle_of_finds {found : Option Nat}
    (finds : (input pool o (haystack source n density)).Finds (· == Fixed.ofInt 1) found) :
    (found = none ↔ n = 0 ∨ density = 0) ∧ ∀ i ∈ found, i ∈ needles source n density ∧
      (pool.workers = 1 → ∀ j ∈ needles source n density, i ≤ j) := by
  have needle_iff (i : Nat) : i ∈ needles source n density ↔ i ∈ List.range' 0 n ∧
      ((input pool o (haystack source n density)).get? i).any (· == Fixed.ofInt 1) :=
    mem_needles_iff samples
  have range : List.range' (input pool o (haystack source n density)).lo
      (input pool o (haystack source n density)).size = List.range' 0 n := by
    rw [size_input, size_haystack]
    rfl
  obtain ⟨none_iff, hit, first⟩ := finds
  rw [Window.lowest] at first
  rw [range] at none_iff hit first
  constructor
  · rw [none_iff, ← no_needles_iff samples]
    simp only [needle_iff, not_and, Bool.not_eq_true]
  · refine fun i some => ⟨(needle_iff i).mpr (hit i some), fun one j needle => ?_⟩
    have lowest := (Option.mem_def.mp some).symm.trans (first one)
    obtain ⟨inside, hit⟩ := (needle_iff j).mp needle
    -- A needle before the lowest match would be a match itself.
    rw [eq_comm, List.find?_range'_eq_some] at lowest
    by_contra before
    have zero := lowest.2.2 j (Nat.zero_le j) (Nat.lt_of_not_le before)
    rw [hit] at zero
    cases zero

end

theorem scenario_findAny (serves : shared.Serves T) (chosen : o.scenario = .findAny)
    (samples : source.Samples) (few : o.inputSize < 2 ^ 33) :
    let needles := needles source o.inputSize o.density
    (T 0).Rel (fun text (_ : Unit) =>
        if o.inputSize = 0 ∨ o.density = 0 then text = "found = None"
        else ∃ i ∈ needles, text = "found = Some(" ++ toString i ++ ")" ∧
          (pool.workers = 1 → ∀ j ∈ needles, i ≤ j))
      (scenario source pool o add shared) (pure ()) := by
  intro needles
  have fits : (input pool o (haystack source o.inputSize o.density)).hi ≤ maxSize :=
    hi_input_le pool o (by rwa [size_haystack])
  rw [scenario, chosen]
  refine (T 0).bind (g := fun _ => pure ()) (serves.findOne _ fits) fun found _ finds =>
    (T 0).pure ?_
  obtain ⟨none_iff, needle⟩ := needle_of_finds samples finds
  cases found with
  | none =>
    rw [if_pos (none_iff.mp rfl)]
    rfl
  | some i =>
    obtain ⟨mem, lowest⟩ := needle i rfl
    rw [if_neg fun nothing => Option.some_ne_none i (none_iff.mpr nothing)]
    refine ⟨i, mem, ?_, lowest⟩
    rw [optional, ← String.append_assoc, ← String.append_assoc]
    rfl

/-- Every scenario prints its line. -/
theorem rel_scenario (serves : shared.Serves T) (samples : o.scenario = .findAny → source.Samples)
    (small : o.inputSize * (o.inputSize - 1) / 2 < 2 ^ 64)
    (along : (T 0).Along add (· + ·) (Fixed.ofInt 0 :: (ascending o.inputSize).toList)) :
    (T 0).Rel (fun text (_ : Unit) => Prints source pool o text)
      (scenario source pool o add shared) (pure ()) := by
  have few := lt_of_sum_lt small
  have definite := serves.definite 0
  simp only [Prints]
  cases chosen : o.scenario with
  | sum => exact scenario_sum chosen small along
  | summary => exact scenario_summary definite chosen
  | select => exact scenario_select definite chosen few
  | cumulate => exact scenario_cumulate serves chosen small
  | sort => exact scenario_sort serves chosen few
  | findAny => exact scenario_findAny serves chosen (samples chosen) few

end

/-- The program prints the line of its scenario, for all arguments that it takes, as long as the
numbers below the input size have a sum that fits. So do the workers of its pool in all orders of
their steps, even with an addition that fails for sums that do not fit. Only a search expects its
needles to be a sample. -/
theorem run_prints (source : Random.Source) (processors : Nat) (args : List String)
    (o : Options) (pool : Pool) (parsed : Options.parse args = .ok o)
    (built : Id.run (Pool.build processors o.workers o.pinning) = .ok pool)
    (small : o.inputSize * (o.inputSize - 1) / 2 < 2 ^ 64)
    (samples : o.scenario = .findAny → source.Samples) :
    (∃ text, run processors args source = ⟨0, text ++ "\n", ""⟩ ∧ Prints source pool o text) ∧
    ∀ (ι : Type) (add : Word64 → Word64 → Except Abort Word64), Adds add →
      (scenario source pool o (fun x y => .ends (add x y)) (.inAnyOrder add) :
        Concurrent ι Abort String).Always fun _ r =>
          ∃ text, r = .ok text ∧ Prints source pool o text := by
  constructor
  case left =>
    obtain ⟨text, ok, prints⟩ :=
      rel_scenario Shared.plain_serves samples small (plain_along _)
    -- The input is so short that there is always room for it.
    have told : report source pool o = .ok text := by
      rw [report_eq_scenario, claimRoom_of_room (room_of_few (lt_of_sum_lt small))]
      exact ok
    refine ⟨text, ?_, prints⟩
    rw [run, parsed]
    dsimp only
    rw [built]
    dsimp only
    rw [told]
  case right =>
    intro ι add adds
    have exact_sum := exactSum_ascending small
    exact Concurrent.always_of_rel
      (rel_scenario (Shared.inAnyOrder_serves adds) samples small (adds.along (by omega)))

/-- The numbers below five have the total ten, for workers that check for overflow too, and a needle
among three numbers is found. -/
theorem run_prints_ten :
    run 4 ["--scenario=cumulate", "--input-size", "5"] = ⟨0, "total = Some(10)\n", ""⟩ ∧
    (scenario .stream ⟨4, by decide⟩ ⟨.available, .ifSupported, none, .cumulate, 5, 1⟩
      (fun x y => .ends (checkedAdd x y)) (.inAnyOrder checkedAdd) :
        Concurrent Unit Abort String).Always (fun _ r => r = .ok "total = Some(10)") ∧
    ∃ i < 3, run 4 ["--scenario", "find-any", "--input-size=3", "--num-threads=2"] =
      ⟨0, "found = Some(" ++ toString i ++ ")\n", ""⟩ := by
  obtain ⟨⟨text, ran, prints⟩, together⟩ := run_prints .stream 4
    ["--scenario=cumulate", "--input-size", "5"] _ ⟨4, by decide⟩ rfl rfl (by decide) nofun
  obtain ⟨⟨line, ran', found⟩, -⟩ := run_prints .stream 4
    ["--scenario", "find-any", "--input-size=3", "--num-threads=2"] _ ⟨2, by decide⟩ rfl rfl
    (by decide) fun _ => Random.samples_stream
  refine ⟨?_, ?_, ?_⟩
  · rw [ran, show text = _ from prints]
    decide
  · refine (together Unit checkedAdd adds_checkedAdd).mono fun _ r ends => ?_
    obtain ⟨text, rfl, prints⟩ := ends
    rw [show text = _ from prints]
    rfl
  · obtain ⟨i, mem, rfl, -⟩ := found
    refine ⟨i, ?_, ?_⟩
    · exact (Random.samples_stream 3 1 _ (by decide)).lt i (Array.mem_toList_iff.mpr mem)
    · rw [ran', String.append_assoc]
      rfl

end Command

end Bisection
