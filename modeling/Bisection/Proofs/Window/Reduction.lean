import Bisection.Proofs.Pieces.Forking
import Bisection.Proofs.Pieces.Halving
import Bisection.Proofs.Pieces.Metering
import Bisection.Proofs.Window.Totals

/-!
# What a reduction computes

A reduction puts brackets around the elements of a window and combines the base value with what
they come to. `Brackets` is the shape of the brackets: it follows the tree of the bisection, so it
depends on the length and the threshold alone. The operator is called once for each element.
-/

namespace Bisection
set_option autoImplicit false

/-! ## Brackets -/

/-- Where the brackets are around some elements. -/
inductive Brackets where
  | one
  | pair (left right : Brackets)
deriving DecidableEq, Repr

namespace Brackets
variable {α : Type}

/-- `n` more elements combined one by one from the left. -/
def fromLeft : Nat → Brackets
  | 0 => one
  | n + 1 => pair (fromLeft n) one

/-- The elements in their order, with these brackets around them, come to a value. -/
inductive Value (op : α → α → α) : Brackets → List α → α → Prop where
  | one (x : α) : Value op .one [x] x
  | pair {l r : Brackets} {xs ys : List α} {x y : α} (left : Value op l xs x)
    (right : Value op r ys y) : Value op (.pair l r) (xs ++ ys) (op x y)

variable {op : α → α → α}

theorem Value.bracketing {b : Brackets} {xs : List α} {y : α} (value : b.Value op xs y) :
    Scan.Bracketing op xs y := by
  induction value with
  | one x => exact .single x
  | pair left right ihl ihr => exact ihl.combine ihr

theorem Value.foldl (op : α → α → α) (x : α) (xs : List α) :
    (fromLeft xs.length).Value op (x :: xs) (xs.foldl op x) := by
  induction xs using List.reverseRecOn with
  | nil => exact .one x
  | append_singleton xs y ih =>
    rw [List.length_append, List.foldl_append]
    exact ih.pair (.one y)

end Brackets

/-- The brackets along a tree: each leaf is combined from the left. -/
def Halving.brackets : Halving → Brackets
  | leaf s => .fromLeft (s.size - 1)
  | node _ left right => .pair left.brackets right.brackets

/-- The brackets of a reduction of `n` elements. -/
def reduceBrackets (t : Threshold) (n : Nat) : Brackets := (halving t 0 n).brackets

theorem brackets_halving (t : Threshold) (lo n : Nat) :
    (halving t lo n).brackets = reduceBrackets t n := by
  induction n using Nat.strongRecOn generalizing lo with
  | ind n ih =>
    rw [reduceBrackets]
    by_cases h : n ≤ t.val
    · rw [halving_of_le h, halving_of_le h, Halving.brackets, Halving.brackets,
        Span.size_add_right, Span.size_add_right]
    · have two := Threshold.two_le h
      rw [halving_of_lt h, halving_of_lt h, Halving.brackets, Halving.brackets,
        ih (n / 2) (by omega), ih (n / 2) (by omega), ih (n - n / 2) (by omega),
        ih (n - n / 2) (by omega)]

section
variable {α : Type} {t : Threshold} {op : α → α → α} {xs : List α}

theorem reduceBrackets_of_le {n : Nat} (h : n ≤ t.val) :
    reduceBrackets t n = .fromLeft (n - 1) := by
  rw [reduceBrackets, halving_of_le h, Halving.brackets, Span.size_add_right]

theorem reduceBrackets_of_lt {n : Nat} (h : ¬ n ≤ t.val) : reduceBrackets t n =
    .pair (reduceBrackets t (n / 2)) (reduceBrackets t (n - n / 2)) := by
  rw [reduceBrackets, halving_of_lt h, Halving.brackets, brackets_halving, brackets_halving]

/-- The total that a bisection comes to has the brackets of a reduction. -/
theorem value_innerTotal {y : α} (total : Scan.Reference.innerTotal t op xs = some y) :
    (reduceBrackets t xs.length).Value op xs y := by
  induction xs using Scan.Reference.innerTotal.induct t generalizing y with
  | case1 xs le =>
    rw [Scan.Reference.innerTotal_of_le le] at total
    rw [reduceBrackets_of_le le]
    cases xs with
    | nil => cases total
    | cons x xs =>
      cases total
      exact .foldl op x xs
  | case2 xs gt half ihr =>
    rename_i ihl
    obtain ⟨x, z, left, right, combined⟩ := Scan.Reference.exists_innerTotal_halves op gt
    rw [combined] at total
    cases total
    have front := ihl left
    have back := ihr right
    rw [List.length_take, Nat.min_eq_left (Nat.div_le_self _ 2)] at front
    rw [List.length_drop] at back
    have whole := front.pair back
    rw [List.take_append_drop] at whole
    rw [reduceBrackets_of_lt gt]
    exact whole

end

/-! ## Reductions -/

section
variable {α : Type} {m : Type → Type} [Monad m] [LawfulMonad m] {op : α → α → α} {tick : m Unit}

/-- A leaf combines its first element with the others. -/
theorem reduceM_metered (s : Store α) : s.reduceM (metered tick op) =
    afterTicks tick (Scan.Reference.leafTotal op s.toList) (s.size - 1) := by
  rw [Store.reduceM, Store.foldlM_eq_foldlM_toList, ← Store.length_toList]
  cases s.toList with
  | nil => rfl
  | cons x xs =>
    rw [List.foldlM_cons, pure_bind, Scan.Reference.leafTotal, List.length_cons,
      Nat.add_sub_cancel]
    induction xs generalizing x with
    | nil => rfl
    | cons y ys ih =>
      have first : some <$> metered tick op x y = afterTicks tick (some (op x y)) 1 :=
        afterTicks_map some
      rw [List.foldlM_cons]
      dsimp only
      rw [first, List.foldl_cons, List.length_cons, Nat.add_comm]
      exact afterTicks_bind (ih (op x y))

variable {ε : Type} [Fork ε m] [SequentialFork m]

/-- A bisection combines each element but the first with what is before it. -/
theorem forkPieces_metered (t : Threshold) (s : Store α) (lo : Nat) :
    forkPieces t (fun s _ => s.reduceM (metered tick op))
        (Window.joinTotals (metered tick op)) s lo =
      afterTicks tick (Scan.Reference.innerTotal t op s.toList) (s.size - 1) := by
  refine forkPieces_sequential (fun s _ => afterTicks tick (Scan.Reference.innerTotal t op s.toList)
    (s.size - 1)) (fun s lo short => ?_) (fun s lo long => ?_) s lo
  · have short : s.size ≤ t.val := short
    rw [reduceM_metered, Scan.Reference.innerTotal_of_le (by rwa [Store.length_toList])]
  · have long : ¬ s.size ≤ t.val := long
    have two := Threshold.two_le long
    have many : ¬ s.toList.length ≤ t.val := by rwa [Store.length_toList]
    obtain ⟨x, y, front, back, total⟩ := Scan.Reference.exists_innerTotal_halves op many
    rw [Store.length_toList] at front back
    have sizeLeft : (Piece.left s).size = s.size / 2 := size_left s
    have sizeRight : (Piece.right s).size = s.size - s.size / 2 := size_right s
    have calls : s.size / 2 - 1 + (s.size - s.size / 2 - 1 + 1) = s.size - 1 := by omega
    rw [toList_left, toList_right, sizeLeft, sizeRight, front, back, total, ← calls]
    exact afterTicks_bind (afterTicks_bind (afterTicks_map some))

end

namespace Window
variable {α : Type}

/-- What a reduction of the elements of a window comes to. -/
def reduced (w : Window α) (base : α) (op : α → α → α) : α :=
  (Scan.Reference.innerTotal (w.array.leafThreshold w.size) op (w.upTo w.hi)).elim base (op base)

theorem bracketing_reduced (w : Window α) (base : α) (op : α → α → α) :
    Scan.Bracketing op (base :: w.upTo w.hi) (w.reduced base op) := by
  have whole : Scan.Bracketing op ([base] ++ w.upTo w.hi) (Scan.Reference.add op base
      (Scan.Reference.innerTotal (w.array.leafThreshold w.size) op (w.upTo w.hi))) :=
    (Scan.Bracketing.single base).add _
  rw [reduced]
  cases found : Scan.Reference.innerTotal (w.array.leafThreshold w.size) op (w.upTo w.hi) <;>
    rwa [found] at whole

/-- A reduction calls its operator once for each element. -/
theorem reduce_metered {ε : Type} {m : Type → Type} [Monad m] [LawfulMonad m] [Fork ε m]
    [SequentialFork m] [Reports m] (silent : ∀ n, Reports.note n = (pure () : m Unit))
    (w : Window α) (base : α) (op : α → α → α) (tick : m Unit) :
    w.reduce base (metered tick op) = afterTicks tick (w.reduced base op) w.size := by
  have part : w.part.size = w.size := w.size_part
  have length := w.length_upTo
  rw [reduce, begin, silent, pure_bind, pure_bind, forkPieces_metered, toList_part, reduced, part]
  cases total : Scan.Reference.innerTotal (w.array.leafThreshold w.size) op (w.upTo w.hi) with
  | none =>
    rw [Scan.Reference.eq_nil_of_innerTotal total] at length
    rw [← length]
    exact afterTicks_bind (c := 0) rfl
  | some T =>
    have pos : w.size - 1 + 1 = w.size := by
      have := List.length_pos_iff.mpr (value_innerTotal total).bracketing.ne_nil
      omega
    rw [← pos]
    exact afterTicks_bind rfl

theorem reduced_eq_foldl {op : α → α → α} (assoc : Std.Associative op) (w : Window α) (base : α) :
    w.reduced base op = (w.upTo w.hi).foldl op base :=
  (w.bracketing_reduced base op).eq_foldl assoc

theorem reduce_id (w : Window α) (base : α) (op : α → α → α) :
    w.reduce (m := Id) base op = w.reduced base op := by
  have metered : w.reduce (m := Id) base op = _ :=
    w.reduce_metered (m := Id) (fun _ => rfl) base op (pure ())
  exact metered.trans (afterTicks_id _ _)

/-- A reduction of an empty window gives the base value. Otherwise it combines the base value with
the elements, in their order and with brackets that depend on their number and the threshold alone,
and calls the operator once for each element. If the operator is associative this is the fold from
the left. -/
theorem reduce_brackets (w : Window α) (base : α) (op : α → α → α) :
    let total : α := w.reduce (m := Id) base op
    (w.lo = w.hi → total = base) ∧
    (w.lo < w.hi → ∃ T, (reduceBrackets (w.array.leafThreshold w.size) w.size).Value op
      (w.upTo w.hi) T ∧ total = op base T) ∧
    (∀ k, (w.reduce base (metered countCall op)).run k = (total, k + (w.hi - w.lo))) ∧
    (Std.Associative op → total = (w.upTo w.hi).foldl op base) := by
  intro total
  have value : total = w.reduced base op := w.reduce_id base op
  have brackets (lt : w.lo < w.hi) :
      ∃ T, (reduceBrackets (w.array.leafThreshold w.size) w.size).Value op (w.upTo w.hi) T ∧
        total = op base T := by
    have known : (Scan.Reference.innerTotal (w.array.leafThreshold w.size) op
        (w.upTo w.hi)).isSome := by
      refine Scan.Reference.isSome_innerTotal (List.ne_nil_of_length_pos ?_)
      rw [length_upTo]
      exact Nat.sub_pos_of_lt lt
    obtain ⟨T, inner⟩ := Option.isSome_iff_exists.mp known
    have shape := value_innerTotal inner
    rw [length_upTo] at shape
    refine ⟨T, shape, ?_⟩
    rw [value, reduced, inner]
    rfl
  refine ⟨fun empty => ?_, brackets, fun k => ?_, fun assoc => ?_⟩
  · rw [value, reduced, upTo, empty, List.drop_take_self,
      Scan.Reference.innerTotal_of_le (Nat.zero_le _)]
    rfl
  · rw [w.reduce_metered (m := StateM Nat) (fun _ => rfl), run_afterTicks, value]
    rfl
  · rw [value, reduced_eq_foldl assoc]

end Window

end Bisection
