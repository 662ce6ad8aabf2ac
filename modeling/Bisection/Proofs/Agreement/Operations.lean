import Bisection.Proofs.Agreement.Sharing
import Bisection.Proofs.Window.Duplicates

/-!
# Operations come to the same

An operation with lawful callbacks comes to the same wherever its window is cut and by any number of
workers: one outcome for the contents of a window, which every run of the operation ends with, on
any pool and with any threshold (`Operation.Lawful.settled`). Only the order of what is visited is
open.
-/

namespace Bisection
set_option autoImplicit false

/-! ## Other pools and thresholds -/

section
variable {α : Type}

/-- The same elements on another pool, with another threshold. -/
def BulkArray.on (a : BulkArray α) (pool : Pool) (t : Option Threshold) : BulkArray α :=
  ⟨pool, t, a.store⟩

/-- The same window of an array on another pool, with another threshold. -/
def Window.on (w : Window α) (pool : Pool) (t : Option Threshold) : Window α :=
  { w with array := w.array.on pool t }

/-- Findings that tell the same. -/
inductive Finding.Alike : Finding α → Finding α → Prop where
  | same (finding : Finding α) : Alike finding finding
  | visited {xs ys : Array α} (perm : xs.toList.Perm ys.toList) : Alike (visited xs) (visited ys)

namespace Operation

/-- What an operation leaves and finds, on another pool and with another threshold. -/
def on (pool : Pool) (t : Option Threshold) (p : Window α × Finding α) : Window α × Finding α :=
  (p.1.on pool t, p.2)

/-- The same window, and findings that tell the same. -/
def Alike (p q : Window α × Finding α) : Prop := p.1 = q.1 ∧ p.2.Alike q.2

theorem alike_of_eq (p q : Window α × Finding α) (eq : p = q) : Alike p q := by
  subst eq
  exact ⟨rfl, .same _⟩

/-- On any pool and with any threshold an operation comes to an outcome, and so do all its runs by
many workers if an index that it searches for is determined. -/
structure Settled [Element α] (w : Window α) (op : Operation α)
    (out : Except Abort (Window α × Finding α)) : Prop where
  performed : ∀ pool t o,
    (Watched.ending w.lo).Rel Alike (op.run o (w.on pool t)) (on pool t <$> out)
  concurrent : ∀ pool t, op.Determined (w.on pool t) →
    (Concurrent.tracking w.lo).Rel Alike (op.concurrent (w.on pool t)) (on pool t <$> out)

end Operation

end

/-! ## Callbacks -/

namespace Callback
variable {ι α β γ : Type} {d : Nat}

section
variable {f : α → Except Abort β} {g : α → β} (computes : Computes f g)
include computes

/-- A watched call of a function that never gives up comes to its value. -/
theorem Computes.onElement [Element α] (o : Watch) (x : α) :
    (Watched.total d).Same (Watched.onElement o f x) (g x) := fun j => by
  show Results Eq Eq (f x) (.ok (g x))
  rw [computes x]
  exact .ok rfl

/-- So does a call that is not watched. -/
theorem Computes.ends (x : α) :
    (Concurrent.total d : Tracking d (Concurrent ι Abort) Id).Same (.ends (f x)) (g x) :=
  Concurrent.same_ends (computes x)

end

theorem Computes.onIndex {f : Nat → Except Abort β} {g : Nat → β} (computes : Computes f g)
    (o : Watch) (i : Nat) : (Watched.total d).Same (Watched.onIndex o f i) (g i) := fun j => by
  show Results Eq Eq (f i) (.ok (g i))
  rw [computes i]
  exact .ok rfl

theorem Computes₂.onPair [Element α] {f : α → α → Except Abort β} {g : α → α → β}
    (computes : Computes₂ f g) (o : Watch) (x y : α) :
    (Watched.total d).Same (Watched.onPair o f x y) (g x y) := fun j => by
  show Results Eq Eq (f x y) (.ok (g x y))
  rw [computes x y]
  exact .ok rfl

theorem Computes₂.ends {f : α → β → Except Abort γ} {g : α → β → γ} (computes : Computes₂ f g)
    (x : α) (y : β) :
    (Concurrent.total d : Tracking d (Concurrent ι Abort) Id).Same (.ends (f x y)) (g x y) :=
  Concurrent.same_ends (computes x y)

end Callback

theorem Likeness.Same.then_pure {m m' : Type → Type} [Monad m] [LawfulMonad m] [Monad m']
    [LawfulMonad m'] {ρ : Likeness m m'} {β γ : Type} {x : m β} {y : m' β} (same : ρ.Same x y)
    (f : β → γ) : ρ.Same (x >>= fun b => Pure.pure (f b)) (f <$> y) := by
  rw [← map_eq_pure_bind]
  exact same.map f

/-- What is done with the result of a claim is done after the claim. -/
theorem Likeness.Same.then_claimed {ε : Type} [RoomFailure ε] {m : Type → Type} [Monad m]
    [LawfulMonad m] {ρ : Likeness m (Except ε)} {β γ : Type} {cells bytes : Nat} {x : m β} {b : β}
    (same : ρ.Same x (do claimRoom cells bytes; .ok b)) (f : β → γ) :
    ρ.Same (x >>= fun b => Pure.pure (f b)) (do claimRoom cells bytes; .ok (f b)) := by
  rw [← map_claimRoom]
  exact same.then_pure f

/-! ## Outcomes -/

namespace Operation
open Callback
variable {α : Type} [Element α] {w : Window α} {op : Operation α}

/-- An operation is settled if both ways to run it come to the same, with any threshold. -/
theorem Settled.of_same {out : Except Abort (Window α × Finding α)}
    (performed : ∀ pool t o,
      (Watched.ending w.lo).Same (op.run o (w.on pool t)) (on pool t <$> out))
    (concurrent : ∀ pool t, op.Determined (w.on pool t) →
      (Concurrent.tracking w.lo).Same (op.concurrent (w.on pool t)) (on pool t <$> out)) :
    op.Settled w out where
  performed pool t o := Likeness.Rel.mono (performed pool t o) alike_of_eq
  concurrent pool t determined := Likeness.Rel.mono (concurrent pool t determined) alike_of_eq

/-- An operation that cannot fail is settled if both ways to run it come to one value. -/
theorem Settled.of_value (v : Window α × Finding α)
    (performed : ∀ pool t o,
      (Watched.total w.lo).Same (op.run o (w.on pool t)) (on pool t v))
    (concurrent : ∀ pool t, op.Determined (w.on pool t) →
      (Concurrent.total w.lo).Same (op.concurrent (w.on pool t)) (on pool t v)) :
    op.Settled w (.ok v) :=
  .of_same performed concurrent

/-! ### Operations on each element -/

/-- Each element is replaced by what the function gives for it. -/
theorem settled_replaceWith {f : α → Except Abort α} {g : α → α} (computes : Computes f g) :
    (replaceWith f).Settled w (.ok (w.refill ((w.upTo w.hi).map g).toArray, .window)) := by
  refine .of_value _ (fun pool t o => ?_) fun pool t _ => ?_
  · have same := Window.same_replaceWith (w := w.on pool t) (computes.onElement o)
    exact same.then_pure (·, Finding.window)
  · have same := Window.same_replaceWith (w := w.on pool t) (computes.ends (ι := α))
    exact same.then_pure (·, Finding.window)

/-- Each element is replaced by what the function gives for its index. -/
theorem settled_replaceWithIndex {f : Nat → Except Abort α} {g : Nat → α}
    (computes : Computes f g) : (replaceWithIndex f).Settled w
      (.ok (w.refill ((List.range' w.lo w.size).map g).toArray, .window)) := by
  refine .of_value _ (fun pool t o => ?_) fun pool t _ => ?_
  · have same := Window.same_replaceWithIndex (w := w.on pool t) (computes.onIndex o)
    exact same.then_pure (·, Finding.window)
  · have same := Window.same_replaceWithIndex (w := w.on pool t) (computes.ends (ι := α))
    exact same.then_pure (·, Finding.window)

/-- The window with its elements combined with others, or why it was left alone. -/
def combined {β : Type} (w : Window α) (other : Store β) (g : α → β → α) : Window α × Finding α :=
  settle w (if other.size < w.size then .error (.lengthMismatch w.size other.size)
    else .ok (w.refill (((w.upTo w.hi).zip other.toList).map fun p => g p.1 p.2).toArray))

omit [Element α] in
/-- The length of an operand is compared with that of the window, whatever the threshold. -/
theorem combined_on {β : Type} (other : Store β) (g : α → β → α) (pool : Pool)
    (t : Option Threshold) : combined (w.on pool t) other g = on pool t (combined w other g) := by
  have size : (w.on pool t).size = w.size := rfl
  rw [combined, combined, size]
  split <;> rfl

/-- Two windows are combined as far as the first one reaches, or the operand is too short. -/
theorem settled_replaceWithCombined {other : Store α} {f : α → α → Except Abort α}
    {g : α → α → α} (computes : Computes₂ f g) :
    (replaceWithCombined other f).Settled w (.ok (combined w other g)) := by
  refine .of_value _ (fun pool t o => ?_) fun pool t _ => ?_ <;> rw [← combined_on]
  · have same := Window.same_replaceWithCombined (w := w.on pool t) (computes.onPair o) other
    exact same.map (settle (w.on pool t))
  · have same := Window.same_replaceWithCombined (w := w.on pool t) (computes.ends (ι := α)) other
    exact same.map (settle (w.on pool t))

theorem settled_replaceWithSizes {other : Array Nat} {f : α → Nat → Except Abort α}
    {g : α → Nat → α} (computes : Computes₂ f g) :
    (replaceWithSizes other f).Settled w (.ok (combined w (.cells other) g)) := by
  refine .of_value _ (fun pool t o => ?_) fun pool t _ => ?_ <;> rw [← combined_on]
  · have each (n : Nat) : Computes (f · n) (g · n) := fun x => computes x n
    have same := Window.same_replaceWithCombined (w := w.on pool t)
      (fun x n => (each n).onElement o x) (.cells other)
    exact same.map (settle (w.on pool t))
  · have same := Window.same_replaceWithCombined (w := w.on pool t) (computes.ends (ι := α))
      (.cells other)
    exact same.map (settle (w.on pool t))

omit [Element α] in
/-- What is gathered by a plain loop. -/
theorem gathered_forEach (g : α → α) (w : Window α) (before : Array α) :
    ((w.alone.whole.forEach (m := StateM (Array α)) fun x => modify (·.push (g x))).run before).2 =
      before ++ ((w.upTo w.hi).map g).toArray := by
  rw [Window.forEach_loop (fun _ => rfl), Window.upTo_alone]
  generalize w.upTo w.hi = xs
  induction xs generalizing before with
  | nil => exact Array.append_empty.symm
  | cons x xs ih =>
    refine (ih (before.push (g x))).trans ?_
    simp

/-- Elements are visited in their order by a single worker, and by many in some order. -/
theorem settled_forEach {f : α → Except Abort α} {g : α → α} (computes : Computes f g) :
    (forEach f).Settled w (.ok (w, .visited ((w.upTo w.hi).map g).toArray)) where
  performed pool t o := by
    have visits := Gathering.ending_gathered
      (Window.tracks_forEach (w := w.on pool t) (T := Gathering.collecting w.lo)
        fun x => Gathering.collects_gather (computes.onElement o x))
    rw [gathered_forEach, Array.empty_append] at visits
    have told := visits.then_pure (w.on pool t, Finding.visited ·)
    exact Likeness.Rel.mono (ρ := (Watched.ending w.lo).toLikeness) told alike_of_eq
  concurrent pool t _ := by
    have visit (x : α) : (Concurrent.gathering w.lo).Same
        (Concurrent.ends (f x) >>= fun y => Concurrent.call y (.ok ()) : Concurrent α Abort Unit)
        (modify (·.push (g x))) := by
      rw [computes x]
      exact (pure_bind (m := Concurrent α Abort) (g x) _).symm ▸ Concurrent.gathers_call (g x)
    have visits := Concurrent.rel_gathered
      (Window.tracks_forEach (w := w.on pool t) (T := Concurrent.gathering w.lo) visit)
    rw [gathered_forEach, Array.empty_append] at visits
    exact (Concurrent.total w.lo).bind (g := fun ys => pure (w.on pool t, Finding.visited ys))
      visits fun calls ys perm => (Concurrent.total w.lo).pure ⟨rfl, .visited perm⟩

/-! ### Totals and extremes -/

/-- By an associative operator a reduction is a fold from left to right. -/
theorem settled_reduce {f : α → α → Except Abort α} {g : α → α → α} (computes : Computes₂ f g)
    (assoc : Std.Associative g) (base : α) :
    (reduce base f).Settled w (.ok (w, .result ((w.upTo w.hi).foldl g base))) := by
  refine .of_value _ (fun pool t o => ?_) fun pool t _ => ?_
  · have same := Window.same_reduce (w := w.on pool t) (computes.onPair o) assoc base
    exact same.then_pure (w.on pool t, Finding.result ·)
  · have same := Window.same_reduce (w := w.on pool t) (computes.ends (ι := α)) assoc base
    exact same.then_pure (w.on pool t, Finding.result ·)

/-- By an associative operator the elements become their running totals. -/
theorem settled_cumulate {f : α → α → Except Abort α} {g : α → α → α} (computes : Computes₂ f g)
    (assoc : Std.Associative g) (base : α) : (cumulate base f).Settled w
      (.ok (w.refill (Scan.Reference.running g .inclusive base (w.upTo w.hi)).toArray,
        .window)) := by
  refine .of_value _ (fun pool t o => ?_) fun pool t _ => ?_
  · have same := Window.same_cumulate (w := w.on pool t) (computes.onPair o) assoc base
    exact same.then_pure (·, Finding.window)
  · have same := Window.same_runTotals (w := w.on pool t) (ι := α) computes assoc .inclusive base
    exact same.then_pure (·.1, Finding.window)

/-- By an associative operator the elements become the totals of those before them. -/
theorem settled_precumulate {f : α → α → Except Abort α} {g : α → α → α}
    (computes : Computes₂ f g) (assoc : Std.Associative g) (base : α) :
    (precumulate base f).Settled w
      (.ok (w.refill (Scan.Reference.running g .exclusive base (w.upTo w.hi)).toArray,
        .total ((w.upTo w.hi).foldl g base))) := by
  refine .of_value _ (fun pool t o => ?_) fun pool t _ => ?_
  · have same := Window.same_precumulate (w := w.on pool t) (computes.onPair o) assoc base
    exact same.then_pure fun p => (p.1, Finding.total p.2)
  · have same := Window.same_runTotals (w := w.on pool t) (ι := α) computes assoc .exclusive base
    exact same.then_pure fun p => (p.1, Finding.total p.2)

/-- The extremes are the first ones in the natural order. -/
theorem settled_summary [LawfulElement α] : (summary : Operation α).Settled w (.ok (w, .summary
    ((Window.summarized w.size (Extremes.ofList compare 0 (w.upTo w.hi))).moved w.lo))) := by
  have order : Std.TransOrd α := LawfulElement.order
  refine .of_value _ (fun pool t o => ?_) fun pool t _ => ?_
  · have same := Window.same_summary (w := w.on pool t) (T := Watched.total w.lo)
    exact same.then_pure (w.on pool t, Finding.summary ·)
  · have same := Window.same_summary (w := w.on pool t)
      (T := (Concurrent.total w.lo : Tracking w.lo (Concurrent α Abort) Id))
    exact same.then_pure (w.on pool t, Finding.summary ·)

/-- The extremes are the first ones by a comparator that is a preorder. -/
theorem settled_summaryBy {cmp : α → α → Except Abort Ordering} {g : α → α → Ordering}
    (computes : Computes₂ cmp g) [Std.TransCmp g] :
    (summaryBy cmp).Settled w (.ok (w, .summary
      ((Window.summarized w.size (Extremes.ofList g 0 (w.upTo w.hi))).moved w.lo))) := by
  refine .of_value _ (fun pool t o => ?_) fun pool t _ => ?_
  · have same := Window.same_summaryBy (w := w.on pool t) (computes.onPair o)
    exact same.then_pure (w.on pool t, Finding.summary ·)
  · have same := Window.same_summaryBy (w := w.on pool t) (computes.ends (ι := α))
    exact same.then_pure (w.on pool t, Finding.summary ·)

/-! ### Questions -/

section
variable {p : α → Except Abort Bool} {g : α → Bool} (computes : Computes p g)
  (fits : w.hi ≤ maxSize)
include computes

omit [Element α] in
/-- What a callback finds to be a match is one. -/
theorem any_eq_true_iff (x? : Option α) : x?.any g ↔ x?.map p = some (.ok true) := by
  cases x? with
  | none => simp
  | some x => simp [computes x]

include fits

/-- The index is that of the first match, where it is determined. -/
theorem settled_anyIndex : (anyIndex p).Settled w (.ok (w, .index (w.lowest g))) := by
  refine .of_value _ (fun pool t o => ?_) fun pool t determined => ?_
  · have same := Window.same_anyIndex (w := w.on pool t) fits (computes.onElement o)
    exact same.then_pure (w.on pool t, Finding.index ·)
  · have same := Window.same_hunt (w := w.on pool t) (ι := α) computes fits <|
      determined.imp_right fun one i hi j hj hit hit' => one i hi j hj
        ((any_eq_true_iff computes _).mp hit) ((any_eq_true_iff computes _).mp hit')
    exact same.then_pure (w.on pool t, Finding.index ·)

/-- Whether there is a match is the same for all who find one. -/
theorem settled_any : (any p).Settled w (.ok (w, .truth (w.lowest g).isSome)) := by
  refine .of_value _ (fun pool t o => ?_) fun pool t _ => ?_
  · have same := Window.same_any (w := w.on pool t) fits (computes.onElement o)
    exact same.then_pure (w.on pool t, Finding.truth ·)
  · have hunt := Window.rel_hunt (w := w.on pool t) (ι := α) computes fits
    exact (Concurrent.total w.lo).bind
      (g := fun i : Option Nat => pure (w.on pool t, Finding.truth i.isSome)) hunt
      fun i j isSome => (Concurrent.total w.lo).pure (by rw [isSome])

/-- All elements satisfy a predicate if none fails to. -/
theorem settled_all :
    (all p).Settled w (.ok (w, .truth (w.lowest fun x => !g x).isNone)) := by
  have negated : Computes (negate p) fun x => !g x := fun x => by
    rw [negate, computes x]
    rfl
  refine .of_value _ (fun pool t o => ?_) fun pool t _ => ?_
  · have same := Window.same_all (w := w.on pool t) fits (computes.onElement o)
    exact same.then_pure (w.on pool t, Finding.truth ·)
  · have hunt := Window.rel_hunt (w := w.on pool t) (ι := α) negated fits
    exact (Concurrent.total w.lo).bind
      (g := fun i : Option Nat => pure (w.on pool t, Finding.truth i.isNone)) hunt
      fun i j isSome => (Concurrent.total w.lo).pure (by
        rw [← Option.not_isSome, ← Option.not_isSome, isSome])

end

section
variable (fits : w.hi ≤ maxSize)
include fits

/-- Looking for an element is a search for one that equals it, whose callback is not watched. -/
theorem settled_indexOf (target : α) :
    (indexOf target).Settled w (.ok (w, .index (w.lowest (· == target)))) where
  performed pool t o := by
    have same := Window.same_anyIndex (w := w.on pool t) (T := Watched.total w.lo)
      (g := (· == target)) fits fun _ => (Watched.total w.lo).pure rfl
    have told := same.then_pure ((w.on pool t, Finding.index ·) : _ → Window α × Finding α)
    exact Likeness.Rel.mono (ρ := (Watched.ending w.lo).toLikeness) told alike_of_eq
  concurrent := by
    have computes : Computes (fun x => .ok (x == target)) (· == target) := fun _ => rfl
    exact (settled_anyIndex computes fits).concurrent

theorem settled_isSorted :
    (isSorted : Operation α).Settled w (.ok (w, .truth (w.ascending compare))) := by
  refine .of_value _ (fun pool t o => ?_) fun pool t _ => ?_
  · have same := Window.same_isSorted (w := w.on pool t) (T := Watched.total w.lo) fits
    exact same.then_pure (w.on pool t, Finding.truth ·)
  · have computes : Computes₂ (fun x y => .ok (compare x y)) (compare : α → α → Ordering) :=
      fun _ _ => rfl
    have part : (w.on pool t).part.uniform? = w.part.uniform? := rfl
    show (Concurrent.total w.lo).Same ((isSorted : Operation α).concurrent (w.on pool t)) _
    rw [concurrent, part]
    cases uniform : w.part.uniform? with
    | some x =>
      rw [w.ascending_of_uniform? uniform]
      exact (Concurrent.total w.lo).pure rfl
    | none =>
      have same := Window.same_checkOrder (w := w.on pool t) (ι := α) computes fits
      exact same.then_pure (w.on pool t, Finding.truth ·)

/-- The elements are in order if there is no descent. -/
theorem settled_isSortedBy {cmp : α → α → Except Abort Ordering} {g : α → α → Ordering}
    (computes : Computes₂ cmp g) :
    (isSortedBy cmp).Settled w (.ok (w, .truth (w.ascending g))) := by
  refine .of_value _ (fun pool t o => ?_) fun pool t _ => ?_
  · have same := Window.same_isSortedBy (w := w.on pool t) fits (computes.onPair o)
    exact same.then_pure (w.on pool t, Finding.truth ·)
  · have same := Window.same_checkOrder (w := w.on pool t) (ι := α) computes fits
    exact same.then_pure (w.on pool t, Finding.truth ·)

end

/-! ### Subsets -/

section
variable {p : α → Except Abort Bool} {g : α → Bool} (computes : Computes p g)
include computes

/-- The kept elements are those of a filter, if there is room for the table. -/
theorem settled_retain : (retain p).Settled w (do
    claimRoom w.size indexBytes
    .ok (w.refill ((w.upTo w.hi).filter g).toArray, .window)) := by
  refine .of_same (fun pool t o => ?_) fun pool t _ => ?_ <;> rw [map_claimRoom]
  · have same := Window.same_retain (w := w.on pool t) (T := Watched.ending w.lo) rfl
      (computes.onElement (d := w.lo) o)
    exact same.then_claimed (·, Finding.window)
  · have same := Window.same_retain (w := w.on pool t) (T := Concurrent.tracking w.lo) rfl
      (computes.ends (ι := α) (d := w.lo))
    exact same.then_claimed (·, Finding.window)

/-- The kept elements are those that do not satisfy the predicate. -/
theorem settled_removeAll : (removeAll p).Settled w (do
    claimRoom w.size indexBytes
    .ok (w.refill ((w.upTo w.hi).filter fun x => !g x).toArray, .window)) := by
  refine .of_same (fun pool t o => ?_) fun pool t _ => ?_ <;> rw [map_claimRoom]
  · have same := Window.same_removeAll (w := w.on pool t) (T := Watched.ending w.lo) rfl
      (computes.onElement (d := w.lo) o)
    exact same.then_claimed (·, Finding.window)
  · have same := Window.same_removeAll (w := w.on pool t) (T := Concurrent.tracking w.lo) rfl
      (computes.ends (ι := α) (d := w.lo))
    exact same.then_claimed (·, Finding.window)

/-- There has to be room for the selection, and for the elements behind which it is put. -/
theorem settled_appendSelected (dest : Store α) : (appendSelected p dest).Settled w (do
    claimRoom w.size indexBytes
    claimRoom (dest.size + ((w.upTo w.hi).filter g).length) (Cell.bytes α)
    .ok (w, .appended (dest.append ((w.upTo w.hi).filter g).toArray))) := by
  refine .of_same (fun pool t o => ?_) fun pool t _ => ?_ <;> simp only [map_bind]
  · have same := Window.same_appendSelected (w := w.on pool t) (T := Watched.ending w.lo) rfl
      (computes.onElement (d := w.lo) o) dest
    have told := same.then_pure (w.on pool t, Finding.appended ·)
    simp only [map_bind] at told
    exact told
  · have same := Window.same_appendSelected (w := w.on pool t) (T := Concurrent.tracking w.lo) rfl
      (computes.ends (ι := α) (d := w.lo)) dest
    have told := same.then_pure (w.on pool t, Finding.appended ·)
    simp only [map_bind] at told
    exact told

end

/-- The kept elements are those that differ from the one before them. -/
theorem settled_removeConsecutiveDuplicates :
    (removeConsecutiveDuplicates : Operation α).Settled w (do
      claimRoom w.size indexBytes
      .ok (w.refill (changes (w.upTo w.hi)).toArray, .window)) := by
  refine .of_same (fun pool t o => ?_) fun pool t _ => ?_ <;> rw [map_claimRoom]
  · have same := (w.on pool t).same_changes (T := Watched.ending w.lo) rfl
    exact same.then_claimed (·, Finding.window)
  · have same := (w.on pool t).same_changes
      (T := (Concurrent.tracking w.lo : Tracking w.lo (Concurrent α Abort) _)) rfl
    exact same.then_claimed (·, Finding.window)

/-! ### Sorts -/

/-- Where only identical elements compare equal there is one way to sort them. -/
theorem settled_sort [LawfulElement α] (strict : ∀ x y : α, compare x y = .eq → x = y) :
    (sort : Operation α).Settled w
      (.ok (w.refill ((w.upTo w.hi).mergeSort fun x y => (compare x y).isLE).toArray,
        .window)) := by
  have order : Std.TransOrd α := LawfulElement.order
  refine .of_value _ (fun pool t o => ?_) fun pool t _ => ?_
  · have same := Window.same_sort (w := w.on pool t) (T := Watched.total w.lo) strict
    exact same.then_pure (·, Finding.window)
  · have same := Window.same_sort (w := w.on pool t)
      (T := (Concurrent.total w.lo : Tracking w.lo (Concurrent α Abort) Id)) strict
    exact same.then_pure (·, Finding.window)

/-- A comparator that takes only identical elements for equal leaves one order. -/
theorem settled_sortBy {cmp : α → α → Except Abort Ordering} {g : α → α → Ordering}
    (computes : Computes₂ cmp g) [Std.TransCmp g] (strict : ∀ x y, g x y = .eq → x = y) :
    (sortBy cmp).Settled w
      (.ok (w.refill ((w.upTo w.hi).mergeSort fun x y => (g x y).isLE).toArray, .window)) := by
  refine .of_value _ (fun pool t o => ?_) fun pool t _ => ?_
  · have same := Window.same_sortBy (w := w.on pool t) strict (computes.onPair o)
    exact same.then_pure (·, Finding.window)
  · have same := Window.same_sortBy (w := w.on pool t) strict (computes.ends (ι := α))
    exact same.then_pure (·, Finding.window)

/-! ### All of them -/

/-- An operation with lawful callbacks comes to one outcome. -/
theorem Lawful.settled [LawfulElement α] (lawful : op.Lawful) (fits : w.hi ≤ maxSize) :
    ∃ out, op.Settled w out := by
  cases op with
  | info =>
    exact ⟨_, .of_value (w, .info) (fun _ _ _ => (Watched.total w.lo).pure rfl)
      fun _ _ _ => (Concurrent.total w.lo).pure rfl⟩
  | forEach f =>
    obtain ⟨g, computes⟩ := lawful
    exact ⟨_, settled_forEach computes⟩
  | replaceWith f =>
    obtain ⟨g, computes⟩ := lawful
    exact ⟨_, settled_replaceWith computes⟩
  | replaceWithIndex f =>
    obtain ⟨g, computes⟩ := lawful
    exact ⟨_, settled_replaceWithIndex computes⟩
  | replaceWithCombined other f =>
    obtain ⟨g, computes⟩ := lawful
    exact ⟨_, settled_replaceWithCombined computes⟩
  | replaceWithSizes other f =>
    obtain ⟨g, computes⟩ := lawful
    exact ⟨_, settled_replaceWithSizes computes⟩
  | reduce base f =>
    obtain ⟨g, computes, assoc⟩ := lawful
    exact ⟨_, settled_reduce computes assoc base⟩
  | summary => exact ⟨_, settled_summary⟩
  | summaryBy cmp =>
    obtain ⟨g, computes, order⟩ := lawful
    exact ⟨_, settled_summaryBy computes⟩
  | anyIndex p =>
    obtain ⟨g, computes⟩ := lawful
    exact ⟨_, settled_anyIndex computes fits⟩
  | indexOf target => exact ⟨_, settled_indexOf fits target⟩
  | any p =>
    obtain ⟨g, computes⟩ := lawful
    exact ⟨_, settled_any computes fits⟩
  | all p =>
    obtain ⟨g, computes⟩ := lawful
    exact ⟨_, settled_all computes fits⟩
  | appendSelected p dest =>
    obtain ⟨g, computes⟩ := lawful
    exact ⟨_, settled_appendSelected computes dest⟩
  | removeAll p =>
    obtain ⟨g, computes⟩ := lawful
    exact ⟨_, settled_removeAll computes⟩
  | retain p =>
    obtain ⟨g, computes⟩ := lawful
    exact ⟨_, settled_retain computes⟩
  | removeConsecutiveDuplicates => exact ⟨_, settled_removeConsecutiveDuplicates⟩
  | cumulate base f =>
    obtain ⟨g, computes, assoc⟩ := lawful
    exact ⟨_, settled_cumulate computes assoc base⟩
  | precumulate base f =>
    obtain ⟨g, computes, assoc⟩ := lawful
    exact ⟨_, settled_precumulate computes assoc base⟩
  | sort => exact ⟨_, settled_sort lawful⟩
  | sortBy cmp =>
    obtain ⟨g, computes, order, strict⟩ := lawful
    exact ⟨_, settled_sortBy computes strict⟩
  | isSorted => exact ⟨_, settled_isSorted fits⟩
  | isSortedBy cmp =>
    obtain ⟨g, computes⟩ := lawful
    exact ⟨_, settled_isSortedBy fits computes⟩

end Operation

/-! ## New arrays -/

/-- A new array on another pool, with another threshold. -/
def BulkArray.madeOn {β : Type} (pool : Pool) (t : Option Threshold) :
    Except Failure (BulkArray β) → Except Failure (BulkArray β) :=
  Except.map (·.on pool t)

namespace Window
open Callback

/-- On any pool and with any threshold an operation makes the same array, no longer than the window,
and so do all its runs by many workers. -/
structure Makes {α β : Type} (w : Window α)
    (watched : Watch → Window α → Watched (Except Failure (BulkArray β)))
    (runs : Window α → Concurrent α Abort (Except Failure (BulkArray β)))
    (made : Except Abort (Except Failure (BulkArray β))) : Prop where
  performed : ∀ pool t o,
    (Watched.ending w.lo).Same (watched o (w.on pool t)) (BulkArray.madeOn pool t <$> made)
  concurrent : ∀ pool t,
    (Concurrent.tracking w.lo).Same (runs (w.on pool t)) (BulkArray.madeOn pool t <$> made)
  small : ∀ a, made = .ok (.ok a) → a.size ≤ w.size

variable {α : Type} [Element α] {w : Window α}

/-- The new array has what the function gives, if there is room for it. -/
theorem makes_mapped {β : Type} [Element β] {f : α → Except Abort β} {g : α → β}
    (computes : Computes f g) : w.Makes (fun o w => w.mapping o f) (·.mapped f) (do
      claimRoom w.size (Cell.bytes β)
      .ok (.ok (w.array.derive ((w.upTo w.hi).map g).toArray))) := by
  refine ⟨fun pool t o => ?_, fun pool t => ?_, fun a made => ?_⟩
  · have same := same_map (w := w.on pool t) (T := Watched.ending w.lo) rfl
      (computes.onElement (d := w.lo) o)
    have makes := same.map (Except.ok (ε := Failure))
    rw [map_claimRoom] at makes ⊢
    exact makes
  · have same := same_map (w := w.on pool t) (T := Concurrent.tracking w.lo) rfl
      (computes.ends (ι := α) (d := w.lo))
    have makes := same.map (Except.ok (ε := Failure))
    rw [map_claimRoom] at makes ⊢
    exact makes
  · cases eq_ok_of_claimRoom made
    show (List.toArray _).size ≤ w.size
    rw [List.size_toArray, List.length_map, length_upTo]

/-- The new array has the selected elements, if there is room for the table and for them. -/
theorem makes_picked {p : α → Except Abort Bool} {g : α → Bool} (computes : Computes p g) :
    w.Makes (fun o w => w.picking o p) (·.picked p) (do
      claimRoom w.size indexBytes
      claimRoom ((w.upTo w.hi).filter g).length (Cell.bytes α)
      .ok (.ok (w.array.derive ((w.upTo w.hi).filter g).toArray))) := by
  refine ⟨fun pool t o => ?_, fun pool t => ?_, fun a made => ?_⟩
  · have same := same_select (w := w.on pool t) (T := Watched.ending w.lo) rfl
      (computes.onElement (d := w.lo) o)
    have makes := same.map (Except.ok (ε := Failure))
    simp only [map_bind] at makes ⊢
    exact makes
  · have same := same_select (w := w.on pool t) (T := Concurrent.tracking w.lo) rfl
      (computes.ends (ι := α) (d := w.lo))
    have makes := same.map (Except.ok (ε := Failure))
    simp only [map_bind] at makes ⊢
    exact makes
  · cases eq_ok_of_claimRoom (eq_ok_of_claimRoom made)
    show (List.toArray _).size ≤ w.size
    rw [List.size_toArray, ← w.length_upTo]
    exact List.length_filter_le _ _

/-- The new array has the first element of each key. -/
theorem makes_distinct [LawfulElement α] :
    w.Makes (fun _ w => w.unique) (·.distinct) (.ok ((KeyTable.make w.size).map fun _ =>
      w.array.derive (((List.range' w.lo w.size).filter
        (w.holdsFirst UniqueKey.sameKey)).filterMap w.get?).toArray)) := by
  have equiv : Equivalence fun x y : α => UniqueKey.sameKey x y = true := LawfulElement.keys
  have compat (x y : α) (same : UniqueKey.sameKey x y) : UniqueKey.hash x = UniqueKey.hash y :=
    congrArg hashBytes (LawfulElement.bytes x y same)
  have there (pool : Pool) (t : Option Threshold) (xs : Array α) :
      ((KeyTable.make w.size).map fun _ => (w.on pool t).array.derive xs) =
        BulkArray.madeOn pool t ((KeyTable.make w.size).map fun _ => w.array.derive xs) := by
    cases KeyTable.make w.size <;> rfl
  refine ⟨fun pool t o => ?_, fun pool t => ?_, fun a made => ?_⟩
  · have same := same_uniqueBy (w := w.on pool t) (T := Watched.total w.lo) equiv compat
    rwa [show (w.on pool t).size = w.size from rfl, there] at same
  · have same := same_distinct (w := w.on pool t) (ι := α) equiv compat
    rwa [show (w.on pool t).size = w.size from rfl, there] at same
  · cases table : KeyTable.make w.size with
    | error e =>
      rw [table] at made
      cases made
    | ok table' =>
      rw [table] at made
      cases made
      show (List.toArray _).size ≤ _
      rw [List.size_toArray]
      calc
        (List.filterMap w.get? _).length ≤ (List.filter _ _).length := List.length_filterMap_le _ _
        _ ≤ (List.range' w.lo w.size).length := List.length_filter_le _ _
        _ = w.size := List.length_range'

end Window

end Bisection
