import Bisection.Proofs.Alone.Tracking
import Bisection.Scan.Run

/-!
# Scanning alone

A scan is told its elements and not where they are, so it comes to the same result if its operator
does. It leaves as many elements as it was given.
-/

namespace Bisection
set_option autoImplicit false

open Likeness

/-- Elements are written over others, and the array is as long as before. -/
theorem Store.size_overwrite {α : Type} (s : Store α) (lo : Nat) (ys : Array α) :
    (s.overwrite lo ys).size = s.size := by
  cases s with
  | cells xs =>
    have fold (ys : List α) (xs : Array α) (i : Nat) :
        (ys.foldl (fun p y => (p.1.setIfInBounds p.2 y, p.2 + 1)) (xs, i)).1.size = xs.size := by
      induction ys generalizing xs i with
      | nil => rfl
      | cons y ys ih => rw [List.foldl_cons, ih, Array.size_setIfInBounds]
    rw [overwrite, size, size, ← Array.foldl_toList]
    exact fold ys.toList xs lo
  | copies single x n => rfl

namespace Scan

section
variable {α : Type} {m m' : Type → Type} [Monad m] [LawfulMonad m] [Monad m'] [LawfulMonad m']
  {ρ : Likeness m m'} {op : α → α → m α} {op' : α → α → m' α}

/-- Running totals by operators that do the same. -/
theorem same_runningTotals (same : ∀ x y, ρ.Same (op x y) (op' x y)) (mode : Mode) (start : α)
    (elems : Store α) :
    ρ.Same (runningTotals op mode start elems) (runningTotals op' mode start elems) :=
  Same.foldStore (fun _ _ => (same _ _).bind fun _ => .pure _) elems _

/-- Totals without a base by operators that do the same. -/
theorem same_reduceM (same : ∀ x y, ρ.Same (op x y) (op' x y)) (elems : Store α) :
    ρ.Same (elems.reduceM op) (elems.reduceM op') := by
  refine Same.foldStore (fun total x => ?_) elems none
  cases total with
  | none => exact .pure _
  | some total => exact (same total x).map some

end

section
variable {ε ε' α : Type} {m m' : Type → Type} [Monad m] [LawfulMonad m] [Fork ε m] [Reports m]
  [Monad m'] [LawfulMonad m'] [Fork ε' m'] [Reports m'] {d : Nat} {T : Tracking d m m'}
  {op : α → α → m α} {op' : α → α → m' α}

/-- Tasks stop on both sides for the same fault, or on failures that are expected, or on
neither. -/
inductive SameStop (T : Tracking d m m') : Option (Stop ε) → Option (Stop ε') → Prop where
  | none : SameStop T none none
  | fault (f : Fault) : SameStop T (some (.fault f)) (some (.fault f))
  | raised {e : ε} {e' : ε'} (are_expected : T.expected e e') :
    SameStop T (some (.raised e)) (some (.raised e'))

/-- The stop that came first is kept on both sides. -/
theorem SameStop.orElse {first second : Option (Stop ε)} {first' second' : Option (Stop ε')}
    (same : SameStop T first first') (same' : SameStop T second second') :
    SameStop T (first <|> second) (first' <|> second') := by
  cases same with
  | none => exact same'
  | fault f => exact .fault f
  | raised are_expected => exact .raised are_expected

/-- Outcomes that are the same, with a memory of `n` elements. -/
structure SameOutcome (T : Tracking d m m') (n : Nat) (o : Outcome ε α) (o' : Outcome ε' α) :
    Prop where
  memory : o.memory = o'.memory
  tasks : o.tasks = o'.tasks
  size : o.memory.elems.size = n
  stop : SameStop T o.stop o'.stop

/-- A step that calls the operator goes on with what the call comes to. -/
theorem sameOutcome_ofCall {β : Type} {s : Memory α} {call : m β} {call' : m' β}
    {next : β → Memory α → Outcome ε α} {next' : β → Memory α → Outcome ε' α}
    (same : T.Same call call') (after : ∀ b, SameOutcome T s.elems.size (next b s) (next' b s)) :
    T.Rel (SameOutcome T s.elems.size) (Outcome.ofCall s call next)
      (Outcome.ofCall s call' next') := by
  refine T.bind (T.attempt same) fun r r' results => ?_
  cases results with
  | error are_expected => exact T.pure ⟨rfl, rfl, rfl, .raised are_expected⟩
  | ok eq =>
    subst eq
    exact T.pure (after _)

/-- A step of a task comes to the same outcome. -/
theorem Plan.sameOutcome_step {nodes : Array Node} {base : α} {mode : Mode}
    (same : ∀ x y, T.Same (op x y) (op' x y)) (s : Memory α) (task : Task α) :
    T.Rel (SameOutcome T s.elems.size) ((Plan.mk nodes op base mode).step s task)
      ((Plan.mk nodes op' base mode).step s task) := by
  cases task with
  | extend l r p x =>
    rw [step, step]
    refine sameOutcome_ofCall (same p x) fun y => ?_
    exact ⟨rfl, rfl, rfl, .none⟩
  | joinTotals a x y =>
    rw [step, step]
    refine sameOutcome_ofCall (same x y) fun z => ?_
    exact ⟨rfl, rfl, rfl, .none⟩
  | sumLeaf t =>
    rw [step, step]
    dsimp only
    split
    · exact T.pure ⟨rfl, rfl, rfl, .fault _⟩
    · refine sameOutcome_ofCall (same_reduceM same _) fun total => ?_
      cases total with
      | none => exact ⟨rfl, rfl, rfl, .fault _⟩
      | some total => exact ⟨rfl, rfl, rfl, .none⟩
  | writeLeaf t gained start =>
    rw [step, step]
    dsimp only
    split
    · exact T.pure ⟨rfl, rfl, rfl, .fault _⟩
    · exact sameOutcome_ofCall (same_runningTotals same _ _ _) fun _ =>
        ⟨rfl, rfl, Store.size_overwrite _ _ _, .none⟩
  | _ =>
    -- The other steps call nothing and write no elements.
    simp only [step, Memory.tell, Memory.exchange]
    repeat' split
    all_goals first
      | exact T.pure ⟨rfl, rfl, rfl, .none⟩
      | exact T.pure ⟨rfl, rfl, rfl, .fault _⟩

/-- Machines that are the same, with a memory of `n` elements. -/
structure SameMachine (T : Tracking d m m') (n : Nat) (s : Machine ε α) (s' : Machine ε' α) :
    Prop where
  memory : s.memory = s'.memory
  size : s.memory.elems.size = n
  stop : SameStop T s.stop s'.stop

/-- The steps of one worker lead to the same memory and the same stop. -/
theorem sameMachine_run {nodes : Array Node} {base : α} {mode : Mode}
    (same : ∀ x y, T.Same (op x y) (op' x y)) (fuel : Nat) (memory : Memory α)
    (tasks : List (Task α)) {stop : Option (Stop ε)} {stop' : Option (Stop ε')}
    (stops : SameStop T stop stop') :
    T.Rel (SameMachine T memory.elems.size)
      (Machine.run ⟨nodes, op, base, mode⟩ fuel ⟨memory, tasks, stop⟩)
      (Machine.run ⟨nodes, op', base, mode⟩ fuel ⟨memory, tasks, stop'⟩) := by
  induction fuel generalizing memory tasks stop stop' with
  | zero => exact T.pure ⟨rfl, rfl, stops⟩
  | succ fuel ih =>
    cases tasks with
    | nil => exact T.pure ⟨rfl, rfl, stops⟩
    | cons task rest =>
      refine T.bind (Plan.sameOutcome_step same memory task) fun o o' outcome => ?_
      rw [← outcome.size, ← outcome.memory, ← outcome.tasks]
      exact ih o.memory (o.tasks ++ rest) (stops.orElse outcome.stop)

/-- The notices of ranges that were started, which count from the start of the scan. -/
theorem same_started (T : Tracking d m m') (started : Array (Nat × Nat)) :
    T.Same (started.forM fun (lo, hi) => Reports.note (.cumulating lo hi))
      (started.forM fun (lo, hi) => Reports.note (.cumulating lo hi)) := by
  rw [Array.forM, Array.forM, ← Array.foldlM_toList, ← Array.foldlM_toList]
  have round (range : Nat × Nat) : T.Same (Reports.note (.cumulating range.1 range.2))
    (Reports.note (.cumulating range.1 range.2)) := T.note (.cumulating _ _)
  exact Same.foldlM (fun _ range => round range) started.toList _

/-- A scan leaves as many elements as it is given. -/
theorem tracks_scan (T : Tracking d m m') (same : ∀ x y, T.Same (op x y) (op' x y)) (t : Threshold)
    (mode : Mode) (base : α) (elems : Store α) :
    T.Rel (fun p q => p = q ∧ p.1.size = elems.size) (scan t op mode base elems)
      (scan t op' mode base elems) := by
  rw [scan, scan]
  split
  · exact T.pure ⟨rfl, rfl⟩
  · refine T.bind (sameMachine_run same _ _ _ .none) ?_
    rintro ⟨memory, tasks, stop⟩ ⟨memory', tasks', stop'⟩ ⟨eq, size, stops⟩
    dsimp only at eq size stops ⊢
    subst eq
    refine (same_started T _).bind_same fun _ => ?_
    cases stops with
    | none => exact T.pure ⟨rfl, size⟩
    | fault f => exact T.pure ⟨rfl, size⟩
    | raised are_expected => exact T.raise are_expected

end

end Scan

end Bisection
