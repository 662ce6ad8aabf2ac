import Bisection.Proofs.Agreement.Lawful
import Bisection.Proofs.KeyTable.Entering
import Bisection.Proofs.Pieces.Concurrency
import Bisection.Proofs.Scan.Interleaving
import Bisection.Proofs.Window.Matches
import Bisection.Script.Step
import Mathlib.Data.Multiset.Defs

/-!
# Scripts in the hands of many workers

The runs of a script whose operations are carried out by the workers of a pool. The halves of a fork
run in any order of their calls, and so do the steps of those who share a cell in a search, the
memory of a scan or a table of keys. A script tells the results of its steps, and leaves its array.
The number of calls, their order, and what was logged are no results, so elements that are visited
are told without an order.

Callbacks may give up only where nothing but forks is shared.
-/

namespace Bisection
set_option autoImplicit false

/-! ## What is shared -/

namespace Concurrent
variable {ι ε β : Type}

/-- No call, and one of the results that are possible. -/
def oneOf (possible : β → Prop) : Concurrent ι ε β :=
  fun calls r => calls = [] ∧ ∃ b, possible b ∧ r = .ok b

/-- The calls of a computation, in the order of time. -/
def gathered (x : Concurrent ι ε Unit) : Concurrent ι ε (Array ι) :=
  fun calls r => ∃ e, x calls e ∧ r = e.map fun _ => calls.toArray

end Concurrent

/-- The ends of a search by the workers of a pool. One alone goes from left to right. -/
def Hunt.Ends (pool : Pool) (t : Threshold) (accepts : Nat → Bool) (lo hi : Nat)
    (found : Option Nat) : Prop :=
  if pool.workers = 1 then found = findAny (m := Id) t accepts lo hi
  else ∃ n now, Reaches t accepts n (.start lo hi) now ∧ now.left = [] ∧ found = now.cell.get

/-- The ends of a scan by any number of workers: the elements it leaves, and the total. -/
def Scan.EndsWith {α : Type} (t : Threshold) (op : α → α → α) (mode : Mode) (base : α)
    (elems : Store α) (left : Store α × α) : Prop :=
  if h : elems.size = 0 then left = (elems, base)
  else
    let J : Job α := ⟨t, op, mode, base, elems, Nat.pos_of_ne_zero h⟩
    ∃ n m, Machine.Reaches J.plan n J.start m ∧ m.tasks = [] ∧
      left = (m.memory.elems, (m.memory.total? 0).getD base)

namespace Window
variable {ι α : Type} (w : Window α)

/-- The tables that come of entering all indices of a window, by any number of workers. -/
def Enters (same : α → α → Bool) (hash : α → UInt64) (table table' : KeyTable) : Prop :=
  ∃ schedule, let now := (w.entries hash table).run (w.sameKeyAt same) schedule
    (∀ u ∈ now.users, u.isDone) ∧ now.table = table'

/-- The index of an element that satisfies `p`, in a search by the workers of the pool. -/
def hunt (p : α → Except Abort Bool) : Concurrent ι Abort (Option Nat) := do
  let g ← .oneOf (Callback.Computes p)
  .oneOf <| Hunt.Ends w.array.pool (w.array.leafThreshold w.size) (fun i => (w.get? i).any g)
    w.lo w.hi

/-- Whether the elements are in order, in a search by the workers of the pool. -/
def checkOrder (cmp : α → α → Except Abort Ordering) : Concurrent ι Abort Bool :=
  if w.size < 2 then pure true
  else do
    let g ← .oneOf (Callback.Computes₂ cmp)
    Option.isNone <$> .oneOf (Hunt.Ends w.array.pool (w.array.leafThreshold (w.size - 1))
      (w.descends g) (w.lo + 1) w.hi)

/-- The running totals, and the total of all. -/
def runTotals (mode : Scan.Mode) (base : α) (op : α → α → Except Abort α) :
    Concurrent ι Abort (Window α × α) := do
  let g ← .oneOf (Callback.Computes₂ op)
  let (s, total) ← .oneOf (Scan.EndsWith (w.array.leafThreshold w.size) g mode base w.part)
  pure (w.refill s.toArray, total)

/-- The array of the first element for each key. -/
def distinct [UniqueKey α] : Concurrent ι Abort (Except Failure (BulkArray α)) :=
  match KeyTable.make w.size with
  | .error e => pure (.error e)
  | .ok table => do
    let table ← .oneOf (w.Enters UniqueKey.sameKey UniqueKey.hash table)
    let s ← Selection.build (w.array.leafThreshold w.size)
      (fun i => pure (w.isFirst UniqueKey.sameKey UniqueKey.hash table i)) w.lo w.size
    pure (.ok (w.array.derive (s.fetchAll w.get?)))

/-- The array of the results of a function. -/
def mapped {β : Type} [Element β] (f : α → Except Abort β) :
    Concurrent ι Abort (Except Failure (BulkArray β)) := .ok <$> w.map fun x => .ends (f x)

/-- The array of the elements that satisfy `p`. -/
def picked [Element α] (p : α → Except Abort Bool) :
    Concurrent ι Abort (Except Failure (BulkArray α)) := .ok <$> w.select fun x => .ends (p x)

end Window

/-! ## Operations -/

/-- No two elements of a window satisfy a predicate. -/
def Window.OneMatch {α : Type} (w : Window α) (p : α → Except Abort Bool) : Prop :=
  ∀ i ∈ List.range' w.lo w.size, ∀ j ∈ List.range' w.lo w.size,
    (w.get? i).map p = some (.ok true) → (w.get? j).map p = some (.ok true) → i = j

namespace Operation
variable {α : Type} [Element α]

/-- An index is searched for by a single worker, or there is one match at most. -/
def Determined (w : Window α) : Operation α → Prop
  | anyIndex p => w.array.pool.workers = 1 ∨ w.OneMatch p
  | indexOf target => w.array.pool.workers = 1 ∨ w.OneMatch fun x => .ok (x == target)
  | _ => True

/-- The runs of an operation. -/
def concurrent (w : Window α) : Operation α → Concurrent α Abort (Window α × Finding α)
  | info => pure (w, .info)
  | forEach f => do
    let visited ← Concurrent.gathered (w.forEach fun x => do
      let y ← .ends (f x)
      .call y (.ok ()))
    pure (w, .visited visited)
  | replaceWith f => do pure (← w.replaceWith fun x => .ends (f x), .window)
  | replaceWithIndex f => do pure (← w.replaceWithIndex fun i => .ends (f i), .window)
  | replaceWithCombined other f =>
    settle w <$> w.replaceWithCombined other fun x y => .ends (f x y)
  | replaceWithSizes other f =>
    settle w <$> w.replaceWithCombined (.cells other) fun x n => .ends (f x n)
  | reduce base op => do pure (w, .result (← w.reduce base fun x y => .ends (op x y)))
  | summary => do pure (w, .summary (← w.summary))
  | summaryBy cmp => do pure (w, .summary (← w.summaryBy fun x y => .ends (cmp x y)))
  | anyIndex p => do pure (w, .index (← w.hunt p))
  | indexOf target => do pure (w, .index (← w.hunt fun x => .ok (x == target)))
  | any p => do pure (w, .truth (← w.hunt p).isSome)
  | all p => do pure (w, .truth (← w.hunt (Callback.negate p)).isNone)
  | appendSelected p dest => do
    pure (w, .appended (← w.appendSelected (fun x => .ends (p x)) dest))
  | removeAll p => do pure (← w.removeAll fun x => .ends (p x), .window)
  | retain p => do pure (← w.retain fun x => .ends (p x), .window)
  | removeConsecutiveDuplicates => do pure (← w.removeConsecutiveDuplicates, .window)
  | cumulate base op => do pure ((← w.runTotals .inclusive base op).1, .window)
  | precumulate base op => do
    let (w, total) ← w.runTotals .exclusive base op
    pure (w, .total total)
  | sort => do pure (← w.sort, .window)
  | sortBy cmp => do pure (← w.sortBy fun x y => .ends (cmp x y), .window)
  | isSorted =>
    match w.part.uniform? with
    | some _ => pure (w, .truth true)
    | none => do pure (w, .truth (← w.checkOrder fun x y => .ok (compare x y)))
  | isSortedBy cmp => do pure (w, .truth (← w.checkOrder cmp))

end Operation

/-! ## What is told -/

/-- What a script tells of a step. -/
inductive Told where
  | performed (body : Body)
  /-- Visited elements, in no order. -/
  | visited (values : Multiset Value)
  | derived (contents : Contents) (sequel : Option (List Told × Option Contents))
  | bounded (told : List Told) (whole : Option Contents)
  | refused (e : Failure)
  | aborted (a : Abort)

/-- What is told of a new array, if the steps on it tell `tells`. -/
def Told.made {β : Type} [Element β] (tells : BulkArray β → Option (List Told × Option Contents)) :
    Except Abort (Except Failure (BulkArray β)) → List Told
  | .ok (.ok a) => [.derived (.ofStore a.store) (tells a)]
  | .ok (.error e) => [.refused e]
  | .error e => [.aborted e]

/-- What is told of the runs that make a new array, and of those of the steps on it. -/
def Told.Derived {ι β : Type} [Element β]
    (made : Concurrent ι Abort (Except Failure (BulkArray β)))
    (runs : BulkArray β → Option (List Told × Option Contents) → Prop) (told : List Told) : Prop :=
  ∃ calls r tells, made calls r ∧ (∀ a, r = .ok (.ok a) → runs a (tells a)) ∧
    told = Told.made tells r

/-- What is told of an answer. -/
def Body.told : Body → Told
  | visited (.items xs) => .visited xs.toList
  | body => .performed body

mutual

/-- What an answer tells, without what was taken down. -/
def Answer.told : Answer → List Told
  | .settled => []
  | .performed body _ => [body.told]
  | .derived contents _ sequel => [.derived contents (Answer.toldSequel sequel)]
  | .bounded answers whole => [.bounded (Answer.toldAll answers) whole]
  | .refused e _ => [.refused e]
  | .aborted a => [.aborted a]

/-- What answers tell. -/
def Answer.toldAll : List Answer → List Told
  | [] => []
  | answer :: answers => answer.told ++ Answer.toldAll answers

/-- What the steps on a new array tell. -/
def Answer.toldSequel :
    Option (List Answer × Option Contents) → Option (List Told × Option Contents)
  | none => none
  | some (answers, after) => some (Answer.toldAll answers, after)

end

section
variable {α : Type} [Element α] (log : Bool)

/-- What a step tells, and the place it leaves. -/
def Step.tells (s : Step α) (place : Place α) : List Told × Option (Place α) :=
  ((s.run log place).1.told, (s.run log place).2)

/-- What steps tell, and the place they leave. -/
def Steps.tells (steps : Steps α) (place : Place α) : List Told × Option (Place α) :=
  (Answer.toldAll (steps.run log place).1, (steps.run log place).2)

/-- What the steps on a new array tell. -/
def Sequel.tells (sequel : Sequel α) (a : BulkArray α) : Option (List Told × Option Contents) :=
  Answer.toldSequel (sequel.run log a)

end

/-- What is told of an operation that came to an end, and the place it leaves. -/
def Operation.ended {α : Type} [Element α] (place : Place α) (op : Operation α) :
    Except Abort (Window α × Finding α) → List Told × Option (Place α)
  | .ok (w, finding) => ([(Body.ofFinding (place.left w) finding).told], some (place.left w))
  | .error e => ([.aborted e], if op.modifies then none else some place)

/-! ## Scripts -/

mutual

/-- A step has a run that tells this and leaves this place. -/
def Step.Runs {α : Type} [Element α] : Step α → Place α → List Told → Option (Place α) → Prop
  | .withThreshold t, .whole a, told, after => told = [] ∧ after = some (.whole (a.withThreshold t))
  | .withThreshold _, place, told, after => told = [] ∧ after = some place
  | .bounds lo hi steps, place, told, after =>
    match place.array.window lo hi with
    | .error e => told = [.refused e] ∧ after = some place
    | .ok w => ∃ inner left, steps.Runs (.part w) inner left ∧
      told = [.bounded inner (left.map fun p => .ofStore p.array.store)] ∧
      after = left.map fun p => place.left p.window
  | .perform op _, place, told, after =>
    ∃ calls r, op.concurrent place.window calls r ∧ (told, after) = op.ended place r
  | .map _ f _ sequel, place, told, after =>
    after = some place ∧ Told.Derived (ι := α) (place.window.mapped f) sequel.Runs told
  | .select p _ sequel, place, told, after =>
    after = some place ∧ Told.Derived (ι := α) (place.window.picked p) sequel.Runs told
  | .unique _ sequel, place, told, after =>
    after = some place ∧ Told.Derived (ι := α) place.window.distinct sequel.Runs told

/-- Steps that are run until one loses the contents. -/
def Steps.Runs {α : Type} [Element α] : Steps α → Place α → List Told → Option (Place α) → Prop
  | .nil, place, told, after => told = [] ∧ after = some place
  | .cons first rest, place, told, after => ∃ now next, first.Runs place now next ∧
    match next with
    | none => told = now ∧ after = none
    | some place => ∃ later, rest.Runs place later after ∧ told = now ++ later

/-- The runs of the steps on a new array. -/
def Sequel.Runs {α : Type} [Element α] :
    Sequel α → BulkArray α → Option (List Told × Option Contents) → Prop
  | .absent, _, told => told = none
  | .steps steps, a, told => ∃ inner after, steps.Runs (.whole a) inner after ∧
    told = some (inner, after.map fun p => .ofStore p.array.store)

end

/-! ## What determines the results -/

namespace Window
variable {α : Type} [Element α] (w : Window α) (o : Watch)

/-- The array of the results of a function, watched. -/
def mapping {β : Type} [Element β] (f : α → Except Abort β) :
    Watched (Except Failure (BulkArray β)) := .ok <$> w.map (Watched.onElement o f)

/-- The array of the elements that satisfy `p`, watched. -/
def picking (p : α → Except Abort Bool) : Watched (Except Failure (BulkArray α)) :=
  .ok <$> w.select (Watched.onElement o p)

end Window

mutual

/-- Each index that a step searches for is determined, where it is searched for. -/
def Step.Determined {α : Type} [Element α] (log : Bool) : Step α → Place α → Prop
  | .withThreshold _, _ => True
  | .bounds lo hi steps, place =>
    ∀ w, place.array.window lo hi = .ok w → steps.Determined log (.part w)
  | .perform op _, place => op.Determined place.window
  | .map _ f o sequel, place =>
    ∀ a, (place.window.mapping o f).run'.1 = .ok (.ok a) → sequel.Determined log a
  | .select p o sequel, place =>
    ∀ a, (place.window.picking o p).run'.1 = .ok (.ok a) → sequel.Determined log a
  | .unique _ sequel, place =>
    ∀ a, (place.window.unique : Watched _).run'.1 = .ok (.ok a) → sequel.Determined log a

/-- Each index that steps search for is determined. -/
def Steps.Determined {α : Type} [Element α] (log : Bool) : Steps α → Place α → Prop
  | .nil, _ => True
  | .cons first rest, place => first.Determined log place ∧
    ∀ next, (first.tells log place).2 = some next → rest.Determined log next

/-- Each index that the steps on a new array search for is determined. -/
def Sequel.Determined {α : Type} [Element α] (log : Bool) : Sequel α → BulkArray α → Prop
  | .absent, _ => True
  | .steps steps, a => steps.Determined log (.whole a)

end

end Bisection
