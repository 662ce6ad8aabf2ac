import Bisection.Script.Answer
import Bisection.Script.Operation

/-!
# Scripts

A script is a list of steps on an array: operations on the array, operations on a
window of it, and operations that give a new array, on which more steps may
follow. The steps on a new array leave the old one alone.

A callback that gives up ends its step. If the operation was one that modifies
its window, the contents are lost, so the steps after it are not run, neither are
those after an enclosing window, and no contents are told.
-/

namespace Bisection
set_option autoImplicit false

mutual

/-- A step on an array or on a window of one. -/
inductive Step : Type → Type 1 where
  /-- Sets the threshold of the array. -/
  | withThreshold {α : Type} (t : Threshold) : Step α
  /-- Runs steps on the window `lo..hi`. -/
  | bounds {α : Type} (lo hi : Nat) (steps : Steps α) : Step α
  | perform {α : Type} (op : Operation α) (watch : Watch) : Step α
  | map {α β : Type} (elem : Element β) (f : α → Except Abort β) (watch : Watch)
      (sequel : Sequel β) : Step α
  | select {α : Type} (p : α → Except Abort Bool) (watch : Watch) (sequel : Sequel α) : Step α
  | unique {α : Type} (watch : Watch) (sequel : Sequel α) : Step α

/-- Steps, one after the other. -/
inductive Steps : Type → Type 1 where
  | nil {α : Type} : Steps α
  | cons {α : Type} (first : Step α) (rest : Steps α) : Steps α

/-- The steps on a new array, if there are any to be run. -/
inductive Sequel : Type → Type 1 where
  | absent {α : Type} : Sequel α
  | steps {α : Type} (steps : Steps α) : Sequel α

end

/-- The steps of a list. -/
def Steps.ofList {α : Type} : List (Step α) → Steps α
  | [] => .nil
  | s :: ss => .cons s (ofList ss)

/-- What a step acts on. -/
inductive Place (α : Type) where
  | whole (a : BulkArray α)
  | part (w : Window α)

namespace Place
variable {α : Type}

/-- The window that an operation works on. -/
def window : Place α → Window α
  | whole a => a.whole
  | part w => w

/-- The place after an operation left a window. -/
def left : Place α → Window α → Place α
  | whole _, w => .whole w.array
  | part _, w => .part w

/-- The array. -/
def array : Place α → BulkArray α
  | whole a => a
  | part w => w.array

variable [Element α]

/-- What is seen of the place. -/
def view : Place α → View
  | whole a => .whole (.ofStore a.store)
  | part w => .part w.lo w.hi (.ofStore w.part)

end Place

section
variable {α : Type}

/-- What was taken down of a step, as far as it was asked for. -/
def Journal.record (j : Journal) (log : Bool) (o : Watch) : Record where
  calls := if o.count then some j.calls else none
  trace := if o.trace then some j.arguments else none
  notices := if log then some j.notices else none

/-- The written form of what an operation found. -/
def Body.ofFinding [Element α] (place : Place α) : Finding α → Body
  | .window => .state place.view
  | .info => .info place.view place.window.size
  | .visited xs =>
    let listed := if place.array.pool.workers = 1 then xs.toList
      else xs.toList.mergeSort fun x y => Element.listingOrder x y != .gt
    .visited (.ofStore (.cells listed.toArray))
  | .refused e => .refused place.view e
  | .result x => .result (Element.written x)
  | .summary s => .summary s.count (s.min.map Element.written) (s.max.map Element.written)
      s.minIndex s.maxIndex
  | .index i => .index i
  | .truth b => .truth b
  | .appended dest => .appended (.ofStore dest)
  | .total x => .total place.view (Element.written x)

/-- Performs an operation. Gives the place it leaves, unless its contents are lost. -/
@[nospecialize] def Operation.answer [Element α] (log : Bool) (o : Watch) (place : Place α)
    (op : Operation α) : Answer × Option (Place α) :=
  match (op.run o place.window).run' with
  | (.ok (w, finding), journal) =>
    let place := place.left w
    (.performed (Body.ofFinding place finding) (journal.record log o), some place)
  | (.error e, _) => (.aborted e, if op.modifies then none else some place)

end

mutual

/-- Runs a step. Gives the place it leaves, unless its contents are lost. -/
@[nospecialize] def Step.run {α : Type} [Element α] (log : Bool) :
    Step α → Place α → Answer × Option (Place α)
  | .withThreshold t, .whole a => (.settled, some (.whole (a.withThreshold t)))
  | .withThreshold _, place => (.settled, some place)
  | .bounds lo hi steps, place =>
    match place.array.window lo hi with
    | .error e => (.refused e none, some place)
    | .ok w =>
      let (answers, after) := steps.run log (.part w)
      (.bounded answers (after.map fun p => .ofStore p.array.store),
        after.map fun p => place.left p.window)
  | .perform op o, place => op.answer log o place
  | .map _ f o sequel, place =>
    match (place.window.map (Watched.onElement o f)).run' with
    | (.ok a, journal) =>
      (.derived (.ofStore a.store) (journal.record log o) (sequel.run log a), some place)
    | (.error e, _) => (.aborted e, some place)
  | .select p o sequel, place =>
    match (place.window.select (Watched.onElement o p)).run' with
    | (.ok a, journal) =>
      (.derived (.ofStore a.store) (journal.record log o) (sequel.run log a), some place)
    | (.error e, _) => (.aborted e, some place)
  | .unique o sequel, place =>
    match (place.window.unique : Watched _).run' with
    | (.ok (.ok a), journal) =>
      (.derived (.ofStore a.store) (journal.record log o) (sequel.run log a), some place)
    | (.ok (.error e), journal) => (.refused e (journal.record log o).notices, some place)
    | (.error e, _) => (.aborted e, some place)

/-- Runs steps until one loses the contents. -/
@[nospecialize] def Steps.run {α : Type} [Element α] (log : Bool) :
    Steps α → Place α → List Answer × Option (Place α)
  | .nil, place => ([], some place)
  | .cons first rest, place =>
    match first.run log place with
    | (answer, none) => ([answer], none)
    | (answer, some place) =>
      let (answers, after) := rest.run log place
      (answer :: answers, after)

/-- Runs the steps on a new array. -/
@[nospecialize] def Sequel.run {α : Type} [Element α] (log : Bool) :
    Sequel α → BulkArray α → Option (List Answer × Option Contents)
  | .absent, _ => none
  | .steps steps, a =>
    let (answers, after) := steps.run log (.whole a)
    some (answers, after.map fun p => .ofStore p.array.store)

end

end Bisection
