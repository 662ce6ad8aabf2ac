import Bisection.Log.Notice
import Bisection.Scan.Task

/-!
# Running a scan

A `Machine` is a scan on its way: the shared memory and the tasks that are not
done. `Machine.stepAt` lets any one of them take a step, which is how several
workers run a scan. A single worker runs a task to its end and then the one that
was started last, which `Machine.run` does with the list of tasks as a stack. A
task that fails stops, and the others go on; the first failure is raised once no
task is left.

`scan` replaces the elements by their running totals and gives the total of all.
-/

namespace Bisection.Scan
set_option autoImplicit false

/-- A scan on its way. -/
structure Machine (ε α : Type) where
  memory : Memory α
  tasks : List (Task α)
  stop : Option (Stop ε)

namespace Machine
variable {ε α : Type} {m : Type → Type} [Monad m] [Fork ε m]

/-- The scan before its first step, over a tree of `n` nodes. -/
def start (n : Nat) (elems : Store α) : Machine ε α := ⟨.fresh n elems, [.visit 0], none⟩

/-- The machine after the `i`-th task came to an outcome. -/
def after (s : Machine ε α) (i : Nat) (o : Outcome ε α) : Machine ε α :=
  ⟨o.memory, s.tasks.take i ++ o.tasks ++ s.tasks.drop (i + 1), s.stop <|> o.stop⟩

/-- The machine after a step of the `i`-th task, if there is one. -/
def stepAt (plan : Plan m α) (s : Machine ε α) (i : Nat) : m (Machine ε α) :=
  match s.tasks[i]? with
  | none => pure s
  | some task => s.after i <$> plan.step s.memory task

/-- Runs the first task until no task is left, for at most `fuel` steps. -/
@[specialize] def run (plan : Plan m α) : Nat → Machine ε α → m (Machine ε α)
  | 0, s => pure s
  | fuel + 1, ⟨memory, tasks, stop⟩ =>
    match tasks with
    | [] => pure ⟨memory, [], stop⟩
    | task :: rest => do
      let o ← plan.step memory task
      run plan fuel ⟨o.memory, o.tasks ++ rest, stop <|> o.stop⟩

/-- Steps that suffice for a tree of `n` nodes: each is visited, reported summed and reported
written a bounded number of times. -/
def stepBound (n : Nat) : Nat := 64 * n

end Machine

/-- Replaces the elements by their running totals from `base`, and gives the total of `base` and
all of them. -/
@[specialize] def scan {ε α : Type} {m : Type → Type} [Monad m] [Fork ε m] [Reports m]
    (t : Threshold) (op : α → α → m α) (mode : Mode) (base : α) (elems : Store α) :
    m (Store α × α) :=
  if elems.size = 0 then pure (elems, base)
  else do
    let nodes := nodes t elems.size
    let plan : Plan m α := ⟨nodes, op, base, mode⟩
    let s ← Machine.run plan (Machine.stepBound nodes.size) (.start nodes.size elems)
    s.memory.started.forM fun (lo, hi) => Reports.note (.cumulating lo hi)
    match s.stop with
    | some (.raised e) => Fork.raise e
    | _ => pure (s.memory.elems, (s.memory.total? 0).getD base)

end Bisection.Scan
