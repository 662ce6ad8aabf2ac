import Bisection.Fork
import Bisection.Scan.Memory

/-!
# The tasks of a scan

A scan makes two passes over its tree. Going up, it finds the total of each
subtree; going down, it hands to each subtree the total of all that is to its
left, and the leaves write their running totals. The passes overlap. The leftmost
leaf is summed and written in one visit, since its prefix is the base value. Once
both children of a node on the left edge are summed, that node starts to write,
whether or not the rest of the tree is summed. The other leaves are visited once
to be summed, and once more when their prefix has come.

`Task` lists the points at which a task can stand, with the values that it has
read so far. `Plan.step` is what it does next. Each step touches one shared cell or
the elements of one leaf, calls the operator, or starts another task, so the runs
of a scan on any number of workers are the ways to interleave these steps.
-/

namespace Bisection.Scan
set_option autoImplicit false

/-- Whether a running total includes the element in its place. -/
inductive Mode where
  | inclusive | exclusive
deriving DecidableEq, Repr

/-- A task that reports to a parent what a node gained, having seen the parent's phase. -/
structure Ascent where
  node : Nat
  parent : Nat
  gained : Phase
  seen : Phase
deriving DecidableEq, Repr

/-- Where a task stands. -/
inductive Task (α : Type) where
  /-- Looks at the phase of a node. -/
  | visit (node : Nat)
  /-- Starts a task on the right child, and goes on with the left one. -/
  | descend (left right : Nat)
  /-- Reads the total of the left child of a node that was told to write. -/
  | readLeftTotal (node left right : Nat)
  /-- Reads the prefix of the node. -/
  | readPrefix (node left right : Nat) (leftTotal : α)
  /-- Hands the prefix to the left child. -/
  | handLeft (left right : Nat) (before leftTotal : α)
  /-- Combines the prefix and the total of the left child. -/
  | extend (left right : Nat) (before leftTotal : α)
  /-- Hands its prefix to the right child. -/
  | handRight (left right : Nat) (before : α)
  /-- Tells the right child to write. -/
  | tellRight (left right : Nat)
  /-- Tells the left child to write. -/
  | tellLeft (left right : Nat) (goRight : Bool)
  /-- Claims what there is to do on a leaf, whose phase it has seen. -/
  | claimLeaf (node : Nat) (seen : Phase)
  /-- Reads the prefix of a leaf. -/
  | readStart (node : Nat) (gained : Phase)
  /-- Writes the running totals of a leaf from a start value. -/
  | writeLeaf (node : Nat) (gained : Phase) (start : α)
  /-- Sums a leaf. -/
  | sumLeaf (node : Nat)
  /-- Sets the total of a leaf. -/
  | setLeafTotal (node : Nat) (gained : Phase) (total : α)
  /-- Looks at the phase of the parent, to report what a node gained. -/
  | report (node : Nat) (gained : Phase)
  /-- Leaves the report to the other child. -/
  | leave (a : Ascent)
  /-- Looks whether the total of the parent is set. -/
  | lookTotal (a : Ascent)
  /-- Reads the total of the parent's left child. -/
  | joinLeft (a : Ascent) (left right : Nat)
  /-- Reads the total of the parent's right child. -/
  | joinRight (a : Ascent) (right : Nat) (leftTotal : α)
  /-- Combines the totals of the parent's children. -/
  | joinTotals (a : Ascent) (leftTotal rightTotal : α)
  /-- Sets the total of the parent. -/
  | setTotal (a : Ascent) (total : α)
  /-- Marks the parent summed, and told to write if it is on the left edge. -/
  | mark (a : Ascent)
  /-- Starts a task that writes a node, and goes on to report it summed. -/
  | restart (node : Nat)

/-- What a task must not run into: a cell read before it is set, an empty leaf to sum, a parent
without children. -/
inductive Fault where
  | noNode (node : Nat)
  | noTotal (node : Nat)
  | noPrefix (node : Nat)
  | emptyLeaf (node : Nat)
  | noChildren (node : Nat)
deriving DecidableEq, Repr

/-- Why a task stopped before its end. -/
inductive Stop (ε : Type) where
  | raised (e : ε)
  | fault (f : Fault)

/-- What comes of a step: the memory, the tasks that go on in place of the one that stepped, and
why that one stopped if it did. The first task goes on with what the task was doing. -/
structure Outcome (ε α : Type) where
  memory : Memory α
  tasks : List (Task α)
  stop : Option (Stop ε)

/-- A scan: its tree, operator, base value and mode. -/
structure Plan (m : Type → Type) (α : Type) where
  nodes : Array Node
  op : α → α → m α
  base : α
  mode : Mode

section
variable {ε α : Type} {m : Type → Type} [Monad m] [Fork ε m]

/-- The running totals of the elements from `start` on, and the total of all. -/
@[inline] def runningTotals (op : α → α → m α) (mode : Mode) (start : α) (elems : Store α) :
    m (Array α × α) :=
  elems.foldlM (fun (out, total) x => do
    let next ← op total x
    let y := match mode with
      | .inclusive => next
      | .exclusive => total
    pure (out.push y, next)) (#[], start)

namespace Outcome

/-- The tasks that go on. -/
@[inline] def on (s : Memory α) (tasks : List (Task α)) : Outcome ε α := ⟨s, tasks, none⟩

/-- The task stops on a fault. -/
@[inline] def faulty (s : Memory α) (f : Fault) : Outcome ε α := ⟨s, [], some (.fault f)⟩

/-- What comes of a step that called the operator: it goes on with the result, or stops. -/
@[inline] def ofCall {β : Type} (s : Memory α) (call : m β) (next : β → Memory α → Outcome ε α) :
    m (Outcome ε α) := do
  match ← Fork.attempt call with
  | .error e => pure ⟨s, [], some (.raised e)⟩
  | .ok b => pure (next b s)

end Outcome

namespace Plan

/-- The elements of the leaf from `lo` up to and without `hi`. -/
def leafElems (s : Memory α) (node : Node) : Store α := s.elems.slice node.lo node.hi

/-- What a task gains on a leaf whose phase it has seen: it writes a leaf that was told to, sums
one that was not, and does both at the left end. -/
def gain (node : Node) (seen : Phase) : Phase :=
  if seen.told then { written := true }
  else if 0 < node.lo then { summed := true }
  else { summed := true, written := true }

/-- The next step of a task. -/
@[specialize] def step (plan : Plan m α) (s : Memory α) : Task α → m (Outcome ε α)
  | .visit t =>
    match plan.nodes[t]? with
    | none => pure (.faulty s (.noNode t))
    | some node =>
      match node.children with
      | some (l, r) =>
        if (s.phase t).told then pure (.on s [.readLeftTotal t l r])
        else pure (.on s [.descend l r])
      | none =>
        if (s.phase t).written then pure (.on s []) else pure (.on s [.claimLeaf t (s.phase t)])
  | .descend l r => pure (.on s [.visit l, .visit r])
  | .readLeftTotal t l r =>
    match s.total? l, plan.nodes[t]? with
    | none, _ => pure (.faulty s (.noTotal l))
    | _, none => pure (.faulty s (.noNode t))
    | some x, some node =>
      if node.lo = 0 then pure (.on s [.handRight l r x]) else pure (.on s [.readPrefix t l r x])
  | .readPrefix t l r x =>
    match s.before? t with
    | none => pure (.faulty s (.noPrefix t))
    | some p => pure (.on s [.handLeft l r p x])
  | .handLeft l r p x => pure (.on (s.setPrefix l p) [.extend l r p x])
  | .extend l r p x => Outcome.ofCall s (plan.op p x) fun y s => .on s [.handRight l r y]
  | .handRight l r y => pure (.on (s.setPrefix r y) [.tellRight l r])
  | .tellRight l r =>
    let (s, fresh) := s.tell r
    pure (.on s [.tellLeft l r fresh])
  | .tellLeft l r goRight =>
    let (s, goLeft) := s.tell l
    match goLeft, goRight with
    | true, true => pure (.on s [.descend l r])
    | true, false => pure (.on s [.visit l])
    | false, true => pure (.on s [.visit r])
    | false, false => pure (.on s [])
  | .claimLeaf t seen =>
    match plan.nodes[t]? with
    | none => pure (.faulty s (.noNode t))
    | some node =>
      let gained := gain node seen
      let (s, won) := s.exchange t seen (seen.union gained)
      if !won then pure (.on s [.visit t])
      else if !gained.written then pure (.on s [.sumLeaf t])
      else if node.lo = 0 then pure (.on s [.writeLeaf t gained plan.base])
      else pure (.on s [.readStart t gained])
  | .readStart t gained =>
    match s.before? t with
    | none => pure (.faulty s (.noPrefix t))
    | some p => pure (.on s [.writeLeaf t gained p])
  | .writeLeaf t gained start =>
    match plan.nodes[t]? with
    | none => pure (.faulty s (.noNode t))
    | some node =>
      Outcome.ofCall s (runningTotals plan.op plan.mode start (leafElems s node))
        fun (ys, total) s =>
          .on (s.write node.lo ys)
            (if gained.summed then [.setLeafTotal t gained total] else [.report t gained])
  | .sumLeaf t =>
    match plan.nodes[t]? with
    | none => pure (.faulty s (.noNode t))
    | some node =>
      Outcome.ofCall s ((leafElems s node).reduceM plan.op) fun total s =>
        match total with
        | none => .faulty s (.emptyLeaf t)
        | some total => .on s [.setLeafTotal t { summed := true } total]
  | .setLeafTotal t gained total => pure (.on (s.setTotal t total) [.report t gained])
  | .report t gained =>
    match plan.nodes[t]? with
    | none => pure (.faulty s (.noNode t))
    | some node =>
      match node.parent with
      | none => pure (.on s [])
      | some p =>
        let seen := s.phase p
        if gained.written && seen.written then pure (.on s [.report p gained])
        else if gained.summed && seen.summed then pure (.on s [.lookTotal ⟨t, p, gained, seen⟩])
        else pure (.on s [.leave ⟨t, p, gained, seen⟩])
  | .leave a =>
    let (s, won) := s.exchange a.parent a.seen (a.seen.union a.gained)
    if won then pure (.on s []) else pure (.on s [.report a.node a.gained])
  | .lookTotal a =>
    match s.total? a.parent with
    | some _ => pure (.on s [.mark a])
    | none =>
      match plan.nodes[a.parent]?.bind Node.children with
      | none => pure (.faulty s (.noChildren a.parent))
      | some (l, r) => pure (.on s [.joinLeft a l r])
  | .joinLeft a l r =>
    match s.total? l with
    | none => pure (.faulty s (.noTotal l))
    | some x => pure (.on s [.joinRight a r x])
  | .joinRight a r x =>
    match s.total? r with
    | none => pure (.faulty s (.noTotal r))
    | some y => pure (.on s [.joinTotals a x y])
  | .joinTotals a x y => Outcome.ofCall s (plan.op x y) fun z s => .on s [.setTotal a z]
  | .setTotal a z => pure (.on (s.setTotal a.parent z) [.mark a])
  | .mark a =>
    match plan.nodes[a.parent]? with
    | none => pure (.faulty s (.noNode a.parent))
    | some node =>
      let restart := !a.seen.told && node.lo == 0
      let new := (a.seen.union a.gained).union { told := restart }
      if new = a.seen then pure (.on s [.report a.parent { summed := true }])
      else
        let (s, won) := s.exchange a.parent a.seen new
        if !won then pure (.on s [.report a.node a.gained])
        else if restart then pure (.on s [.restart a.parent])
        else pure (.on s [.report a.parent { summed := true }])
  | .restart t =>
    match plan.nodes[t]? with
    | none => pure (.faulty s (.noNode t))
    | some node =>
      pure (.on { s with started := s.started.push (node.lo, node.hi) }
        [.report t { summed := true }, .visit t])

end Plan

end

end Bisection.Scan
