import Bisection.Proofs.Scan.Duty

/-!
# Where the tasks of a scan stand

`Task.Stands` is what a task may rely on for good: that the nodes it names hang together, that the
values it carries are those of the recursion, and that what it has seen of a phase or a cell is
still there. It carries over to each later memory, so no task can take it away from another one.
What a task relies on besides, such as that no other task is at work on its node, comes from its
duties.

A step is good if it makes `Progress`: there is a ledger for what came of it, in which everything
fits again, the duties of the task have gone over to the tasks that go on in its place, and less is
left to do.
-/

namespace Bisection.Scan
set_option autoImplicit false

open Stage

/-- What node `i` may gain at a time: the leaf at the left end is summed and written at once, and
other nodes are either summed or written. -/
structure GainFits (nodes : Array Node) (i : Nat) (gained : Phase) : Prop where
  lt : i < nodes.size
  untold : gained.told = false
  any : gained.summed ∨ gained.written
  both : gained.summed ∧ gained.written ↔ IsEdgeLeaf nodes i

namespace Ascent
variable {α : Type}

/-- A report is on its way, and is not about to find the parent written. -/
structure OnWay (nodes : Array Node) (s : Memory α) (a : Ascent) : Prop where
  gain : GainFits nodes a.node a.gained
  parent : above nodes a.node = some a.parent
  seen : a.seen.Within (s.phase a.parent)
  unwritten : ¬ (a.gained.written ∧ a.seen.written)

/-- A report is on its way that comes second of two that tell that a child is summed. -/
structure Joins (nodes : Array Node) (s : Memory α) (a : Ascent) : Prop where
  onWay : a.OnWay nodes s
  gained : a.gained.summed
  seen : a.seen.summed

variable {nodes : Array Node} {s s' : Memory α} {a : Ascent}

theorem OnWay.of_grows (h : a.OnWay nodes s) (grows : s.Grows s') : a.OnWay nodes s' :=
  ⟨h.gain, h.parent, h.seen.trans (grows.phase _), h.unwritten⟩

theorem Joins.of_grows (h : a.Joins nodes s) (grows : s.Grows s') : a.Joins nodes s' :=
  ⟨h.onWay.of_grows grows, h.gained, h.seen⟩

end Ascent

section
variable {α : Type} (J : Job α)

/-- The scan of a job by plain functions. -/
def Job.plan : Plan Id α := ⟨J.nodes, J.op, J.base, J.mode⟩

/-- What a task relies on for good. -/
def Task.Stands (s : Memory α) : Task α → Prop
  | .visit i => i < J.nodes.size
  | .descend l r => l < J.nodes.size ∧ r < J.nodes.size
  | .readLeftTotal p l r => kids J.nodes p = some (l, r)
  | .readPrefix p l r x => kids J.nodes p = some (l, r) ∧ J.total l = some x ∧ first J.nodes p ≠ 0
  | .handLeft l r b x => ∃ p, kids J.nodes p = some (l, r) ∧ J.total l = some x ∧
      first J.nodes p ≠ 0 ∧ b = J.before p
  | .extend l r b x => ∃ p, kids J.nodes p = some (l, r) ∧ J.total l = some x ∧
      first J.nodes p ≠ 0 ∧ b = J.before p ∧ s.before? l = some (J.before l)
  | .handRight l r y => ∃ p, kids J.nodes p = some (l, r) ∧ y = J.before r ∧
      (first J.nodes p ≠ 0 → s.before? l = some (J.before l))
  | .tellRight l r => ∃ p, kids J.nodes p = some (l, r) ∧ s.before? r = some (J.before r) ∧
      (first J.nodes p ≠ 0 → s.before? l = some (J.before l))
  | .tellLeft l r goRight => goRight ∧ ∃ p, kids J.nodes p = some (l, r) ∧
      (first J.nodes p ≠ 0 → s.before? l = some (J.before l))
  | .claimLeaf i seen => IsLeaf J.nodes i ∧ seen.Within (s.phase i) ∧ ¬ seen.written ∧
      (seen.told → seen.summed)
  | .readStart i gained => IsLeaf J.nodes i ∧ first J.nodes i ≠ 0 ∧ gained = ⟨false, false, true⟩
  | .writeLeaf i gained start => IsLeaf J.nodes i ∧ start = J.before i ∧
      gained = ⟨false, first J.nodes i = 0, true⟩
  | .sumLeaf i => IsLeaf J.nodes i ∧ first J.nodes i ≠ 0
  | .setLeafTotal i gained x => IsLeaf J.nodes i ∧ J.total i = some x ∧
      gained = ⟨false, true, first J.nodes i = 0⟩
  | .report i gained => GainFits J.nodes i gained
  | .leave a => a.OnWay J.nodes s ∧ ¬ (a.gained.summed ∧ a.seen.summed)
  | .lookTotal a => a.Joins J.nodes s
  | .joinLeft a l r => a.Joins J.nodes s ∧ kids J.nodes a.parent = some (l, r)
  | .joinRight a r x => a.Joins J.nodes s ∧
      ∃ l, kids J.nodes a.parent = some (l, r) ∧ J.total l = some x
  | .joinTotals a x y => a.Joins J.nodes s ∧ J.total a.parent = some (J.op x y)
  | .setTotal a z => a.Joins J.nodes s ∧ J.total a.parent = some z
  | .mark a => a.Joins J.nodes s ∧ s.total? a.parent = J.total a.parent
  | .restart p => ∃ l r, kids J.nodes p = some (l, r)

variable {J}

/-- What a task relies on carries over to each later memory. -/
theorem Task.Stands.of_grows {s s' : Memory α} {task : Task α} (h : task.Stands J s)
    (grows : s.Grows s') : task.Stands J s' := by
  cases task with
  | extend l r b x =>
    obtain ⟨p, below, total, off, eq, set⟩ := h
    exact ⟨p, below, total, off, eq, grows.before set⟩
  | handRight l r y =>
    obtain ⟨p, below, eq, set⟩ := h
    exact ⟨p, below, eq, fun off => grows.before (set off)⟩
  | tellRight l r =>
    obtain ⟨p, below, right, left⟩ := h
    exact ⟨p, below, grows.before right, fun off => grows.before (left off)⟩
  | tellLeft l r goRight =>
    obtain ⟨fresh, p, below, left⟩ := h
    exact ⟨fresh, p, below, fun off => grows.before (left off)⟩
  | claimLeaf i seen =>
    obtain ⟨leaf, within, rest⟩ := h
    exact ⟨leaf, within.trans (grows.phase i), rest⟩
  | leave a => exact ⟨h.1.of_grows grows, h.2⟩
  | lookTotal a => exact Ascent.Joins.of_grows h grows
  | joinLeft a l r => exact ⟨h.1.of_grows grows, h.2⟩
  | joinRight a r x => exact ⟨h.1.of_grows grows, h.2⟩
  | joinTotals a x y => exact ⟨h.1.of_grows grows, h.2⟩
  | setTotal a z => exact ⟨h.1.of_grows grows, h.2⟩
  | mark a =>
    obtain ⟨joins, set⟩ := h
    refine ⟨joins.of_grows grows, ?_⟩
    obtain ⟨l, r, below, -⟩ := J.isTree.kids_of_above joins.onWay.parent
    obtain ⟨x, eq⟩ := Option.isSome_iff_exists.1 (Job.isSome_total (Job.size_of_kids below).1)
    rw [eq] at set ⊢
    exact grows.total set
  | _ => exact h

/-- A task that is about to take a step, and what it finds. -/
structure Ready (J : Job α) (L : Ledger) (s : Memory α) (task : Task α) : Prop where
  fits : L.Fits J.nodes
  flagged : Flagged J.nodes L s
  filled : Filled J L s
  stands : task.Stands J s
  counted : ∀ d ∈ task.duties J.nodes, ¬ Duty.Exempt J.nodes L d → 0 < L.owed d

/-- What came of a step is good, with `L'` as the ledger. -/
structure Progress (J : Job α) (L L' : Ledger) (s : Memory α) (task : Task α)
    (o : Outcome Empty α) : Prop where
  stop : o.stop = none
  fits : L'.Fits J.nodes
  flagged : Flagged J.nodes L' o.memory
  filled : Filled J L' o.memory
  grows : s.Grows o.memory
  stands : ∀ task' ∈ o.tasks, task'.Stands J o.memory
  exempt : ∀ i, IsEdgeLeaf J.nodes i → busy ≤ L.write i → busy ≤ L'.write i
  counted : ∀ d, ¬ Duty.Exempt J.nodes L' d →
    (o.tasks.flatMap (Task.duties J.nodes)).count d + L.owed d =
      (task.duties J.nodes).count d + L'.owed d
  cheaper : L'.cost J.nodes.size + (o.tasks.map (Task.cost J.nodes o.memory)).sum <
    L.cost J.nodes.size + task.cost J.nodes s

variable {L L' : Ledger} {s s' : Memory α} {task : Task α} {i k : Nat}

theorem Ready.sum (ready : Ready J L s task) (mem : .sum i k ∈ task.duties J.nodes) :
    L.sum i = k := by
  have := ready.counted _ mem (by rintro ⟨j, eq, -⟩; cases eq)
  simp only [Ledger.owed] at this
  grind

theorem Ready.write (ready : Ready J L s task) (mem : .write i k ∈ task.duties J.nodes) :
    L.write i = k := by
  have := ready.counted _ mem (by rintro ⟨j, eq, -⟩; cases eq)
  simp only [Ledger.owed] at this
  grind

/-- A step that is no entry in the ledger, and leaves the flags alone. -/
theorem Progress.stay (ready : Ready J L s task) {tasks : List (Task α)}
    (flagged : Flagged J.nodes L s') (filled : Filled J L s') (grows : s.Grows s')
    (stands : ∀ task' ∈ tasks, task'.Stands J s')
    (duties : tasks.flatMap (Task.duties J.nodes) = task.duties J.nodes)
    (cheaper : (tasks.map (Task.cost J.nodes s')).sum < task.cost J.nodes s) :
    Progress J L L s task (.on s' tasks) where
  stop := rfl
  fits := ready.fits
  flagged := flagged
  filled := filled
  grows := grows
  stands := stands
  exempt _ _ := id
  counted d _ := by rw [Outcome.on, duties]
  cheaper := Nat.add_lt_add_left cheaper _

/-- A step that goes on with one task, and changes nothing. -/
theorem Progress.next (ready : Ready J L s task) {task' : Task α} (stands : task'.Stands J s)
    (duties : task'.duties J.nodes = task.duties J.nodes)
    (cheaper : task'.cost J.nodes s < task.cost J.nodes s) :
    Progress J L L s task (.on s [task']) := by
  refine .stay ready ready.flagged ready.filled (.refl s) ?_ ?_ ?_
  · simpa using stands
  · simpa using duties
  · simpa using cheaper

/-- A step that is an entry in the ledger. -/
theorem Progress.enter {tasks : List (Task α)} {out into : List Duty} {paid spent : Nat}
    (fits : L'.Fits J.nodes) (flagged : Flagged J.nodes L' s') (filled : Filled J L' s')
    (grows : s.Grows s') (stands : ∀ task' ∈ tasks, task'.Stands J s')
    (exempt : ∀ i, IsEdgeLeaf J.nodes i → busy ≤ L.write i → busy ≤ L'.write i)
    (moves : L.Moves J.nodes.size L' out into paid spent)
    (duties : ∀ d, ¬ Duty.Exempt J.nodes L' d →
      (tasks.flatMap (Task.duties J.nodes)).count d + out.count d =
        (task.duties J.nodes).count d + into.count d)
    (cheaper : spent + (tasks.map (Task.cost J.nodes s')).sum < paid + task.cost J.nodes s) :
    Progress J L L' s task (.on s' tasks) where
  stop := rfl
  fits := fits
  flagged := flagged
  filled := filled
  grows := grows
  stands := stands
  exempt := exempt
  counted d counts := by
    have := moves.owed d
    have := duties d counts
    simp only [Outcome.on]
    omega
  cheaper := by
    have := moves.cost
    simp only [Outcome.on]
    omega

/-- A node of the tree and what is known of it. -/
theorem Job.exists_node (lt : i < J.nodes.size) : ∃ node, J.plan.nodes[i]? = some node ∧
    node.lo = first J.nodes i ∧ node.hi = last J.nodes i ∧ node.parent = above J.nodes i ∧
      node.children = kids J.nodes i := by
  have node : J.nodes[i]? = some J.nodes[i] := Array.getElem?_eq_getElem lt
  exact ⟨_, node, (first_of_getElem? node).symm, (last_of_getElem? node).symm,
    (above_of_getElem? node).symm, (kids_of_getElem? node).symm⟩

/-! ## The steps that call the operator -/

variable {node : Node} {gained : Phase} {x y : α}

theorem Job.step_extend (l r : Nat) : J.plan.step s (.extend l r x y) =
    .on s [.handRight l r (J.op x y)] := rfl

theorem Job.step_joinTotals (a : Ascent) : J.plan.step s (.joinTotals a x y) =
    .on s [.setTotal a (J.op x y)] := rfl

theorem Job.step_sumLeaf (at_i : J.plan.nodes[i]? = some node) : J.plan.step s (.sumLeaf i) =
    ((Plan.leafElems s node).reduceM (m := Id) J.op).elim (.faulty s (.emptyLeaf i))
      fun total => .on s [.setLeafTotal i { summed := true } total] := by
  simp only [Plan.step, at_i]
  show (match (Plan.leafElems s node).reduceM (m := Id) J.op with
    | none => .faulty s (.emptyLeaf i)
    | some total => .on s [.setLeafTotal i { summed := true } total] : Outcome Empty α) = _
  cases (Plan.leafElems s node).reduceM (m := Id) J.op <;> rfl

theorem Job.step_writeLeaf (at_i : J.plan.nodes[i]? = some node) :
    J.plan.step s (.writeLeaf i gained x) =
      let found : Array α × α := runningTotals (m := Id) J.op J.mode x (Plan.leafElems s node)
      .on (s.write node.lo found.1)
        [if gained.summed then .setLeafTotal i gained found.2 else .report i gained] := by
  simp only [Plan.step, at_i]
  cases gained.summed <;> rfl

end

end Bisection.Scan
