import Bisection.Proofs.Scan.Report
import Bisection.Scan.Run
import Mathlib.Algebra.Order.BigOperators.Group.List
import Mathlib.Algebra.Order.Group.Nat

/-!
# Every order of the steps of a scan

`Accounts` is the invariant of a scan on its way: there is a ledger that fits the memory and the
tasks. It holds before the first step, and each step of any task keeps it and makes less of what is
left to do. So no order of the steps goes on for ever, no task fails, and when no task is left the
ledger is closed: each node is summed and written, which says what the memory holds.
-/

namespace Bisection.Scan
set_option autoImplicit false

open Stage

section
variable {α : Type} {J : Job α} {L : Ledger} {s : Memory α} {task : Task α}

/-- Each step of a task is good. -/
theorem Ready.progress (ready : Ready J L s task) :
    ∃ L', Progress J L L' s task (J.plan.step s task) := by
  cases task with
  | visit i =>
    cases below : kids J.nodes i with
    | some k => exact ready.visit_inner below
    | none => exact ready.visit_leaf ⟨ready.stands, below⟩
  | descend l r => exact ready.descend
  | readLeftTotal p l r => exact ready.readLeftTotal
  | readPrefix p l r x => exact ready.readPrefix
  | handLeft l r b x => exact ready.handLeft
  | extend l r b x => exact ready.extend
  | handRight l r y => exact ready.handRight
  | tellRight l r => exact ready.tellRight
  | tellLeft l r goRight => exact ready.tellLeft
  | claimLeaf i seen => exact ready.claimLeaf
  | readStart i gained => exact ready.readStart
  | writeLeaf i gained x => exact ready.writeLeaf
  | sumLeaf i => exact ready.sumLeaf
  | setLeafTotal i gained x => exact ready.setLeafTotal
  | report i gained => exact ready.report
  | leave a => exact ready.leave
  | lookTotal a => exact ready.lookTotal
  | joinLeft a l r => exact ready.joinLeft
  | joinRight a r x => exact ready.joinRight
  | joinTotals a x y => exact ready.joinTotals
  | setTotal a x => exact ready.setTotal
  | mark a => exact ready.mark
  | restart p => exact ready.restart

/-- A scan on its way, with the ledger that it fits. -/
structure Accounts (J : Job α) (L : Ledger) (m : Machine Empty α) : Prop where
  stop : m.stop = none
  fits : L.Fits J.nodes
  flagged : Flagged J.nodes L m.memory
  filled : Filled J L m.memory
  stands : ∀ task ∈ m.tasks, task.Stands J m.memory
  counted : ∀ d, ¬ Duty.Exempt J.nodes L d →
    (m.tasks.flatMap (Task.duties J.nodes)).count d = L.owed d

/-- What is left to do at most. -/
def Machine.cost (J : Job α) (L : Ledger) (m : Machine Empty α) : Nat :=
  L.cost J.nodes.size + (m.tasks.map (Task.cost J.nodes m.memory)).sum

variable {m m' : Machine Empty α} {i n : Nat}

theorem Accounts.ready (accounts : Accounts J L m) (mem : task ∈ m.tasks) :
    Ready J L m.memory task := by
  refine ⟨accounts.fits, accounts.flagged, accounts.filled, accounts.stands task mem,
    fun d duty counts => ?_⟩
  rw [← accounts.counted d counts]
  exact List.count_pos_iff.2 (List.mem_flatMap.2 ⟨task, mem, duty⟩)

/-- A step of any task keeps the accounts, and less is left to do. -/
theorem Accounts.step (accounts : Accounts J L m) (at_i : m.tasks[i]? = some task) :
    ∃ L', Accounts J L' (m.after i (J.plan.step m.memory task)) ∧
      Machine.cost J L' (m.after i (J.plan.step m.memory task)) < Machine.cost J L m := by
  have mem := List.mem_of_getElem? at_i
  obtain ⟨L', stop, fits, flagged, filled, grows, stands, exempt, counted, cheaper⟩ :=
    (accounts.ready mem).progress
  have lt := (List.getElem?_eq_some_iff.1 at_i).1
  have split : m.tasks = m.tasks.take i ++ task :: m.tasks.drop (i + 1) := by
    rw [← (List.getElem?_eq_some_iff.1 at_i).2, ← List.drop_eq_getElem_cons lt,
      List.take_append_drop]
  generalize J.plan.step m.memory task = o at *
  refine ⟨L', ⟨?_, fits, flagged, filled, fun task' mem' => ?_, fun d counts => ?_⟩, ?_⟩
  · simp only [Machine.after, accounts.stop, stop]
    rfl
  · simp only [Machine.after, List.mem_append] at mem'
    rcases mem' with (front | now) | back
    · exact (accounts.stands task' (List.mem_of_mem_take front)).of_grows grows
    · exact stands task' now
    · exact (accounts.stands task' (List.mem_of_mem_drop back)).of_grows grows
  · have before := accounts.counted d fun ⟨j, eq, edge, h⟩ => counts ⟨j, eq, edge, exempt j edge h⟩
    have now := counted d counts
    rw [split] at before
    simp only [Machine.after, List.flatMap_append, List.flatMap_cons, List.count_append]
      at before ⊢
    omega
  · have others (tasks : List (Task α)) : (tasks.map (Task.cost J.nodes o.memory)).sum ≤
        (tasks.map (Task.cost J.nodes m.memory)).sum :=
      List.sum_le_sum fun task' _ => Task.cost_le_of_grows grows J.nodes task'
    have front := others (m.tasks.take i)
    have back := others (m.tasks.drop (i + 1))
    have total := congrArg (fun tasks => (tasks.map (Task.cost J.nodes m.memory)).sum) split
    simp only [List.map_append, List.map_cons, List.sum_append, List.sum_cons] at total
    simp only [Machine.cost, Machine.after, List.map_append, List.sum_append]
    omega

end

/-- No stage of the ledger counts on a task. -/
def Ledger.Quiet (L : Ledger) (i : Nat) : Prop :=
  L.sum i ≠ due ∧ L.write i ≠ due ∧ ¬ Duty.Active (L.sum i) ∧ ¬ Duty.Active (L.write i)

namespace Ledger.Fits
variable {t : Threshold} {n : Nat} {nodes : Array Node} {L : Ledger} {i : Nat}

/-- What is begun is done, once no stage counts on a task: a node that waits for its children finds
them done. The induction goes from the leaves up. -/
theorem done_of_begun (fits : L.Fits nodes) (tree : IsTree t n nodes)
    (quiet : ∀ i, i < nodes.size → L.Quiet i) (lt : i < nodes.size) (begun : L.sum i ≠ idle) :
    L.sum i = done := by
  induction h : nodes.size - i using Nat.strongRecOn generalizing i with
  | ind k ih =>
    obtain ⟨notDue, -, inactive, -⟩ := quiet i lt
    cases below : kids nodes i with
    | none =>
      simp only [Duty.Active] at inactive
      have stage := (fits.leaf ⟨lt, below⟩).sumStage
      grind
    | some k =>
      obtain ⟨l, r⟩ := k
      obtain ⟨il, lr, rn, -⟩ := tree.order below
      have inner := fits.inner below
      have left := ih (nodes.size - l) (by omega) (i := l) (by omega)
      have right := ih (nodes.size - r) (by omega) (i := r) (by omega)
      simp only [Duty.Active] at inactive
      have stage := inner.sumStage
      have children := inner.begun
      have joined := inner.joined
      by_contra unfinished
      have waits : L.sum i = waiting := by grind
      have sumL := left (by grind) rfl
      have sumR := right (by grind) rfl
      grind

/-- Every node is summed, once no stage counts on a task. The induction goes from the root down. -/
theorem summed_of_quiet (fits : L.Fits nodes) (tree : IsTree t n nodes)
    (quiet : ∀ i, i < nodes.size → L.Quiet i) (lt : i < nodes.size) : L.sum i = done := by
  induction i using Nat.strongRecOn with
  | ind i ih =>
    cases up : above nodes i with
    | none =>
      obtain rfl := tree.eq_root lt up
      have root := fits.root
      exact fits.done_of_begun tree quiet lt (by grind)
    | some p =>
      obtain ⟨l, r, below, side⟩ := tree.kids_of_above up
      have order := tree.order below
      have parent := ih p (by omega) (by omega)
      have children := (fits.inner below).begun
      exact fits.done_of_begun tree quiet lt (by grind)

/-- A node on the left edge that is summed has started to write by itself, without a promise. -/
theorem started_unpromised (fits : L.Fits nodes) (lt : i < nodes.size) (edge : first nodes i = 0)
    (summed : L.sum i = done) : L.write i ≠ idle ∧ L.write i ≠ promised := by
  refine ⟨fits.started lt edge (by grind), ?_⟩
  cases below : kids nodes i with
  | some k => exact ((fits.inner below).edge edge).1
  | none =>
    have stage := (fits.leaf ⟨lt, below⟩).edge edge
    grind

/-- A node whose parent has handed its prefix on has started to write. -/
theorem started_of_parent (fits : L.Fits nodes) (tree : IsTree t n nodes) {p l r : Nat}
    (below : kids nodes p = some (l, r)) (side : i = l ∨ i = r) (summed : L.sum l = done)
    (handed : waiting ≤ L.write p) : L.write i ≠ idle ∧ L.write i ≠ promised := by
  have order := tree.order below
  have inner := fits.inner below
  have right := inner.toldRight.2
  have left := inner.toldLeft
  have firstLeft := (tree.cut below).2.1
  rcases side with rfl | rfl
  · by_cases edge : first nodes p = 0
    · exact fits.started_unpromised (by omega) (by omega) summed
    · grind
  · grind

theorem written_of_started (fits : L.Fits nodes) (tree : IsTree t n nodes)
    (quiet : ∀ i, i < nodes.size → L.Quiet i) (lt : i < nodes.size)
    (started : L.write i ≠ idle ∧ L.write i ≠ promised) : L.write i = done := by
  induction h : nodes.size - i using Nat.strongRecOn generalizing i with
  | ind k ih =>
    obtain ⟨-, notDue, -, inactive⟩ := quiet i lt
    cases below : kids nodes i with
    | none =>
      simp only [Duty.Active] at inactive
      have stage := (fits.leaf ⟨lt, below⟩).writeStage
      grind
    | some k =>
      obtain ⟨l, r⟩ := k
      obtain ⟨il, lr, rn, -⟩ := tree.order below
      have inner := fits.inner below
      have summed := fits.summed_of_quiet tree quiet (i := l) (by omega)
      have left := ih (nodes.size - l) (by omega) (i := l) (by omega)
      have right := ih (nodes.size - r) (by omega) (i := r) (by omega)
      simp only [Duty.Active] at inactive
      have stage := inner.writeStage
      have written := inner.written
      by_contra unfinished
      have handed : waiting ≤ L.write i := by grind
      have writeL := left (fits.started_of_parent tree below (.inl rfl) summed handed) rfl
      have writeR := right (fits.started_of_parent tree below (.inr rfl) summed handed) rfl
      grind

/-- Every node is written, once no stage counts on a task. -/
theorem written_of_quiet (fits : L.Fits nodes) (tree : IsTree t n nodes)
    (quiet : ∀ i, i < nodes.size → L.Quiet i) (lt : i < nodes.size) : L.write i = done := by
  induction i using Nat.strongRecOn with
  | ind i ih =>
    refine fits.written_of_started tree quiet lt ?_
    cases up : above nodes i with
    | none =>
      obtain rfl := tree.eq_root lt up
      exact fits.started_unpromised lt tree.root.2.2.1 (fits.summed_of_quiet tree quiet lt)
    | some p =>
      obtain ⟨l, r, below, side⟩ := tree.kids_of_above up
      have order := tree.order below
      have parent := ih p (by omega) (by omega)
      exact fits.started_of_parent tree below side
        (fits.summed_of_quiet tree quiet (by omega)) (by grind)

end Ledger.Fits

section
variable {α : Type} {J : Job α} {L : Ledger} {m : Machine Empty α} {i : Nat}

/-- When no task is left, no stage counts on one. -/
theorem Accounts.quiet (accounts : Accounts J L m) (tasks : m.tasks = []) (i : Nat) :
    L.Quiet i := by
  have owed (d : Duty) (counts : ¬ Duty.Exempt J.nodes L d) : L.owed d = 0 := by
    rw [← accounts.counted d counts, tasks]
    rfl
  have sum (s : Nat) := owed (.sum i s) (by rintro ⟨j, ⟨⟩, -⟩)
  have write (s : Nat) := owed (.write i s) (by rintro ⟨j, ⟨⟩, -⟩)
  simp only [Ledger.owed] at sum write
  have visit : L.sum i ≠ due ∧ L.write i ≠ due := by
    by_cases counts : Duty.Exempt J.nodes L (.visit i)
    · obtain ⟨j, ⟨⟩, edge, started⟩ := counts
      have stage := (accounts.fits.leaf edge.1).edge edge.2
      grind
    · have visit := owed _ counts
      simp only [Ledger.owed] at visit
      grind
  refine ⟨visit.1, visit.2, fun active => ?_, fun active => ?_⟩
  · have := sum (L.sum i)
    grind
  · have := write (L.write i)
    grind

/-- Lists that agree on the range of each leaf are the same. -/
theorem Job.eq_of_leaves {xs ys : List α} (lx : xs.length = J.elems.size)
    (ly : ys.length = J.elems.size)
    (agree : ∀ i, IsLeaf J.nodes i → (xs.take (last J.nodes i)).drop (first J.nodes i) =
      (ys.take (last J.nodes i)).drop (first J.nodes i)) : xs = ys := by
  refine List.ext_getElem? fun k => ?_
  by_cases lt : k < J.elems.size
  · obtain ⟨i, leaf, lo, hi, -⟩ := J.isTree.exists_leaf lt
    have here := congrArg (fun zs : List α => zs[k - first J.nodes i]?) (agree i leaf)
    simp only [List.getElem?_drop, List.getElem?_take] at here
    rwa [Nat.add_sub_cancel' lo, if_pos hi, if_pos hi] at here
  · rw [List.getElem?_eq_none (by omega), List.getElem?_eq_none (by omega)]

/-- What a scan leaves when no task is left. -/
theorem Accounts.result (accounts : Accounts J L m) (tasks : m.tasks = []) :
    (∀ i, IsLeaf J.nodes i → (m.memory.phase i).written) ∧
      m.memory.elems.toList = J.final ∧ m.memory.total? 0 = J.total 0 := by
  have quiet : ∀ i, i < J.nodes.size → L.Quiet i := fun i _ => accounts.quiet tasks i
  have summed {i : Nat} (lt : i < J.nodes.size) := accounts.fits.summed_of_quiet J.isTree quiet lt
  have written {i : Nat} (lt : i < J.nodes.size) := accounts.fits.written_of_quiet J.isTree quiet lt
  refine ⟨fun i leaf => ?_, ?_, ?_⟩
  · rw [(accounts.flagged.leaf leaf).2, written leaf.1]
    decide
  · refine Job.eq_of_leaves ?_ J.length_final fun i leaf => ?_
    · rw [Store.length_toList, accounts.filled.sizes.2.2.2]
    · rw [← Store.toList_slice, accounts.filled.leaf leaf, written leaf.1, Job.final_leaf leaf]
      rfl
  · have root := J.isTree.root.1
    refine accounts.filled.summed root ?_
    rw [summed root]
    decide

/-- The ledger before the first step: the root is to be visited. -/
def Ledger.opening : Ledger := ⟨fun i => if i = 0 then due else idle, fun _ => idle⟩

/-- The scan of a job before its first step. -/
def Job.start (J : Job α) : Machine Empty α := .start J.nodes.size J.elems

/-- Before the first step no flag and no cell is set. -/
theorem Job.unset_start (J : Job α) (i : Nat) : J.start.memory.phase i = {} ∧
    J.start.memory.total? i = none ∧ J.start.memory.before? i = none := by
  refine ⟨?_, ?_, ?_⟩
  · simp only [Job.start, Machine.start, Memory.fresh, Memory.phase,
      Array.getD_eq_getD_getElem?, Array.getElem?_replicate]
    split <;> rfl
  · simp only [Job.start, Machine.start, Memory.fresh, Memory.total?,
      Array.getD_eq_getD_getElem?, Array.getElem?_replicate]
    split <;> rfl
  · simp only [Job.start, Machine.start, Memory.fresh, Memory.before?,
      Array.getD_eq_getD_getElem?, Array.getElem?_replicate]
    split <;> rfl

theorem Accounts.start (J : Job α) : Accounts J Ledger.opening J.start where
  stop := rfl
  fits := by
    refine ⟨by decide, fun {p l r} h => ?_, fun {i} h => ?_⟩
    · have order := J.isTree.order h
      constructor <;> simp only [Ledger.opening] <;> grind
    · constructor <;> simp only [Ledger.opening] <;> grind
  flagged := by
    have phase (i : Nat) := (J.unset_start i).1
    refine ⟨fun {p l r} h => ?_, fun {i} h => ?_, fun {i} h off => ?_, fun {i} h => ?_⟩
    · simp only [phase, Ledger.opening]
      grind
    · simp only [phase, Ledger.opening]
      grind
    · simp only [phase, Ledger.opening]
      grind
    · simp [phase]
  filled := by
    have unset (i : Nat) := (J.unset_start i).2
    refine ⟨by simp [Job.start, Machine.start, Memory.fresh], fun i => .inl (unset i).1,
      fun i => .inl (unset i).2, fun {i} lt h => ?_, fun {i} lt off h => absurd rfl h,
      fun {i} leaf => ?_⟩
    · simp only [Ledger.opening] at h
      grind
    · rw [Store.toList_slice]
      rfl
  stands := by
    simpa [Job.start, Machine.start, Task.Stands] using J.isTree.root.1
  counted d _ := by
    have inactive : ¬ Duty.Active idle ∧ ¬ Duty.Active due := by decide
    simp only [Job.start, Machine.start, List.flatMap_cons, List.flatMap_nil, Task.duties,
      List.append_nil, List.count_cons, List.count_nil]
    cases d <;> simp only [Ledger.owed, Ledger.opening] <;> grind

/-- More steps are allowed for than a scan can take. -/
theorem Machine.cost_start (J : Job α) :
    Machine.cost J Ledger.opening J.start < Machine.stepBound J.nodes.size := by
  have size := J.isTree.root.1
  have each : Ledger.opening.cost J.nodes.size = J.nodes.size * 46 := by
    refine (Finset.sum_const_nat (m := 46) fun i _ => ?_).trans (by rw [Finset.card_range])
    simp only [Ledger.opening]
    split <;> decide
  rw [Machine.cost, each]
  simp only [Job.start, Machine.start, Task.cost, List.map_cons, List.map_nil, List.sum_cons,
    List.sum_nil, Machine.stepBound]
  omega

namespace Machine
variable {plan : Plan Id α} {n : Nat} {m' : Machine Empty α}

/-- The machines that come of `n` steps, each by any task that there is. -/
inductive Reaches (plan : Plan Id α) : Nat → Machine Empty α → Machine Empty α → Prop where
  | refl (m : Machine Empty α) : Reaches plan 0 m m
  | step {n i : Nat} {m m' : Machine Empty α} (before : Reaches plan n m m')
      (lt : i < m'.tasks.length) : Reaches plan (n + 1) m (m'.stepAt plan i)

theorem stepAt_of_lt (plan : Plan Id α) (lt : i < m.tasks.length) :
    m.stepAt plan i = m.after i (plan.step m.memory m.tasks[i]) := by
  simp only [stepAt, List.getElem?_eq_getElem lt]
  rfl

theorem Reaches.head (lt : i < m.tasks.length) (rest : Reaches plan n (m.stepAt plan i) m') :
    Reaches plan (n + 1) m m' := by
  generalize start : m.stepAt plan i = mid at rest
  induction rest with
  | refl _ => exact start ▸ .step (.refl m) lt
  | step before lt' ih => exact .step (ih start) lt'

/-- A single worker is one of the orders, and stops when no task is left. -/
theorem exists_reaches_run (plan : Plan Id α) (fuel : Nat) (m : Machine Empty α) :
    ∃ n, Reaches plan n m (m.run plan fuel) ∧ (n = fuel ∨ (m.run plan fuel).tasks = []) := by
  induction fuel generalizing m with
  | zero => exact ⟨0, .refl m, .inl rfl⟩
  | succ fuel ih =>
    obtain ⟨memory, tasks, stop⟩ := m
    cases tasks with
    | nil => exact ⟨0, .refl _, .inr rfl⟩
    | cons task rest =>
      obtain ⟨n, reaches, ends⟩ :=
        ih ((⟨memory, task :: rest, stop⟩ : Machine Empty α).stepAt plan 0)
      refine ⟨n + 1, .head (Nat.zero_lt_succ _) reaches, ends.imp (congrArg (· + 1)) id⟩

/-- Every step of every run keeps the accounts, and makes less of what is left to do. -/
theorem Reaches.accounts (run : Reaches J.plan n m m') (accounts : Accounts J L m) :
    ∃ L', Accounts J L' m' ∧ n + cost J L' m' ≤ cost J L m := by
  induction run with
  | refl m => exact ⟨L, accounts, (Nat.zero_add _).le⟩
  | step before lt ih =>
    obtain ⟨L', accounts', le⟩ := ih accounts
    obtain ⟨L'', accounts'', less⟩ := accounts'.step (List.getElem?_eq_getElem lt)
    rw [stepAt_of_lt J.plan lt]
    refine ⟨L'', accounts'', ?_⟩
    rw [Nat.add_right_comm]
    exact (Nat.add_lt_add_left less _).trans_le le

/-- A single worker gets done with all tasks. -/
theorem tasks_run (J : Job α) : (J.start.run J.plan (stepBound J.nodes.size)).tasks = [] := by
  obtain ⟨n, run, full | empty⟩ :=
    exists_reaches_run J.plan (stepBound J.nodes.size) J.start
  · obtain ⟨L, -, le⟩ := run.accounts (.start J)
    have fewer : n < stepBound J.nodes.size :=
      (Nat.le_add_right n _).trans_lt (le.trans_lt (cost_start J))
    exact absurd full fewer.ne
  · exact empty

end Machine

/-- Every order of the steps of a scan is safe, ends, and leaves the same: no task fails, there are
fewer steps than the bound, and when no task is left each leaf is written and the elements and the
total are those of the recursion. -/
theorem interleaving_complete (J : Job α) {n : Nat} {m : Machine Empty α}
    (run : Machine.Reaches J.plan n J.start m) :
    m.stop = none ∧ n < Machine.stepBound J.nodes.size ∧
      (m.tasks = [] → (∀ i, IsLeaf J.nodes i → (m.memory.phase i).written) ∧
        m.memory.elems.toList =
          Reference.result J.cut J.op J.mode true J.base J.elems.toList ∧
        (m.memory.total? 0).getD J.base =
          Reference.edgeTotal J.cut J.op J.base J.elems.toList) := by
  obtain ⟨L, accounts, le⟩ := run.accounts (.start J)
  have bound := Machine.cost_start J
  refine ⟨accounts.stop, (Nat.le_add_right n _).trans_lt (le.trans_lt bound), fun tasks => ?_⟩
  obtain ⟨written, elems, total⟩ := accounts.result tasks
  refine ⟨written, elems, ?_⟩
  rw [total, Job.total_root]
  rfl

/-- Two leaves of one element each, and an operator that is not associative: each is combined with
all before it, from the base on. -/
theorem interleaving_complete_pair :
    let J : Job Nat :=
      ⟨⟨1, Nat.one_pos⟩, fun x y => 2 * x + y, .inclusive, 1, .cells #[3, 4], Nat.two_pos⟩
    let m := J.start.run J.plan (Machine.stepBound J.nodes.size)
    m.tasks = [] ∧ m.memory.elems.toList = [5, 14] ∧ (m.memory.total? 0).getD 1 = 14 := by
  intro J m
  obtain ⟨n, run, -⟩ := Machine.exists_reaches_run J.plan (Machine.stepBound J.nodes.size) J.start
  obtain ⟨-, elems, total⟩ := (interleaving_complete J run).2.2 (Machine.tasks_run J)
  refine ⟨Machine.tasks_run J, elems.trans ?_, total.trans ?_⟩
  · simp [J, Store.toList, Reference.result, Reference.rightPrefix, Reference.edgeTotal,
      Reference.running]
  · simp [J, Store.toList, Reference.edgeTotal, Reference.innerTotal, Reference.leafTotal,
      Reference.add]

end

end Bisection.Scan
