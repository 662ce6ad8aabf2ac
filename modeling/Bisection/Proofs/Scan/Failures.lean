import Bisection.Proofs.Scan.Calls
import Bisection.Proofs.Scan.Interleaving

/-!
# Scans with failures

A task that stops at a failing call leaves the memory as it is, so to the others it is a task that
never takes its turn again. What holds of the memory and the tasks along every order of steps holds
with failures too, once the stopped tasks are counted among the others: `Runs.accounts` says that
the tasks that go on and those that have stopped together fit a ledger. No cell is read before it is
set then, and no two tasks are at work on the same leaf.
-/

namespace Bisection.Scan
set_option autoImplicit false

open Stage

section
variable {ε α : Type} {J : Job α} {fails : Nat → Option ε} {L : Ledger}

/-- The scans on their way that some order of the steps leads to when the operator fails at some of
its calls, with the tasks as they were before each step and the number of calls. -/
inductive Runs (J : Job α) (fails : Nat → Option ε) :
    List (Task α) → Nat → Machine ε α → Prop where
  | start : Runs J fails [] 0 (.start J.nodes.size J.elems)
  | step {past : List (Task α)} {k k' i : Nat} {m m' : Machine ε α} {task : Task α}
      (before : Runs J fails past k m) (at_i : m.tasks[i]? = some task)
      (stepped : (m.stepAt (J.failing fails) i).runFrom k = (.ok m', k')) :
      Runs J fails (past ++ [task]) k' m'

/-- A stop that the operator is to blame for: it is the failure of one of the first `k` calls. -/
def Stop.Blames (fails : Nat → Option ε) (k : Nat) (stop : Stop ε) : Prop :=
  ∃ e j, stop = .raised e ∧ j < k ∧ fails j = some e

/-- The accounts do not depend on the order of the tasks. -/
theorem Accounts.perm {s : Memory α} {tasks tasks' : List (Task α)}
    (accounts : Accounts J L ⟨s, tasks, none⟩) (perm : tasks.Perm tasks') :
    Accounts J L ⟨s, tasks', none⟩ := by
  obtain ⟨-, fits, flagged, filled, stands, counted⟩ := accounts
  refine ⟨rfl, fits, flagged, filled, fun task mem => stands task (perm.mem_iff.mpr mem),
    fun d counts => ?_⟩
  rw [← counted d counts]
  exact (perm.flatMap_right _).count_eq d |>.symm

/-- What comes of a step in a scan with failures: the task comes to what it comes to by plain
functions, or it stops. -/
theorem Machine.runFrom_stepAt (fails : Nat → Option ε) {m : Machine ε α} {i : Nat}
    {task : Task α} (sizes : m.memory.elems.size = J.elems.size)
    (at_i : m.tasks[i]? = some task) (k : Nat) :
    (m.stepAt (J.failing fails) i).runFrom k =
        (.ok (m.after i (J.plan.step m.memory task).lift), k + task.calls J.nodes) ∨
      ∃ j e, k ≤ j ∧ j < k + task.calls J.nodes ∧ fails j = some e ∧
        (m.stepAt (J.failing fails) i).runFrom k =
          (.ok (m.after i ⟨m.memory, [], some (.raised e)⟩), j + 1) := by
  have run : (m.stepAt (J.failing fails) i).runFrom k =
      (((J.failing fails).step m.memory task).runFrom k).map (.map (m.after i)) id := by
    simp only [stepAt, at_i, ← bind_pure_comp, Counted.runFrom_bind]
    rcases ((J.failing fails).step m.memory task).runFrom k with ⟨e | o, k'⟩ <;> rfl
  rw [run]
  rcases J.failing_step fails sizes task k with ok | ⟨j, e, ge, lt, fail, stops⟩
  · left
    rw [ok]
    rfl
  · refine .inr ⟨j, e, ge, lt, fail, ?_⟩
    rw [stops]
    rfl

/-- A scan with failures on its way, after `k` calls. The tasks that go on and the ones that have
stopped fit a ledger. -/
structure Survives (J : Job α) (fails : Nat → Option ε) (k : Nat) (L : Ledger)
    (stopped : List (Task α)) (m : Machine ε α) : Prop where
  accounts : Accounts J L ⟨m.memory, m.tasks ++ stopped, none⟩
  calm : m.stop = none → stopped = []
  blames : ∀ stop ∈ m.stop, stop.Blames fails k

/-- What is left to do at most, with the tasks that have stopped. -/
def Machine.costWith (J : Job α) (L : Ledger) (m : Machine ε α) (stopped : List (Task α)) : Nat :=
  Machine.cost J L ⟨m.memory, m.tasks ++ stopped, none⟩

variable {k k' i : Nat} {stopped : List (Task α)} {m m' : Machine ε α} {task : Task α}
  {past : List (Task α)}

theorem Survives.of_start (J : Job α) (fails : Nat → Option ε) :
    Survives J fails 0 Ledger.opening [] (.start J.nodes.size J.elems) where
  accounts := .start J
  calm _ := rfl
  blames := by rintro stop ⟨⟩

theorem Survives.getElem? (at_i : m.tasks[i]? = some task) (stopped : List (Task α)) :
    (m.tasks ++ stopped)[i]? = some task := by
  rw [List.getElem?_append_left (List.getElem?_eq_some_iff.mp at_i).1, at_i]

/-- A step of any task. It makes less of what is left to do, or stops the task. -/
theorem Survives.step (survives : Survives J fails k L stopped m) (at_i : m.tasks[i]? = some task)
    (stepped : (m.stepAt (J.failing fails) i).runFrom k = (.ok m', k')) :
    ∃ L' stopped', Survives J fails k' L' stopped' m' ∧
      1 + 2 * m'.costWith J L' stopped' + stopped.length ≤
        2 * m.costWith J L stopped + stopped'.length := by
  obtain ⟨accounts, calm, blames⟩ := survives
  have lt := (List.getElem?_eq_some_iff.mp at_i).1
  have sizes := accounts.filled.sizes.2.2.2
  rcases Machine.runFrom_stepAt fails sizes at_i k with ok | ⟨j, e, ge, lt', fail, stops⟩
  · rw [ok, Prod.mk.injEq, Except.ok.injEq] at stepped
    obtain ⟨rfl, rfl⟩ := stepped
    obtain ⟨L', accounts', less⟩ := accounts.step (Survives.getElem? at_i stopped)
    have quiet : (J.plan.step m.memory task).stop = none := accounts'.stop
    have same : (⟨m.memory, m.tasks ++ stopped, none⟩ : Machine Empty α).after i
        (J.plan.step m.memory task) =
      ⟨(m.after i (J.plan.step m.memory task).lift).memory,
        (m.after i (J.plan.step m.memory task).lift).tasks ++ stopped, none⟩ := by
      simp only [Machine.after, Outcome.lift, quiet, Option.orElse_eq_orElse, Option.orElse_none,
        List.take_append_of_le_length (Nat.le_of_lt lt), List.drop_append_of_le_length lt,
        List.append_assoc]
    have stop : (m.after i (J.plan.step m.memory task).lift : Machine ε α).stop = m.stop := by
      simp only [Machine.after, Outcome.lift, quiet, Option.map_none]
      cases m.stop <;> rfl
    rw [same] at accounts' less
    refine ⟨L', stopped, ⟨accounts', ?_, ?_⟩, ?_⟩
    · rw [stop]
      exact calm
    · rw [stop]
      intro stop mem
      obtain ⟨e, j, eq, lt, fail⟩ := blames stop mem
      exact ⟨e, j, eq, by omega, fail⟩
    · simp only [Machine.costWith] at less ⊢
      omega
  · rw [stops, Prod.mk.injEq, Except.ok.injEq] at stepped
    obtain ⟨rfl, rfl⟩ := stepped
    have perm : (m.tasks ++ stopped).Perm
        ((m.after i ⟨m.memory, [], some (.raised e)⟩).tasks ++ task :: stopped) := by
      have split : m.tasks = m.tasks.take i ++ task :: m.tasks.drop (i + 1) := by
        rw [← (List.getElem?_eq_some_iff.mp at_i).2, ← List.drop_eq_getElem_cons lt,
          List.take_append_drop]
      rw [Machine.after, List.append_nil, List.append_assoc]
      conv => lhs; rw [split, List.append_assoc, List.cons_append]
      exact (List.perm_middle.symm).append_left _
    refine ⟨L, task :: stopped, ⟨accounts.perm perm, ?_, ?_⟩, ?_⟩
    · intro none
      cases stop : m.stop <;> simp [Machine.after, stop] at none
    · intro stop mem
      simp only [Machine.after] at mem
      cases at_m : m.stop with
      | none =>
        rw [at_m] at mem
        cases mem
        exact ⟨e, j, rfl, Nat.lt_succ_self j, fail⟩
      | some stop' =>
        rw [at_m] at mem
        cases mem
        obtain ⟨e', j', eq, lt, fail'⟩ := blames stop at_m
        exact ⟨e', j', eq, by omega, fail'⟩
    · have same := (perm.map (Task.cost J.nodes m.memory)).sum_eq
      simp only [Machine.costWith, Machine.cost, Machine.after, List.length_cons] at same ⊢
      omega

/-- Every run keeps the accounts of the tasks that go on and of those that have stopped. -/
theorem Runs.survives (run : Runs J fails past k m) : ∃ L stopped,
    Survives J fails k L stopped m ∧ past.length + 2 * m.costWith J L stopped ≤
      2 * Machine.cost J Ledger.opening J.start + stopped.length := by
  induction run with
  | start => exact ⟨_, [], .of_start J fails, by simp [Machine.costWith]; rfl⟩
  | step before at_i stepped ih =>
    obtain ⟨L, stopped, survives, le⟩ := ih
    obtain ⟨L', stopped', survives', less⟩ := survives.step at_i stepped
    refine ⟨L', stopped', survives', ?_⟩
    rw [List.length_append, List.length_singleton]
    omega

theorem Task.cost_pos (nodes : Array Node) (s : Memory α) (task : Task α) :
    0 < task.cost nodes s := by
  cases task with
  | report i gained =>
    simp only [cost]
    split <;> omega
  | _ =>
    simp only [cost]
    omega

/-- Every run ends, whatever calls fail. -/
theorem Runs.length_lt (run : Runs J fails past k m) :
    past.length < 2 * Machine.stepBound J.nodes.size := by
  obtain ⟨L, stopped, -, le⟩ := run.survives
  have bound := Machine.cost_start J
  have each (tasks : List (Task α)) :
      tasks.length ≤ (tasks.map (Task.cost J.nodes m.memory)).sum := by
    induction tasks with
    | nil => exact Nat.le_refl 0
    | cons task tasks ih =>
      have pos := task.cost_pos J.nodes m.memory
      rw [List.length_cons, List.map_cons, List.sum_cons]
      omega
  have all := each (m.tasks ++ stopped)
  rw [List.length_append] at all
  have left : (m.tasks.length + stopped.length) ≤ m.costWith J L stopped :=
    all.trans (Nat.le_add_left _ _)
  omega

/-- The leaf whose elements a task has claimed, and has not let go of yet. -/
def Task.leaf? : Task α → Option Nat
  | .readStart i _ => some i
  | .writeLeaf i _ _ => some i
  | .sumLeaf i => some i
  | _ => none

/-- A task that has claimed a leaf is at work on it, to sum or to write it. -/
theorem Task.Stands.leaf {s : Memory α} (stands : task.Stands J s) {i : Nat}
    (claims : task.leaf? = some i) : IsLeaf J.nodes i ∧
      (.write i busy ∈ task.duties J.nodes ∨
        first J.nodes i ≠ 0 ∧ .sum i busy ∈ task.duties J.nodes) := by
  cases task with
  | readStart j gained =>
    cases claims
    exact ⟨stands.1, .inl (List.mem_singleton_self _)⟩
  | writeLeaf j gained x =>
    cases claims
    exact ⟨stands.1, .inl (List.mem_append_right _ (List.mem_singleton_self _))⟩
  | sumLeaf j =>
    cases claims
    exact ⟨stands.1, .inr ⟨stands.2, List.mem_singleton_self _⟩⟩
  | _ => cases claims

/-- What two places of a list have in common is counted twice. -/
theorem two_le_count_flatMap {β γ : Type} [BEq γ] [LawfulBEq γ] {f : β → List γ} {xs : List β}
    {p q : Nat} {x y : β} {d : γ} (lt : p < q) (at_p : xs[p]? = some x) (at_q : xs[q]? = some y)
    (dx : d ∈ f x) (dy : d ∈ f y) : 2 ≤ (xs.flatMap f).count d := by
  have front : d ∈ (xs.take q).flatMap f := by
    refine List.mem_flatMap.mpr ⟨x, List.mem_of_getElem? (i := p) ?_, dx⟩
    rw [List.getElem?_take_of_lt lt, at_p]
  have back : d ∈ (xs.drop q).flatMap f := by
    refine List.mem_flatMap.mpr ⟨y, List.mem_of_getElem? (i := 0) ?_, dy⟩
    rw [List.getElem?_drop, Nat.add_zero, at_q]
  have front := List.count_pos_iff.mpr front
  have back := List.count_pos_iff.mpr back
  rw [← List.take_append_drop q xs, List.flatMap_append, List.count_append]
  omega

/-- No duty but a visit is that of two tasks. -/
theorem Accounts.duty_apart {m : Machine Empty α} (accounts : Accounts J L m) {p q : Nat}
    {task task' : Task α} (ne : p ≠ q) (at_p : m.tasks[p]? = some task)
    (at_q : m.tasks[q]? = some task') {d : Duty} (counts : ¬ Duty.Exempt J.nodes L d)
    (most : L.owed d ≤ 1) (mine : d ∈ task.duties J.nodes) : d ∉ task'.duties J.nodes := by
  intro other
  have twice : 2 ≤ (m.tasks.flatMap (Task.duties J.nodes)).count d := by
    rcases Nat.lt_or_gt_of_ne ne with lt | gt
    · exact two_le_count_flatMap lt at_p at_q mine other
    · exact two_le_count_flatMap gt at_q at_p other mine
  rw [accounts.counted d counts] at twice
  omega

/-- No two tasks have claimed the same leaf. -/
theorem Accounts.leaf_apart {m : Machine Empty α} (accounts : Accounts J L m) {p q : Nat}
    {task task' : Task α} (ne : p ≠ q) (at_p : m.tasks[p]? = some task)
    (at_q : m.tasks[q]? = some task') {i j : Nat} (claims : task.leaf? = some i)
    (claims' : task'.leaf? = some j) : i ≠ j := by
  rintro rfl
  have mem := List.mem_of_getElem? at_p
  have mem' := List.mem_of_getElem? at_q
  obtain ⟨leaf, duty⟩ := (accounts.stands task mem).leaf claims
  obtain ⟨-, duty'⟩ := (accounts.stands task' mem').leaf claims'
  have sumOnce : L.owed (.sum i busy) ≤ 1 := by
    simp only [Ledger.owed]
    split <;> omega
  have writeOnce : L.owed (.write i busy) ≤ 1 := by
    simp only [Ledger.owed]
    split <;> omega
  -- Off the left edge a leaf is not written before it is summed.
  have notBoth (off : first J.nodes i ≠ 0) (sum : L.sum i = busy) (write : L.write i = busy) :
      False := by
    have summed := accounts.fits.news_le_sum J.isTree leaf.1 (fun edge => off edge.2)
      (by rw [write]; decide)
    rw [sum] at summed
    exact absurd summed (by decide)
  have ready := accounts.ready mem
  have ready' := accounts.ready mem'
  rcases duty with write | ⟨off, sum⟩ <;> rcases duty' with write' | ⟨off', sum'⟩
  · exact accounts.duty_apart ne at_p at_q (by rintro ⟨_, ⟨⟩, -⟩) writeOnce write write'
  · exact notBoth off' (ready'.sum sum') (ready.write write)
  · exact notBoth off (ready.sum sum) (ready'.write write')
  · exact accounts.duty_apart ne at_p at_q (by rintro ⟨_, ⟨⟩, -⟩) sumOnce sum sum'

/-- A step of any task in a scan with failures comes to an outcome. If the task stops there, the
operator is to blame. -/
theorem Survives.outcome (survives : Survives J fails k L stopped m) (mem : task ∈ m.tasks) :
    ∃ o k', ((J.failing fails).step m.memory task).runFrom k = (.ok o, k') ∧
      ∀ stop ∈ o.stop, stop.Blames fails k' := by
  have accounts := survives.accounts
  obtain ⟨L', progress⟩ := (accounts.ready (List.mem_append_left stopped mem)).progress
  rcases J.failing_step fails accounts.filled.sizes.2.2.2 task k with
    ok | ⟨j, e, -, -, fail, stops⟩
  · refine ⟨_, _, ok, fun stop mem => ?_⟩
    simp only [Outcome.lift, progress.stop] at mem
    cases mem
  · refine ⟨_, _, stops, fun stop mem => ?_⟩
    cases mem
    exact ⟨e, j, rfl, Nat.lt_succ_self j, fail⟩

end

/-- Whatever calls of the operator fail, and in whatever order the tasks take their steps: a task
stops only where the operator has failed, and never runs into a cell that is not set, an empty leaf
or a parent without children. The range of a leaf that a task has claimed lies within the elements,
and no other task has claimed a part of it. The run ends, and the total is set if no task has
stopped. -/
theorem failing_scan_safe {ε α : Type} (J : Job α) (fails : Nat → Option ε)
    {past : List (Task α)} {k : Nat} {m : Machine ε α} (run : Runs J fails past k m) :
    (∀ stop ∈ m.stop, stop.Blames fails k) ∧
    (∀ task ∈ m.tasks, ∃ o k',
      ((J.failing fails).step m.memory task).runFrom k = (.ok o, k') ∧
      ∀ stop ∈ o.stop, stop.Blames fails k') ∧
    (∀ task ∈ m.tasks, ∀ i ∈ task.leaf?, first J.nodes i < last J.nodes i ∧
      last J.nodes i ≤ m.memory.elems.size) ∧
    (∀ (p q : Nat) (task task' : Task α), p ≠ q → m.tasks[p]? = some task →
      m.tasks[q]? = some task' → ∀ i ∈ task.leaf?, ∀ j ∈ task'.leaf?,
        last J.nodes i ≤ first J.nodes j ∨ last J.nodes j ≤ first J.nodes i) ∧
    past.length < 2 * Machine.stepBound J.nodes.size ∧
    (m.tasks = [] → m.stop = none → (m.memory.total? 0).isSome) := by
  obtain ⟨L, stopped, survives, -⟩ := run.survives
  have accounts := survives.accounts
  have leaf {task : Task α} (mem : task ∈ m.tasks) {i : Nat} (claims : task.leaf? = some i) :
      IsLeaf J.nodes i :=
    ((accounts.stands task (List.mem_append_left stopped mem)).leaf claims).1
  refine ⟨survives.blames, fun task mem => survives.outcome mem, fun task mem i claims => ?_,
    fun p q task task' ne at_p at_q i claims j claims' => ?_, run.length_lt, fun done calm => ?_⟩
  · rw [accounts.filled.sizes.2.2.2]
    exact J.isTree.range (leaf mem claims).1
  · have apart := accounts.leaf_apart ne (Survives.getElem? at_p stopped)
      (Survives.getElem? at_q stopped) claims claims'
    exact J.isTree.leaves_apart (leaf (List.mem_of_getElem? at_p) claims)
      (leaf (List.mem_of_getElem? at_q) claims') apart
  · have none : m.tasks ++ stopped = [] := by rw [done, survives.calm calm, List.nil_append]
    have total := (accounts.result none).2.2
    show (m.memory.total? 0).isSome
    rw [show m.memory.total? 0 = J.total 0 from total]
    exact Job.isSome_total J.isTree.root.1

/-- Two elements in one leaf. The first call fails, so that the task that writes the leaf stops. -/
theorem failing_scan_safe_stop :
    let J : Job Nat :=
      ⟨⟨2, Nat.two_pos⟩, (· + ·), .inclusive, 1, .cells #[3, 4], Nat.two_pos⟩
    let fails : Nat → Option String := fun k => if k = 0 then some "overflow" else none
    ∃ past k m, Runs J fails past k m ∧ m.tasks = [] ∧
      ∃ e j, m.stop = some (.raised e) ∧ j < k ∧ fails j = some e := by
  intro J fails
  have nodes : J.nodes = #[⟨0, 2, none, none⟩] := by decide +kernel
  have plan : J.failing fails = ⟨#[⟨0, 2, none, none⟩], (J.failing fails).op, 1, .inclusive⟩ := by
    rw [← nodes]
    rfl
  have fresh : Runs J fails [] 0 (.start J.nodes.size J.elems) := .start
  rw [nodes] at fresh
  have seen : Runs J fails [.visit 0] 0 ⟨.fresh 1 J.elems, [.claimLeaf 0 {}], none⟩ :=
    fresh.step (i := 0) rfl (by rw [plan]; rfl)
  have claimed : Runs J fails [.visit 0, .claimLeaf 0 {}] 0
      ⟨(Memory.fresh 1 J.elems).setPhase 0 ⟨false, true, true⟩,
        [.writeLeaf 0 ⟨false, true, true⟩ 1], none⟩ :=
    seen.step (i := 0) rfl (by rw [plan]; rfl)
  have stopped : Runs J fails
      [.visit 0, .claimLeaf 0 {}, .writeLeaf 0 ⟨false, true, true⟩ 1] 1
      ⟨(Memory.fresh 1 J.elems).setPhase 0 ⟨false, true, true⟩, [], some (.raised "overflow")⟩ :=
    claimed.step (i := 0) rfl (by rw [plan]; rfl)
  obtain ⟨e, j, stop, lt, fail⟩ := (failing_scan_safe J fails stopped).1 _ rfl
  exact ⟨_, _, _, stopped, rfl, e, j, congrArg some stop, lt, fail⟩

end Bisection.Scan
