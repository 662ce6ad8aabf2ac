import Bisection.Proofs.Scan.Work

/-!
# What a scan has done

The steps of a run, in their order, tell what work was done. As long as no task has stopped, the
work done is what the memory shows, but for the work that the tasks still owe and the work that is
not shown yet (`Books`). So no work is done twice, and when no task is left all of it is done.
-/

namespace Bisection.Scan
set_option autoImplicit false

open Stage

section
variable {ε α : Type} {J : Job α} {fails : Nat → Option ε} {L : Ledger} {s : Memory α}
  {task task' : Task α} {p : Nat} {w : Work}

/-- A task that is to set a total reports for a child of that node. -/
theorem Task.Stands.joining (stands : task.Stands J s) (joins : task.joining? = some p) :
    ∃ a : Ascent, a.Joins J.nodes s ∧ a.parent = p ∧
      task.duties J.nodes = Duty.ofNews a.node a.gained := by
  cases task with
  | joinLeft a l r => exact ⟨a, stands.1, Option.some.inj joins, rfl⟩
  | joinRight a r x => exact ⟨a, stands.1, Option.some.inj joins, rfl⟩
  | joinTotals a x y => exact ⟨a, stands.1, Option.some.inj joins, rfl⟩
  | setTotal a x => exact ⟨a, stands.1, Option.some.inj joins, rfl⟩
  | _ => cases joins

/-- No two tasks are to set the same total. -/
theorem Accounts.joining_apart {m : Machine Empty α} (accounts : Accounts J L m) {i j : Nat}
    (ne : i ≠ j) (at_i : m.tasks[i]? = some task) (at_j : m.tasks[j]? = some task')
    (joins : task.joining? = some p) : task'.joining? ≠ some p := by
  intro joins'
  have ready := accounts.ready (List.mem_of_getElem? at_i)
  have ready' := accounts.ready (List.mem_of_getElem? at_j)
  obtain ⟨a, up, rfl, duties⟩ := ready.stands.joining joins
  obtain ⟨b, up', same, duties'⟩ := ready'.stands.joining joins'
  obtain ⟨l, r, h, -⟩ := J.isTree.kids_of_above up.onWay.parent
  obtain ⟨other, mine, side, -⟩ := ready.totals_of_joins up duties h
  obtain ⟨-, mine', side', -⟩ := ready'.totals_of_joins up' duties' (same ▸ h)
  by_cases child : b.node = a.node
  · have duty : .sum a.node Stage.news ∈ task.duties J.nodes := by
      simp [duties, Duty.ofNews, up.gained]
    have duty' : .sum a.node Stage.news ∈ task'.duties J.nodes := by
      simp [duties', Duty.ofNews, up'.gained, child]
    have once : L.owed (.sum a.node Stage.news) ≤ 1 := by
      simp only [Ledger.owed]
      split <;> omega
    exact accounts.duty_apart ne at_i at_j (by rintro ⟨_, ⟨⟩, -⟩) once duty duty'
  · -- Both children report that they are summed, but one of them is done with that.
    grind

/-- The books of a run as long as no task has stopped: its steps, its calls, and what it leaves. -/
structure Books (J : Job α) (past : List (Task α)) (k : Nat) (s : Memory α)
    (tasks : List (Task α)) : Prop where
  fresh : ∀ task ∈ tasks, ∀ p, task.joining? = some p → s.total? p = none
  belongs : ∀ w ∈ past.flatMap (Task.work J.nodes), w.Belongs J.nodes
  balanced : ∀ w : Work, w.Belongs J.nodes →
    (past.flatMap (Task.work J.nodes) ++ tasks.flatMap Task.owes).count w =
      (s.shows J.nodes w).toNat + (tasks.flatMap (Task.did J.nodes)).count w
  calls : k = (past.map (Task.calls J.nodes)).sum
  ordered : ∀ i, IsLeaf J.nodes i → first J.nodes i ≠ 0 →
    .write i ∈ past.flatMap (Task.work J.nodes) →
      [.sum i, .write i].Sublist (past.flatMap (Task.work J.nodes))

theorem Books.start (J : Job α) : Books J [] 0 J.start.memory J.start.tasks where
  fresh task mem p joins := by
    rw [Job.start, Machine.start, List.mem_singleton] at mem
    subst mem
    cases joins
  belongs := nofun
  balanced w _ := by
    have shows : J.start.memory.shows J.nodes w = false := by
      have phase (i : Nat) := (J.unset_start i).1
      have total (i : Nat) := (J.unset_start i).2.1
      cases w <;> simp [Memory.shows, phase, total]
    rw [shows]
    rfl
  calls := rfl
  ordered := nofun

theorem Task.duty_of_owes {i : Nat} (mem : .sum i ∈ task.owes) :
    .sum i busy ∈ task.duties J.nodes := by
  cases task with
  | sumLeaf j =>
    cases List.mem_singleton.mp mem
    exact List.mem_singleton_self _
  | readStart j gained => cases List.mem_singleton.mp mem
  | writeLeaf j gained x => cases List.mem_singleton.mp mem
  | _ => cases mem

theorem Task.duty_of_work {i : Nat} (mem : .write i ∈ task.work J.nodes) :
    .write i busy ∈ task.duties J.nodes := by
  cases task with
  | writeLeaf j gained x =>
    cases List.mem_singleton.mp mem
    exact List.mem_append_right _ (List.mem_singleton_self _)
  | extend l r b x => cases List.mem_singleton.mp mem
  | handRight l r y => cases List.mem_singleton.mp mem
  | sumLeaf j => cases List.mem_singleton.mp mem
  | joinTotals a x y => cases List.mem_singleton.mp mem
  | _ => cases mem

variable {past tasks : List (Task α)} {k i : Nat}

/-- A leaf off the left end that a task is about to write has been summed. -/
theorem Books.summed (books : Books J past k s tasks) (accounts : Accounts J L ⟨s, tasks, none⟩)
    (mem : task ∈ tasks) (leaf : IsLeaf J.nodes i) (off : first J.nodes i ≠ 0)
    (writes : .write i ∈ task.work J.nodes) :
    .sum i ∈ past.flatMap (Task.work J.nodes) := by
  have write : L.write i = busy := (accounts.ready mem).write (Task.duty_of_work writes)
  have summed := accounts.fits.news_le_sum J.isTree leaf.1 (fun edge => off edge.2)
    (by rw [write]; decide)
  have shows : s.shows J.nodes (.sum i) = true :=
    (accounts.flagged.leaf leaf).1.mpr (Nat.le_trans (by decide) summed)
  have owes : .sum i ∉ tasks.flatMap Task.owes := by
    intro owes
    obtain ⟨task', mem', owes⟩ := List.mem_flatMap.mp owes
    have sum : L.sum i = busy := (accounts.ready mem').sum (Task.duty_of_owes owes)
    rw [sum] at summed
    exact absurd summed (by decide)
  have balance := books.balanced (.sum i) ⟨leaf, off⟩
  rw [List.count_append, List.count_eq_zero_of_not_mem owes, shows] at balance
  refine List.count_pos_iff.mp ?_
  rw [Nat.add_zero] at balance
  rw [balance]
  exact Nat.add_pos_left Nat.one_pos _

/-- The tasks in the other places. -/
theorem exists_place_of_rest {β : Type} {xs : List β} {x : β}
    (mem : x ∈ xs.take i ∨ x ∈ xs.drop (i + 1)) : ∃ j, j ≠ i ∧ xs[j]? = some x := by
  rcases mem with mem | mem
  · obtain ⟨j, lt, rfl⟩ := List.mem_take_iff_getElem.mp mem
    exact ⟨j, by omega, List.getElem?_eq_getElem (by omega)⟩
  · obtain ⟨j, at_j⟩ := List.mem_iff_getElem?.mp mem
    rw [List.getElem?_drop] at at_j
    exact ⟨i + 1 + j, by omega, at_j⟩

/-- A step of any task keeps the books. -/
theorem Books.step (books : Books J past k s tasks) (accounts : Accounts J L ⟨s, tasks, none⟩)
    (at_i : tasks[i]? = some task) :
    Books J (past ++ [task]) (k + task.calls J.nodes) (J.plan.step s task).memory
      (tasks.take i ++ (J.plan.step s task).tasks ++ tasks.drop (i + 1)) := by
  have mem := List.mem_of_getElem? at_i
  have ready : Ready J L s task := accounts.ready mem
  have fresh := books.fresh task mem
  have lt := (List.getElem?_eq_some_iff.mp at_i).1
  have split : tasks = tasks.take i ++ task :: tasks.drop (i + 1) := by
    rw [← (List.getElem?_eq_some_iff.mp at_i).2, ← List.drop_eq_getElem_cons lt,
      List.take_append_drop]
  have now : (past ++ [task]).flatMap (Task.work J.nodes) =
      past.flatMap (Task.work J.nodes) ++ task.work J.nodes := by
    rw [List.flatMap_append, List.flatMap_singleton]
  refine ⟨fun task' mem' p joins => ?_, fun w mem' => ?_, fun w belongs => ?_, ?_,
    fun j leaf off mem' => ?_⟩
  · have others (rest : task' ∈ tasks.take i ∨ task' ∈ tasks.drop (i + 1)) :
        (J.plan.step s task).memory.total? p = none := by
      obtain ⟨j, ne, at_j⟩ := exists_place_of_rest rest
      have mem' := List.mem_of_getElem? at_j
      obtain ⟨a, up, rfl, -⟩ := (accounts.stands task' mem').joining joins
      obtain ⟨l, r, h, -⟩ := J.isTree.kids_of_above up.onWay.parent
      rw [ready.total?_step (Option.isSome_of_eq_some h)
        (accounts.joining_apart ne at_j at_i joins)]
      exact books.fresh task' mem' _ joins
    simp only [List.mem_append] at mem'
    rcases mem' with (front | new) | back
    · exact others (.inl front)
    · exact ready.joining_fresh fresh task' new p joins
    · exact others (.inr back)
  · rw [now, List.mem_append] at mem'
    rcases mem' with before | new
    · exact books.belongs w before
    · exact ready.stands.work new
  · have before := books.balanced w belongs
    have step := ready.balance belongs fresh
    rw [split] at before
    simp only [Balanced, now, List.flatMap_append, List.flatMap_cons, List.count_append]
      at before step ⊢
    omega
  · rw [books.calls, List.map_append, List.sum_append, List.map_singleton, List.sum_singleton]
  · rw [now, List.mem_append] at mem'
    rw [now]
    rcases mem' with before | new
    · exact (books.ordered j leaf off before).trans (List.sublist_append_left _ _)
    · have summed := books.summed accounts mem leaf off new
      exact (List.singleton_sublist.mpr summed).append (List.singleton_sublist.mpr new)

variable {m : Machine ε α}

/-- As long as no task has stopped, the tasks that go on fit a ledger by themselves. -/
theorem Runs.accounts (run : Runs J fails past k m) (calm : m.stop = none) :
    ∃ L, Accounts J L ⟨m.memory, m.tasks, none⟩ := by
  obtain ⟨L, stopped, survives, -⟩ := run.survives
  have accounts := survives.accounts
  rw [survives.calm calm, List.append_nil] at accounts
  exact ⟨L, accounts⟩

/-- The books of a run in which no task has stopped. -/
theorem Runs.books (run : Runs J fails past k m) (calm : m.stop = none) :
    Books J past k m.memory m.tasks := by
  induction run with
  | start => exact .start J
  | @step past k k' i m m' task before at_i stepped ih =>
    obtain ⟨_, _, survives, -⟩ := before.survives
    rcases Machine.runFrom_stepAt fails survives.accounts.filled.sizes.2.2.2 at_i k with
      ok | ⟨j, e, -, -, -, stops⟩
    · rw [ok, Prod.mk.injEq, Except.ok.injEq] at stepped
      obtain ⟨rfl, rfl⟩ := stepped
      have calm : m.stop = none := by
        simp only [Machine.after] at calm
        cases at_m : m.stop with
        | none => rfl
        | some stop =>
          rw [at_m] at calm
          cases calm
      obtain ⟨L, accounts⟩ := before.accounts calm
      exact (ih calm).step accounts at_i
    · rw [stops, Prod.mk.injEq, Except.ok.injEq] at stepped
      obtain ⟨rfl, -⟩ := stepped
      simp only [Machine.after] at calm
      cases at_m : m.stop <;> rw [at_m] at calm <;> cases calm

/-- When no task is left, the memory shows that all work is done. -/
theorem Accounts.shown {m : Machine Empty α} (accounts : Accounts J L m) (done : m.tasks = [])
    (belongs : w.Belongs J.nodes) : m.memory.shows J.nodes w = true := by
  have quiet : ∀ i, i < J.nodes.size → L.Quiet i := fun i _ => accounts.quiet done i
  have summed {i : Nat} (lt : i < J.nodes.size) := accounts.fits.summed_of_quiet J.isTree quiet lt
  have written {i : Nat} (lt : i < J.nodes.size) := accounts.fits.written_of_quiet J.isTree quiet lt
  have told {p : Nat} (inner : (kids J.nodes p).isSome) :
      (m.memory.phase (rightOf J.nodes p)).told := by
    obtain ⟨⟨l, r⟩, h⟩ := Option.isSome_iff_exists.mp inner
    have lt := (Job.size_of_kids h).2.2
    rw [rightOf_of_kids h, accounts.flagged.told_iff lt (Job.first_right_pos h), written lt]
    decide
  cases w with
  | sum i =>
    refine (accounts.flagged.leaf belongs.1).1.mpr ?_
    rw [summed belongs.1.1]
    decide
  | write i =>
    refine (accounts.flagged.leaf belongs).2.mpr ?_
    rw [written belongs.1]
    decide
  | join p =>
    obtain ⟨k, h⟩ := Option.isSome_iff_exists.mp belongs
    have lt := (Job.size_of_kids h).1
    show (m.memory.total? p).isSome
    rw [accounts.filled.summed lt (by rw [summed lt]; decide)]
    exact Job.isSome_total lt
  | extend p => exact told belongs.1
  | push p => exact told belongs

/-- The work that there is to do on a node. -/
def workOn (nodes : Array Node) (i : Nat) : List Work :=
  if (kids nodes i).isSome then
    if first nodes i = 0 then [.join i, .push i] else [.join i, .extend i, .push i]
  else if first nodes i = 0 then [.write i]
  else [.sum i, .write i]

/-- The work that there is to do. -/
def allWork (nodes : Array Node) : List Work := (List.range nodes.size).flatMap (workOn nodes)

/-- The node that a piece of work is on. -/
def Work.node : Work → Nat
  | sum i => i
  | write i => i
  | join p => p
  | extend p => p
  | push p => p

theorem mem_workOn {nodes : Array Node} {i : Nat} (lt : i < nodes.size) :
    w ∈ workOn nodes i ↔ w.node = i ∧ w.Belongs nodes := by
  have leaf {i : Nat} (h : IsLeaf nodes i) : ¬ (kids nodes i).isSome := by simp [h.2]
  constructor
  · intro mem
    have uncut (h : ¬ (kids nodes i).isSome) : IsLeaf nodes i := ⟨lt, by simpa using h⟩
    unfold workOn at mem
    split at mem <;> split at mem <;>
      simp only [List.mem_cons, List.not_mem_nil, or_false] at mem <;>
      rcases mem with rfl | rfl | rfl <;> simp_all [Work.node, Work.Belongs]
  · rintro ⟨rfl, belongs⟩
    cases w with
    | sum i =>
      show Work.sum i ∈ workOn nodes i
      rw [workOn, if_neg (leaf belongs.1), if_neg belongs.2]
      exact List.mem_cons_self
    | write i =>
      show Work.write i ∈ workOn nodes i
      rw [workOn, if_neg (leaf belongs)]
      split <;> simp
    | join p =>
      show Work.join p ∈ workOn nodes p
      rw [workOn, if_pos (show (kids nodes p).isSome from belongs)]
      split <;> simp
    | extend p =>
      show Work.extend p ∈ workOn nodes p
      rw [workOn, if_pos belongs.1, if_neg belongs.2]
      simp
    | push p =>
      show Work.push p ∈ workOn nodes p
      rw [workOn, if_pos (show (kids nodes p).isSome from belongs)]
      split <;> simp

theorem mem_allWork {nodes : Array Node} : w ∈ allWork nodes ↔ w.Belongs nodes := by
  have lt (belongs : w.Belongs nodes) : w.node < nodes.size := by
    have inner {p : Nat} (h : (kids nodes p).isSome) : p < nodes.size := by
      by_contra ge
      simp [kids, Array.getElem?_eq_none (Nat.le_of_not_lt ge)] at h
    cases w with
    | sum i => exact belongs.1.1
    | write i => exact belongs.1
    | join p => exact inner belongs
    | extend p => exact inner belongs.1
    | push p => exact inner belongs
  rw [allWork, List.mem_flatMap]
  constructor
  · rintro ⟨i, mem, work⟩
    exact ((mem_workOn (List.mem_range.mp mem)).mp work).2
  · intro belongs
    exact ⟨w.node, List.mem_range.mpr (lt belongs), (mem_workOn (lt belongs)).mpr ⟨rfl, belongs⟩⟩

theorem nodup_allWork (nodes : Array Node) : (allWork nodes).Nodup := by
  refine List.nodup_flatMap.mpr ⟨fun i _ => ?_, ?_⟩
  · unfold workOn
    split <;> split <;> simp
  · refine List.nodup_range.imp_of_mem fun {i j} hi hj ne w mem mem' => ?_
    have at_i := ((mem_workOn (List.mem_range.mp hi)).mp mem).1
    have at_j := ((mem_workOn (List.mem_range.mp hj)).mp mem').1
    exact ne (at_i.symm.trans at_j)

/-- When no task is left, all work is done once. -/
theorem Books.perm_allWork (books : Books J past k s tasks)
    (accounts : Accounts J L ⟨s, tasks, none⟩) (done : tasks = []) :
    (past.flatMap (Task.work J.nodes)).Perm (allWork J.nodes) := by
  subst done
  have once (w : Work) (belongs : w.Belongs J.nodes) :
      (past.flatMap (Task.work J.nodes)).count w = 1 := by
    have balance := books.balanced w belongs
    rwa [accounts.shown rfl belongs, List.flatMap_nil, List.append_nil, List.flatMap_nil] at balance
  have nodup : (past.flatMap (Task.work J.nodes)).Nodup := by
    refine List.nodup_iff_count_le_one.mpr fun w => ?_
    by_cases mem : w ∈ past.flatMap (Task.work J.nodes)
    · exact (once w (books.belongs w mem)).le
    · exact (List.count_eq_zero_of_not_mem mem).le.trans (Nat.zero_le 1)
  refine (List.perm_ext_iff_of_nodup nodup (nodup_allWork J.nodes)).mpr fun w => ?_
  rw [mem_allWork]
  refine ⟨books.belongs w, fun belongs => List.count_pos_iff.mp ?_⟩
  rw [once w belongs]
  exact Nat.one_pos

end

end Bisection.Scan
