import Bisection.Proofs.Scan.Phases
import Bisection.Proofs.Scan.Spine
import Bisection.Proofs.Scan.Unfailing
import Bisection.Script.Journal

/-!
# When the nodes on the left edge start to write

A node on the left edge needs no prefix, so it starts to write once its children are summed. The
task that reports the second child marks the node in the exchange that also tells it to write, and
whoever wins that exchange starts the task that writes (`Task.restart`). So a node on the spine is
told exactly if its restart is done or due (`Restarts.counted`), and the restarts that are done are
the spine from its lowest node up to some node (`Restarts.ordered`), whoever carries the news.
-/

namespace Bisection.Scan
set_option autoImplicit false

open Stage

/-- The node that a task is about to start the writing of. -/
def Task.restarts? {α : Type} : Task α → Option Nat
  | .restart p => some p
  | _ => none

/-- The nodes that tasks start the writing of. -/
abbrev restartsOf {α : Type} (tasks : List (Task α)) : List Nat := tasks.filterMap Task.restarts?

/-- The lines that are logged for the restarts of a scan. -/
def Memory.lines {α : Type} (s : Memory α) : List String :=
  s.started.toList.map fun r => (Notice.cumulating r.1 r.2).text

/-- The line that is logged when the node on the left edge up to `e` starts to write. -/
def spineLine (e : Nat) : String := s!"TRACE [scan] Range 0..{e} is summed, starting to cumulate"

theorem text_cumulating (e : Nat) : (Notice.cumulating 0 e).text = spineLine e := by
  have front : toString "TRACE [scan] Range " ++ toString 0 ++ toString ".." =
    toString "TRACE [scan] Range 0.." := by decide +kernel
  exact congrArg (· ++ toString e ++ toString " is summed, starting to cumulate") front

section
variable {α : Type} {J : Job α} {L : Ledger} {s : Memory α} {task : Task α} {i p l r : Nat}

/-- A node on the spine that is summed is told to write. -/
theorem Flagged.told_of_summed (flagged : Flagged J.nodes L s) (fits : L.Fits J.nodes)
    (spine : IsSpine J.nodes p) (summed : news ≤ L.sum p) : (s.phase p).told := by
  obtain ⟨⟨l, r⟩, h⟩ := Option.isSome_iff_exists.mp spine.1
  exact (flagged.inner h).1.mpr (fits.started spine.lt spine.2 summed)

/-- A restart is due once its node is summed, and before that is reported. -/
theorem Ready.sum_of_restarts (ready : Ready J L s task) (restarts : task.restarts? = some p) :
    L.sum p = news := by
  cases task with
  | restart q =>
    cases restarts
    exact ready.sum List.mem_cons_self
  | _ => cases restarts

/-- A restart is written down. -/
theorem Ready.started_step (ready : Ready J L s task) :
    (J.plan.step s task).memory.started.toList =
      s.started.toList ++ (restartsOf [task]).map fun p => (first J.nodes p, last J.nodes p) := by
  cases task with
  | restart p =>
    obtain ⟨l, r, h⟩ := ready.stands
    obtain ⟨node, at_p, lo, hi, -⟩ := Job.exists_node (Job.size_of_kids h).1
    simp only [Plan.step, at_p]
    show (s.started.push (node.lo, node.hi)).toList = _
    rw [Array.toList_push, lo, hi]
    rfl
  | sumLeaf j =>
    obtain ⟨x, -, step⟩ := ready.step_sumLeaf
    rw [step]
    exact (List.append_nil _).symm
  | writeLeaf j gained x =>
    obtain ⟨node, at_j, -⟩ := Job.exists_node ready.stands.1.1
    rw [Job.step_writeLeaf at_j]
    exact (List.append_nil _).symm
  | _ =>
    simp only [Plan.step, Memory.tell, Memory.exchange]
    repeat' split
    all_goals exact (List.append_nil _).symm

/-- What came of a step: a restart is due for each node on the spine that was told to write, and for
no other node. -/
structure Announces (J : Job α) (s : Memory α) (o : Outcome Empty α) : Prop where
  onSpine : ∀ p ∈ restartsOf o.tasks, IsSpine J.nodes p
  counted : ∀ p, IsSpine J.nodes p →
    (restartsOf o.tasks).count p + (s.phase p).told.toNat = (o.memory.phase p).told.toNat

/-- No restart, and no node on the spine is told. -/
theorem Announces.of_same {o : Outcome Empty α} (none : restartsOf o.tasks = [])
    (same : ∀ p, IsSpine J.nodes p → (o.memory.phase p).told = (s.phase p).told) :
    Announces J s o where
  onSpine := by
    rw [none]
    nofun
  counted p spine := by
    rw [none, same p spine, List.count_nil, Nat.zero_add]

/-- A change of another node's phase tells no node on the spine. -/
theorem Ready.told_setPhase (ready : Ready J L s task) (lt : i < J.nodes.size)
    (other : ¬ IsSpine J.nodes i) (q : Phase) :
    ∀ p, IsSpine J.nodes p → ((s.setPhase i q).phase p).told = (s.phase p).told := by
  intro p spine
  have ne : p ≠ i := fun eq => other (eq ▸ spine)
  rw [Memory.phase_setPhase (ready.filled.sizes.1 ▸ lt), if_neg ne]

/-- The left child of a node that hands its prefix on has been told, if it is on the spine. -/
theorem Ready.announces_tellLeft {goRight : Bool} (ready : Ready J L s (.tellLeft l r goRight)) :
    Announces J s (J.plan.step s (.tellLeft l r goRight)) := by
  obtain ⟨-, p, h, -⟩ := ready.stands
  obtain ⟨-, ltL, -⟩ := Job.size_of_kids h
  have write : L.write p = handing :=
    ready.write (by simp [Task.duties, (J.isTree.order h).2.2.2.1])
  have inner := ready.fits.inner h
  have summed : news ≤ L.sum p := inner.told (by rw [write]; decide)
  have same : ∀ q, IsSpine J.nodes q → ((s.tell l).1.phase q).told = (s.phase q).told := by
    by_cases told : (s.phase l).told
    · rw [Memory.tell_of_told told]
      exact fun _ _ => rfl
    · rw [Memory.tell_of_untold told]
      refine ready.told_setPhase ltL (fun spine => told ?_) _
      refine ready.flagged.told_of_summed ready.fits spine ?_
      rw [(inner.joined.mp summed).1]
      decide
  simp only [Plan.step]
  generalize s.tell l = told at same
  obtain ⟨s', goLeft⟩ := told
  cases goLeft <;> cases goRight <;> exact .of_same rfl same

theorem Ready.announces_claimLeaf {seen : Phase} (ready : Ready J L s (.claimLeaf i seen)) :
    Announces J s (J.plan.step s (.claimLeaf i seen)) := by
  have leaf := ready.stands.1
  have other : ¬ IsSpine J.nodes i := fun spine => by
    have cut := spine.1
    simp [leaf.2] at cut
  have same := ready.told_setPhase leaf.1 other
  obtain ⟨node, at_i, -⟩ := Job.exists_node leaf.1
  simp only [Plan.step, at_i]
  by_cases unchanged : s.phase i = seen
  · rw [Memory.exchange_of_eq unchanged]
    dsimp only
    repeat' split
    all_goals exact .of_same rfl (same _)
  · rw [Memory.exchange_of_ne unchanged]
    exact .of_same rfl fun _ _ => rfl

theorem Ready.announces_leave {a : Ascent} (ready : Ready J L s (.leave a)) :
    Announces J s (J.plan.step s (.leave a)) := by
  obtain ⟨⟨gain, up, -⟩, -⟩ := ready.stands
  obtain ⟨l, r, h, -⟩ := J.isTree.kids_of_above up
  have lt : a.parent < s.phases.size := ready.filled.sizes.1 ▸ (Job.size_of_kids h).1
  by_cases unchanged : s.phase a.parent = a.seen
  · simp only [Plan.step, Memory.exchange_of_eq unchanged]
    refine .of_same rfl fun p _ => ?_
    show ((s.setPhase a.parent (a.seen.union a.gained)).phase p).told = _
    rw [Memory.phase_setPhase lt]
    split
    · next eq => simp [Phase.union, gain.untold, eq, unchanged]
    · rfl
  · simp only [Plan.step, Memory.exchange_of_ne unchanged]
    exact .of_same rfl fun _ _ => rfl

/-- Whoever tells a node on the spine to write, in marking it, is to start the writing. -/
theorem Ready.announces_mark {a : Ascent} (ready : Ready J L s (.mark a)) :
    Announces J s (J.plan.step s (.mark a)) := by
  obtain ⟨l, r, marks⟩ := ready.marks
  have lt := (Job.size_of_kids marks.below).1
  rw [marks.step rfl]
  split
  · exact .of_same rfl fun _ _ => rfl
  split
  · next unchanged =>
    split
    · next edge =>
      have spine : IsSpine J.nodes a.parent := ⟨Option.isSome_of_eq_some marks.below, edge⟩
      refine ⟨fun p mem => ?_, fun p _ => ?_⟩
      · rw [List.mem_singleton.mp mem]
        exact spine
      · have untold : (s.phase a.parent).told = false := by simpa [unchanged] using marks.seen
        show [a.parent].count p + _ = _
        rw [Outcome.on, Memory.phase_setPhase (ready.filled.sizes.1 ▸ lt), List.count_singleton]
        by_cases eq : p = a.parent
        · simp [eq, edge, untold, Phase.union]
        · simp [eq, Ne.symm eq]
    · next off => exact .of_same rfl (ready.told_setPhase lt (fun spine => off spine.2) _)
  · exact .of_same rfl fun _ _ => rfl

theorem Ready.announces (ready : Ready J L s task) : Announces J s (J.plan.step s task) := by
  cases task with
  | tellRight l r =>
    obtain ⟨p, h, -⟩ := ready.stands
    obtain ⟨-, -, -, step⟩ := ready.step_tellRight h
    rw [step]
    have off := Job.first_right_pos h
    exact .of_same rfl (ready.told_setPhase (Job.size_of_kids h).2.2 (fun spine => off spine.2) _)
  | tellLeft l r goRight => exact ready.announces_tellLeft
  | claimLeaf i seen => exact ready.announces_claimLeaf
  | leave a => exact ready.announces_leave
  | mark a => exact ready.announces_mark
  | sumLeaf j =>
    obtain ⟨x, -, step⟩ := ready.step_sumLeaf
    rw [step]
    exact .of_same rfl fun _ _ => rfl
  | writeLeaf j gained x =>
    obtain ⟨node, at_j, -⟩ := Job.exists_node ready.stands.1.1
    rw [Job.step_writeLeaf at_j]
    cases gained.summed <;> exact .of_same rfl fun _ _ => rfl
  | _ =>
    -- The others change no phase.
    simp only [Plan.step]
    repeat' split
    all_goals exact .of_same rfl fun _ _ => rfl

/-- The restarts of a run, done and due. -/
structure Restarts (J : Job α) (past : List (Task α)) (s : Memory α) (tasks : List (Task α)) :
    Prop where
  logged : s.started.toList =
    (restartsOf past).map fun p => (first J.nodes p, last J.nodes p)
  onSpine : ∀ p ∈ restartsOf tasks, IsSpine J.nodes p
  counted : ∀ p, IsSpine J.nodes p →
    (restartsOf past).count p + (restartsOf tasks).count p = (s.phase p).told.toNat
  ordered : restartsOf past <+: spine J.nodes

theorem Restarts.start (J : Job α) : Restarts J [] J.start.memory J.start.tasks where
  logged := rfl
  onSpine := nofun
  counted p _ := by
    rw [(J.unset_start p).1]
    rfl
  ordered := List.nil_prefix

/-- A falling list goes on with its greatest element that is not yet in front. -/
theorem prefix_append_of_falling {xs ys : List Nat} (falls : ys.Pairwise (· > ·))
    (front : xs <+: ys) (mem : p ∈ ys) (new : p ∉ xs) (greater : ∀ q ∈ ys, p < q → q ∈ xs) :
    xs ++ [p] <+: ys := by
  obtain ⟨rest, rfl⟩ := front
  obtain ⟨-, falls, apart⟩ := List.pairwise_append.mp falls
  cases rest with
  | nil => exact absurd (by simpa using mem) new
  | cons q rest =>
    have head : q = p := by
      by_contra ne
      have later : p ∈ rest := by
        simpa [new, Ne.symm ne] using mem
      have lt : p < q := List.rel_of_pairwise_cons falls later
      have again := greater q (by simp) lt
      exact Nat.lt_irrefl q (apart q again q List.mem_cons_self)
    exact ⟨rest, by rw [head, List.append_assoc, List.singleton_append]⟩

variable {past tasks : List (Task α)}

/-- When a node restarts, the spine below it has restarted, and it has not. -/
theorem Restarts.ordered_next (books : Restarts J past s tasks)
    (ready : ∀ task ∈ tasks, Ready J L s task) (mem : task ∈ tasks) :
    restartsOf past ++ restartsOf [task] <+: spine J.nodes := by
  cases at_p : task.restarts? with
  | none => simpa [restartsOf, at_p] using books.ordered
  | some p =>
    have due (q : Nat) (mem : q ∈ restartsOf tasks) : L.sum q = news := by
      obtain ⟨task', mem', restart⟩ := List.mem_filterMap.mp mem
      exact (ready task' mem').sum_of_restarts restart
    have mine : p ∈ restartsOf tasks := List.mem_filterMap.mpr ⟨task, mem, at_p⟩
    have spine := books.onSpine p mine
    have once := books.counted p spine
    have le := Bool.toNat_le (s.phase p).told
    have pos := List.count_pos_iff.mpr mine
    rw [show restartsOf [task] = [p] by simp [restartsOf, at_p]]
    refine prefix_append_of_falling (pairwise_spine J.nodes) books.ordered (mem_spine.mpr spine)
      (List.count_eq_zero.mp (by omega)) fun q spine' lt => ?_
    have spine' := mem_spine.mp spine'
    obtain ⟨fits, flagged, -⟩ := ready task mem
    -- A node of the spine below is reported, so its restart is not due any more.
    have chain := J.isTree.chain_of_lt spine'.lt spine.2 spine'.2 lt
    have summed : L.sum q = done :=
      (fits.done_of_chain (due p mine).ge chain).resolve_left (Nat.ne_of_gt lt)
    have told := flagged.told_of_summed fits spine' (by rw [summed]; decide)
    have counted := books.counted q spine'
    have undue : q ∉ restartsOf tasks := fun mem => by
      have := due q mem
      rw [summed] at this
      exact absurd this (by decide)
    rw [List.count_eq_zero.mpr undue, told] at counted
    exact List.count_pos_iff.mp (by rw [Nat.add_zero] at counted; rw [counted]; decide)

/-- The books go on with what came of a task. -/
theorem Restarts.after {o : Outcome Empty α} (books : Restarts J past s tasks)
    (ready : ∀ task ∈ tasks, Ready J L s task) (at_i : tasks[i]? = some task)
    (log : o.memory.started.toList =
      s.started.toList ++ (restartsOf [task]).map fun p => (first J.nodes p, last J.nodes p))
    (announces : Announces J s o) :
    Restarts J (past ++ [task]) o.memory (tasks.take i ++ o.tasks ++ tasks.drop (i + 1)) := by
  have lt := (List.getElem?_eq_some_iff.mp at_i).1
  have split : tasks = tasks.take i ++ [task] ++ tasks.drop (i + 1) := by
    rw [List.append_assoc, List.singleton_append, ← (List.getElem?_eq_some_iff.mp at_i).2,
      ← List.drop_eq_getElem_cons lt, List.take_append_drop]
  have now : restartsOf (past ++ [task]) = restartsOf past ++ restartsOf [task] :=
    List.filterMap_append
  have parts (mid : List (Task α)) : restartsOf (tasks.take i ++ mid ++ tasks.drop (i + 1)) =
      restartsOf (tasks.take i) ++ restartsOf mid ++ restartsOf (tasks.drop (i + 1)) := by
    rw [restartsOf, List.filterMap_append, List.filterMap_append]
  have before := parts [task]
  rw [← split] at before
  refine ⟨?_, fun p mem => ?_, fun p spine => ?_, ?_⟩
  · rw [log, books.logged, now, List.map_append]
  · have old := books.onSpine p
    rw [before] at old
    rw [parts] at mem
    simp only [List.mem_append] at mem old
    rcases mem with (front | new) | back
    · exact old (.inl (.inl front))
    · exact announces.onSpine p new
    · exact old (.inr back)
  · have old := books.counted p spine
    have new := announces.counted p spine
    rw [before] at old
    rw [now, parts]
    simp only [List.count_append] at old ⊢
    omega
  · rw [now]
    exact books.ordered_next ready (List.mem_of_getElem? at_i)

end

section
variable {ε α : Type} {J : Job α} {fails : Nat → Option ε} {past : List (Task α)} {k : Nat}
  {m : Machine ε α}

/-- The restarts of a run, whatever calls fail. -/
theorem Runs.restarts (run : Runs J fails past k m) : Restarts J past m.memory m.tasks := by
  induction run with
  | start => exact .start J
  | @step past k k' i m m' task before at_i stepped ih =>
    obtain ⟨L, stopped, survives, -⟩ := before.survives
    have accounts := survives.accounts
    have ready (task : Task α) (mem : task ∈ m.tasks) : Ready J L m.memory task :=
      accounts.ready (List.mem_append_left stopped mem)
    have mem := List.mem_of_getElem? at_i
    rcases Machine.runFrom_stepAt fails accounts.filled.sizes.2.2.2 at_i k with
      ok | ⟨j, e, ge, lt, -, stops⟩
    · rw [ok, Prod.mk.injEq, Except.ok.injEq] at stepped
      obtain ⟨rfl, -⟩ := stepped
      exact ih.after ready at_i (ready task mem).started_step (ready task mem).announces
    · rw [stops, Prod.mk.injEq, Except.ok.injEq] at stepped
      obtain ⟨rfl, -⟩ := stepped
      -- A restart calls nothing, so it is no restart that stops.
      have nothing : restartsOf [task] = [] := by
        cases task with
        | restart p =>
          simp only [Task.calls] at lt
          omega
        | _ => rfl
      refine ih.after (o := ⟨m.memory, [], none⟩) ready at_i ?_ (.of_same rfl fun _ _ => rfl)
      rw [nothing]
      exact (List.append_nil _).symm

/-- A scan writes down the nodes that have restarted, which start at the first position. -/
theorem Runs.started (run : Runs J fails past k m) :
    m.memory.started.toList = ((restartsOf past).map (last J.nodes)).map fun e => (0, e) := by
  rw [run.restarts.logged, List.map_map]
  refine List.map_congr_left fun p mem => ?_
  rw [(mem_spine.mp (run.restarts.ordered.subset mem)).2]
  rfl

/-- The lines of a scan tell of the nodes that have restarted. -/
theorem Runs.lines (run : Runs J fails past k m) :
    m.memory.lines = ((restartsOf past).map (last J.nodes)).map spineLine := by
  rw [Memory.lines, run.started, List.map_map]
  exact List.map_congr_left fun e _ => text_cumulating e

/-- When no task is left, and none has stopped, the whole spine has restarted. -/
theorem Runs.restarts_all (run : Runs J fails past k m) (calm : m.stop = none)
    (done : m.tasks = []) : restartsOf past = spine J.nodes := by
  obtain ⟨L, accounts⟩ := run.accounts calm
  have quiet : ∀ i, i < J.nodes.size → L.Quiet i := fun i _ => accounts.quiet done i
  have all : spine J.nodes ⊆ restartsOf past := fun p mem => by
    have spine := mem_spine.mp mem
    have summed := accounts.fits.summed_of_quiet J.isTree quiet spine.lt
    have told := accounts.flagged.told_of_summed accounts.fits spine (by rw [summed]; decide)
    have counted := run.restarts.counted p spine
    rw [done, told] at counted
    exact List.count_pos_iff.mp (by
      rw [show (restartsOf past).count p = 1 from counted]
      decide)
  have nodup : (spine J.nodes).Nodup := (pairwise_spine J.nodes).imp Nat.ne_of_gt
  exact run.restarts.ordered.eq_of_length_le (nodup.subperm all).length_le

/-- One worker alone restarts the whole spine. -/
theorem Job.started_alone (J : Job α) : J.alone.memory.started =
    ((spineEnds J.cut J.elems.size).map fun e => (0, e)).toArray := by
  obtain ⟨n, reaches, -⟩ :=
    Machine.exists_reaches_run J.plan (Machine.stepBound J.nodes.size) J.start
  obtain ⟨past, k, run⟩ := Machine.Reaches.runs reaches Empty
  have all := run.restarts_all (run.calm fun _ => rfl) (Machine.tasks_run J)
  have started : J.alone.memory.started.toList =
    ((restartsOf past).map (last J.nodes)).map fun e => (0, e) := run.started
  rw [all, J.isTree.map_last_spine] at started
  exact Array.toArray_toList.symm.trans (congrArg List.toArray started)

end

/-- Whatever calls fail, and in whatever order the tasks take their steps, the nodes on the spine
start to write one after the other, each before the one above it, and no other node does. For each
of them a line is logged as it starts, so the ends in these lines go up through those of `n`,
`n / 2`, `n / 4` and so on that exceed the threshold. Every run ends, and if no task has stopped,
all of the spine has started by the time that no task is left, each node once. In any monad, a scan
by one worker whose operator never fails notes the same. -/
theorem restarts_up_the_spine {ε α : Type} (J : Job α) (fails : Nat → Option ε)
    {past : List (Task α)} {k : Nat} {m : Machine ε α} (run : Runs J fails past k m) :
    (∀ p, p ∈ spine J.nodes ↔ (kids J.nodes p).isSome ∧ first J.nodes p = 0) ∧
    (spine J.nodes).map (last J.nodes) = spineEnds J.cut J.elems.size ∧
    (∀ e, e ∈ spineEnds J.cut J.elems.size ↔
      ∃ j, e = J.elems.size / 2 ^ j ∧ J.cut.val < e) ∧
    (spineEnds J.cut J.elems.size).Pairwise (· < ·) ∧
    restartsOf past <+: spine J.nodes ∧
    m.memory.lines <+: (spineEnds J.cut J.elems.size).map spineLine ∧
    past.length < 2 * Machine.stepBound J.nodes.size ∧
    (m.stop = none → m.tasks = [] → restartsOf past = spine J.nodes ∧
      m.memory.lines = (spineEnds J.cut J.elems.size).map spineLine) ∧
    (∀ (n : Type → Type) [Monad n] [LawfulMonad n] [Fork ε n] [Reports n],
      (∀ (β : Type) (b : β), Fork.attempt (pure b : n β) = pure (.ok b)) →
      scan (m := n) J.cut (fun x y => pure (J.op x y)) J.mode J.base J.elems =
        ((spineEnds J.cut J.elems.size).forM fun e => Reports.note (.cumulating 0 e)) >>= fun _ =>
          pure (J.alone.memory.elems, (J.alone.memory.total? 0).getD J.base)) := by
  have ends := J.isTree.map_last_spine
  have ordered := run.restarts.ordered
  refine ⟨fun p => mem_spine, ends, fun e => mem_spineEnds, pairwise_spineEnds _ _, ordered, ?_,
    run.length_lt, fun calm done => ?_, fun n _ _ _ _ attempt => ?_⟩
  · rw [run.lines, ← ends]
    exact (ordered.map _).map _
  · have all := run.restarts_all calm done
    exact ⟨all, by rw [run.lines, all, ends]⟩
  · rw [scan_pure attempt, J.started_alone, List.forM_toArray' (h := rfl)]
    exact congrArg (· >>= _) List.forM_map

/-- Four elements in four leaves: two lines, and the root starts last. A watched scan notes both. -/
theorem restarts_up_the_spine_four :
    let J : Job Nat :=
      ⟨⟨1, Nat.one_pos⟩, (· + ·), .exclusive, 0, .cells #[3, 4, 5, 6], Nat.succ_pos 3⟩
    (∃ past k m, Runs J (fun _ => (none : Option Abort)) past k m ∧ m.tasks = [] ∧
      restartsOf past = [1, 0] ∧
      m.memory.lines = ["TRACE [scan] Range 0..2 is summed, starting to cumulate",
        "TRACE [scan] Range 0..4 is summed, starting to cumulate"]) ∧
    (Watched.run' (scan (m := Watched) J.cut (fun x y => pure (J.op x y)) J.mode J.base
      J.elems)).2.notices = #[.cumulating 0 2, .cumulating 0 4] := by
  intro J
  have fresh : Runs J (fun _ => (none : Option Abort)) [] 0 (.start J.nodes.size J.elems) := .start
  obtain ⟨past, k, m, run, done⟩ := fresh.exists_end
  obtain ⟨-, -, -, -, -, -, -, all, notes⟩ := restarts_up_the_spine J _ run
  obtain ⟨restarts, lines⟩ := all (run.calm fun _ => rfl) done
  have nodes : spine J.nodes = [1, 0] := by decide +kernel
  have ends : spineEnds J.cut J.elems.size = [2, 4] := by decide +kernel
  have texts : [2, 4].map spineLine = ["TRACE [scan] Range 0..2 is summed, starting to cumulate",
    "TRACE [scan] Range 0..4 is summed, starting to cumulate"] := by decide +kernel
  rw [ends] at lines
  refine ⟨⟨_, k, m, run, done, restarts.trans nodes, lines.trans texts⟩, ?_⟩
  rw [notes Watched fun _ _ => rfl, ends]
  rfl

end Bisection.Scan
