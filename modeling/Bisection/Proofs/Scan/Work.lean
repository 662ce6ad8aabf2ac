import Bisection.Proofs.Scan.Failures

/-!
# The work of a scan

`Work` names what is to be done on a node: a leaf is summed and written, and a node that is cut
joins the totals of its children, extends its prefix by the left one, and pushes that to the right
child. The memory shows that a piece of work is done, but not at the moment it is done: a leaf is
marked before it is summed, and a total is set after it is joined. `Task.owes` is the work that the
memory shows already and a task is still to do, and `Task.did` is the work that a task has done and
the memory does not show yet. With both a step keeps the books balanced (`Ready.balance`).
-/

namespace Bisection.Scan
set_option autoImplicit false

open Stage

/-- A piece of work on a node. -/
inductive Work where
  | sum (leaf : Nat)
  | write (leaf : Nat)
  | join (node : Nat)
  | extend (node : Nat)
  | push (node : Nat)
deriving DecidableEq

/-- The right child of a node. -/
def rightOf (nodes : Array Node) (p : Nat) : Nat := ((kids nodes p).map Prod.snd).getD 0

/-- The work that there is to do: on the left edge no prefix is extended, and the leaf there is
summed as it is written. -/
def Work.Belongs (nodes : Array Node) : Work → Prop
  | sum i => IsLeaf nodes i ∧ first nodes i ≠ 0
  | write i => IsLeaf nodes i
  | join p => (kids nodes p).isSome
  | extend p => (kids nodes p).isSome ∧ first nodes p ≠ 0
  | push p => (kids nodes p).isSome

section
variable {α : Type}

/-- Whether the memory shows that a piece of work is done. -/
def Memory.shows (nodes : Array Node) (s : Memory α) : Work → Bool
  | .sum i => (s.phase i).summed
  | .write i => (s.phase i).written
  | .join p => (s.total? p).isSome
  | .extend p => (s.phase (rightOf nodes p)).told
  | .push p => (s.phase (rightOf nodes p)).told

namespace Task

/-- The work that is done in the next step of a task. -/
def work (nodes : Array Node) : Task α → List Work
  | .extend l _ _ _ => [.extend ((above nodes l).getD 0)]
  | .handRight l _ _ => [.push ((above nodes l).getD 0)]
  | .writeLeaf i _ _ => [.write i]
  | .sumLeaf i => [.sum i]
  | .joinTotals a _ _ => [.join a.parent]
  | _ => []

/-- The work that the memory shows and a task is still to do. -/
def owes : Task α → List Work
  | .readStart i _ => [.write i]
  | .writeLeaf i _ _ => [.write i]
  | .sumLeaf i => [.sum i]
  | _ => []

/-- The work that a task has done and the memory does not show yet. -/
def did (nodes : Array Node) : Task α → List Work
  | .handRight l _ _ => [.extend ((above nodes l).getD 0)]
  | .tellRight l _ => [.extend ((above nodes l).getD 0), .push ((above nodes l).getD 0)]
  | .setTotal a _ => [.join a.parent]
  | _ => []

/-- The node whose total a task is to set, having found it not set. -/
def joining? : Task α → Option Nat
  | .joinLeft a _ _ => some a.parent
  | .joinRight a _ _ => some a.parent
  | .joinTotals a _ _ => some a.parent
  | .setTotal a _ => some a.parent
  | _ => none

end Task

/-- A step keeps the books of a piece of work balanced: what is done, and what is still owed after
it, is accounted for by what the memory shows. -/
def Balanced (nodes : Array Node) (s : Memory α) (task : Task α) (o : Outcome Empty α)
    (w : Work) : Prop :=
  (task.did nodes ++ task.work nodes ++ o.tasks.flatMap Task.owes).count w +
      (s.shows nodes w).toNat =
    (task.owes ++ o.tasks.flatMap (Task.did nodes)).count w + (o.memory.shows nodes w).toNat

variable {J : Job α} {L : Ledger} {s : Memory α} {task : Task α} {i l r p : Nat} {w : Work}

/-- A step after which the memory shows some more work, which the tasks account for. -/
theorem Balanced.of_shown {nodes : Array Node} {o : Outcome Empty α} (shown : List Work)
    (lists : task.did nodes ++ task.work nodes ++ o.tasks.flatMap Task.owes =
      shown ++ (task.owes ++ o.tasks.flatMap (Task.did nodes)))
    (once : shown.Nodup)
    (now : w ∈ shown → s.shows nodes w = false ∧ o.memory.shows nodes w = true)
    (rest : w ∉ shown → o.memory.shows nodes w = s.shows nodes w) : Balanced nodes s task o w := by
  rw [Balanced, lists, List.count_append, Nat.add_comm (shown.count w), Nat.add_assoc]
  congr 1
  by_cases mem : w ∈ shown
  · obtain ⟨before, after⟩ := now mem
    rw [List.count_eq_one_of_mem once mem, before, after]
    rfl
  · rw [List.count_eq_zero_of_not_mem mem, rest mem, Nat.zero_add]

/-- A step after which the memory shows the same work. -/
theorem Balanced.of_same {nodes : Array Node} {o : Outcome Empty α}
    (lists : task.did nodes ++ task.work nodes ++ o.tasks.flatMap Task.owes =
      task.owes ++ o.tasks.flatMap (Task.did nodes))
    (shows : o.memory.shows nodes w = s.shows nodes w) : Balanced nodes s task o w :=
  .of_shown [] lists .nil nofun fun _ => shows

theorem rightOf_of_kids {nodes : Array Node} (h : kids nodes p = some (l, r)) :
    rightOf nodes p = r := by rw [rightOf, h]; rfl

theorem IsTree.parent_of_left {t : Threshold} {n : Nat} {nodes : Array Node}
    (tree : IsTree t n nodes) (h : kids nodes p = some (l, r)) :
    (above nodes l).getD 0 = p := by rw [(tree.order h).2.2.2.1]; rfl

/-- A new phase of a node shows no other work, if it has the same flags where they show any. -/
theorem Memory.shows_setPhase (lt : i < s.phases.size) (belongs : w.Belongs J.nodes) {q : Phase}
    (sum : w = .sum i → q.summed = (s.phase i).summed)
    (write : w = .write i → q.written = (s.phase i).written)
    (right : ∀ p l, kids J.nodes p = some (l, i) → w = .extend p ∨ w = .push p →
      q.told = (s.phase i).told) :
    (s.setPhase i q).shows J.nodes w = s.shows J.nodes w := by
  have phase := Memory.phase_setPhase lt q
  have told {p : Nat} (inner : (kids J.nodes p).isSome) (here : w = .extend p ∨ w = .push p) :
      ((s.setPhase i q).phase (rightOf J.nodes p)).told = (s.phase (rightOf J.nodes p)).told := by
    obtain ⟨⟨l, r⟩, h⟩ := Option.isSome_iff_exists.mp inner
    rw [rightOf_of_kids h, phase]
    split
    · next eq =>
      subst eq
      exact right p l h here
    · rfl
  cases w with
  | sum j =>
    show ((s.setPhase i q).phase j).summed = (s.phase j).summed
    rw [phase]
    split
    · next eq => exact eq ▸ sum (eq ▸ rfl)
    · rfl
  | write j =>
    show ((s.setPhase i q).phase j).written = (s.phase j).written
    rw [phase]
    split
    · next eq => exact eq ▸ write (eq ▸ rfl)
    · rfl
  | join p => rfl
  | extend p => exact told belongs.1 (.inl rfl)
  | push p => exact told belongs (.inr rfl)

/-- No work on a leaf belongs to a node that is cut. -/
theorem Work.Belongs.not_leaf (belongs : w.Belongs J.nodes) (h : kids J.nodes p = some (l, r)) :
    w ≠ .sum p ∧ w ≠ .write p := by
  constructor
  · rintro rfl
    exact IsTree.not_isLeaf h belongs.1
  · rintro rfl
    exact IsTree.not_isLeaf h belongs

/-- The total of a leaf shows no work. -/
theorem Memory.shows_setTotal_leaf (lt : i < s.totals.size) (leaf : IsLeaf J.nodes i) (x : α)
    (belongs : w.Belongs J.nodes) : (s.setTotal i x).shows J.nodes w = s.shows J.nodes w := by
  cases w with
  | join p =>
    have inner : (kids J.nodes p).isSome := belongs
    have ne : p ≠ i := by
      rintro rfl
      rw [leaf.2] at inner
      cases inner
    show ((s.setTotal i x).total? p).isSome = (s.total? p).isSome
    rw [Memory.total?_setTotal lt, if_neg ne]
  | _ => rfl

theorem Ready.balance_readLeftTotal (ready : Ready J L s (.readLeftTotal p l r))
    (belongs : w.Belongs J.nodes) :
    Balanced J.nodes s (.readLeftTotal p l r) (J.plan.step s (.readLeftTotal p l r)) w := by
  have h : kids J.nodes p = some (l, r) := ready.stands
  obtain ⟨node, at_p, lo, -⟩ := Job.exists_node (Job.size_of_kids h).1
  simp only [Plan.step, at_p]
  cases s.total? l with
  | none => exact .of_same rfl rfl
  | some x =>
    dsimp only
    split
    · next edge =>
      -- On the left edge no prefix is extended, so handing one on leaves no work behind.
      have other : w ≠ .extend p := by
        rintro rfl
        exact belongs.2 (lo ▸ edge)
      simp [Balanced, pure, Outcome.on, Task.work, Task.owes, Task.did,
        J.isTree.parent_of_left h, other.symm]
    · exact .of_same rfl rfl

/-- A right child is told to write. This shows that its parent's prefix is extended and pushed. -/
theorem Ready.balance_tellRight (ready : Ready J L s (.tellRight l r))
    (belongs : w.Belongs J.nodes) :
    Balanced J.nodes s (.tellRight l r) (J.plan.step s (.tellRight l r)) w := by
  obtain ⟨p, h, -⟩ := ready.stands
  have parent := J.isTree.parent_of_left h
  have lt : r < s.phases.size := ready.filled.sizes.1 ▸ (Job.size_of_kids h).2.2
  obtain ⟨-, -, fresh, step⟩ := ready.step_tellRight h
  have phase := Memory.phase_setPhase lt ((s.phase r).union { told := true })
  have told : ((s.setPhase r ((s.phase r).union { told := true })).phase r).told := by
    rw [phase, if_pos rfl]
    exact Bool.or_true _
  rw [step]
  refine .of_shown [.extend p, .push p] (by simp [Task.did, Task.work, parent]; rfl)
    (by simp) (fun mem => ?_) (fun other => ?_)
  · simp only [List.mem_cons, List.not_mem_nil, or_false] at mem
    rcases mem with rfl | rfl
    · simp only [Memory.shows, rightOf_of_kids h]
      exact ⟨Bool.not_eq_true _ ▸ fresh, told⟩
    · simp only [Memory.shows, rightOf_of_kids h]
      exact ⟨Bool.not_eq_true _ ▸ fresh, told⟩
  · simp only [List.mem_cons, List.not_mem_nil, or_false, not_or] at other
    refine Memory.shows_setPhase lt belongs (fun _ => ?_) (fun _ => ?_) (fun p' l' h' here => ?_)
    · simp [Phase.union]
    · simp [Phase.union]
    · have order := J.isTree.order h
      have order' := J.isTree.order h'
      obtain rfl : p' = p := by grind
      exact absurd here (not_or.mpr other)

theorem Ready.balance_tellLeft {goRight : Bool} (ready : Ready J L s (.tellLeft l r goRight))
    (belongs : w.Belongs J.nodes) :
    Balanced J.nodes s (.tellLeft l r goRight) (J.plan.step s (.tellLeft l r goRight)) w := by
  obtain ⟨-, p, h, -⟩ := ready.stands
  have ltL := (Job.size_of_kids h).2.1
  have lt : l < s.phases.size := ready.filled.sizes.1 ▸ ltL
  have same : (s.tell l).1.shows J.nodes w = s.shows J.nodes w := by
    by_cases told : (s.phase l).told
    · rw [Memory.tell_of_told told]
    · rw [Memory.tell_of_untold told]
      refine Memory.shows_setPhase lt belongs (fun _ => ?_) (fun _ => ?_) (fun p' l' h' _ => ?_)
      · simp [Phase.union]
      · simp [Phase.union]
      · have order := J.isTree.order h
        have order' := J.isTree.order h'
        grind
  simp only [Plan.step]
  generalize s.tell l = told at same
  obtain ⟨s', goLeft⟩ := told
  cases goLeft <;> cases goRight <;> exact .of_same rfl same

/-- A claim shows that the leaf is summed or written. Whoever has claimed it owes that work. -/
theorem Ready.balance_claimLeaf {seen : Phase} (ready : Ready J L s (.claimLeaf i seen))
    (belongs : w.Belongs J.nodes) :
    Balanced J.nodes s (.claimLeaf i seen) (J.plan.step s (.claimLeaf i seen)) w := by
  have leaf := ready.stands.1
  have lt : i < s.phases.size := ready.filled.sizes.1 ▸ leaf.1
  by_cases told : seen.told
  · obtain ⟨rfl, phase, off, step⟩ := ready.step_claimLeaf_told told
    rw [step]
    refine .of_shown [.write i] rfl (by simp) (fun mem => ?_) (fun other => ?_)
    · rw [List.mem_singleton.mp mem]
      simp [Memory.shows, Outcome.on, Memory.phase_setPhase lt, phase]
    · refine Memory.shows_setPhase lt belongs (fun _ => ?_) (fun here => ?_) (fun _ _ _ _ => ?_)
      · rw [phase]
      · exact absurd (List.mem_singleton.mpr here) other
      · rw [phase]
  · obtain ⟨rfl, phase, -, step⟩ := ready.step_claimLeaf_untold told
    rw [step]
    by_cases edge : first J.nodes i = 0
    · rw [if_pos edge]
      refine .of_shown [.write i] rfl (by simp) (fun mem => ?_) (fun other => ?_)
      · rw [List.mem_singleton.mp mem]
        simp [Memory.shows, Outcome.on, Memory.phase_setPhase lt, phase]
      · refine Memory.shows_setPhase lt belongs (fun here => ?_) (fun here => ?_)
          (fun _ _ _ _ => ?_)
        · subst here
          exact absurd edge belongs.2
        · exact absurd (List.mem_singleton.mpr here) other
        · rw [phase]
    · rw [if_neg edge]
      refine .of_shown [.sum i] rfl (by simp) (fun mem => ?_) (fun other => ?_)
      · rw [List.mem_singleton.mp mem]
        simp [Memory.shows, Outcome.on, Memory.phase_setPhase lt, phase]
      · refine Memory.shows_setPhase lt belongs (fun here => ?_) (fun _ => ?_)
          (fun _ _ _ _ => ?_)
        · exact absurd (List.mem_singleton.mpr here) other
        · rw [phase]
        · rw [phase]

theorem Ready.balance_leave {a : Ascent} (ready : Ready J L s (.leave a))
    (belongs : w.Belongs J.nodes) :
    Balanced J.nodes s (.leave a) (J.plan.step s (.leave a)) w := by
  obtain ⟨⟨gain, up, -⟩, -⟩ := ready.stands
  obtain ⟨l, r, h, -⟩ := J.isTree.kids_of_above up
  have lt : a.parent < s.phases.size := ready.filled.sizes.1 ▸ (Job.size_of_kids h).1
  by_cases same : s.phase a.parent = a.seen
  · simp only [Plan.step, Memory.exchange_of_eq same]
    refine .of_same rfl (Memory.shows_setPhase lt belongs ?_ ?_ (fun _ _ _ _ => ?_))
    · exact fun here => absurd here (belongs.not_leaf h).1
    · exact fun here => absurd here (belongs.not_leaf h).2
    · simp [Phase.union, gain.untold, same]
  · simp only [Plan.step, Memory.exchange_of_ne same]
    exact .of_same rfl rfl

/-- The total of a node that is cut is set. This shows that the totals of its children are
joined. -/
theorem Ready.balance_setTotal {a : Ascent} {x : α} (ready : Ready J L s (.setTotal a x))
    (fresh : s.total? a.parent = none) :
    Balanced J.nodes s (.setTotal a x) (J.plan.step s (.setTotal a x)) w := by
  obtain ⟨l, r, h, -⟩ := J.isTree.kids_of_above ready.stands.1.onWay.parent
  have lt : a.parent < s.totals.size := ready.filled.sizes.2.2.1 ▸ (Job.size_of_kids h).1
  have total := Memory.total?_setTotal lt x
  refine .of_shown [.join a.parent] rfl (by simp) (fun mem => ?_) (fun other => ?_)
  · rw [List.mem_singleton.mp mem]
    show (s.total? a.parent).isSome = false ∧ ((s.setTotal a.parent x).total? a.parent).isSome
    rw [total, if_pos rfl, fresh]
    exact ⟨rfl, rfl⟩
  · cases w with
    | join p =>
      have ne : p ≠ a.parent := by simpa using other
      show ((s.setTotal a.parent x).total? p).isSome = (s.total? p).isSome
      rw [total, if_neg ne]
    | _ => rfl

theorem Ready.balance_mark {a : Ascent} (ready : Ready J L s (.mark a))
    (belongs : w.Belongs J.nodes) :
    Balanced J.nodes s (.mark a) (J.plan.step s (.mark a)) w := by
  obtain ⟨l, r, marks⟩ := ready.marks
  have lt : a.parent < s.phases.size :=
    ready.filled.sizes.1 ▸ (Job.size_of_kids marks.below).1
  rw [marks.step rfl]
  split
  · exact .of_same rfl rfl
  · split
    · next same =>
      have shows : (s.setPhase a.parent ((a.seen.union a.gained).union
          { told := first J.nodes a.parent = 0 })).shows J.nodes w = s.shows J.nodes w := by
        refine Memory.shows_setPhase lt belongs ?_ ?_ (fun p l' h _ => ?_)
        · exact fun here => absurd here (belongs.not_leaf marks.below).1
        · exact fun here => absurd here (belongs.not_leaf marks.below).2
        · have off := Job.first_right_pos h
          simp [Phase.union, ready.stands.1.onWay.gain.untold, same, off]
      split
      · exact .of_same rfl shows
      · exact .of_same rfl shows
    · exact .of_same rfl rfl

theorem Ready.balance (ready : Ready J L s task) (belongs : w.Belongs J.nodes)
    (fresh : ∀ p, task.joining? = some p → s.total? p = none) :
    Balanced J.nodes s task (J.plan.step s task) w := by
  cases task with
  | readLeftTotal p l r => exact ready.balance_readLeftTotal belongs
  | tellRight l r => exact ready.balance_tellRight belongs
  | tellLeft l r goRight => exact ready.balance_tellLeft belongs
  | claimLeaf i seen => exact ready.balance_claimLeaf belongs
  | readStart i gained =>
    obtain ⟨leaf, off, rfl⟩ := ready.stands
    have write : L.write i = busy := ready.write (by simp [Task.duties])
    have set := ready.filled.told leaf.1 off (by grind)
    simp only [Plan.step, set]
    exact .of_same rfl rfl
  | writeLeaf i gained x =>
    obtain ⟨node, at_i, -⟩ := Job.exists_node ready.stands.1.1
    rw [Job.step_writeLeaf at_i]
    cases gained.summed
    · exact .of_same rfl rfl
    · exact .of_same rfl rfl
  | sumLeaf i =>
    obtain ⟨x, -, step⟩ := ready.step_sumLeaf
    rw [step]
    exact .of_same rfl rfl
  | setLeafTotal i gained x =>
    have lt : i < s.totals.size := ready.filled.sizes.2.2.1 ▸ ready.stands.1.1
    exact .of_same rfl (Memory.shows_setTotal_leaf lt ready.stands.1 x belongs)
  | leave a => exact ready.balance_leave belongs
  | setTotal a x => exact ready.balance_setTotal (fresh a.parent rfl)
  | mark a => exact ready.balance_mark belongs
  | _ =>
    simp only [Plan.step]
    repeat' split
    all_goals exact .of_same rfl rfl

/-- The work of a task is work that there is to do. -/
theorem Task.Stands.work (stands : task.Stands J s) (mem : w ∈ task.work J.nodes) :
    w.Belongs J.nodes := by
  cases task with
  | extend l r b x =>
    obtain ⟨p, h, -, off, -⟩ := stands
    rw [Task.work, J.isTree.parent_of_left h, List.mem_singleton] at mem
    subst mem
    exact ⟨Option.isSome_of_eq_some h, off⟩
  | handRight l r y =>
    obtain ⟨p, h, -⟩ := stands
    rw [Task.work, J.isTree.parent_of_left h, List.mem_singleton] at mem
    subst mem
    exact Option.isSome_of_eq_some h
  | writeLeaf i gained x =>
    rw [List.mem_singleton.mp mem]
    exact stands.1
  | sumLeaf i =>
    rw [List.mem_singleton.mp mem]
    exact stands
  | joinTotals a x y =>
    obtain ⟨l, r, h, -⟩ := J.isTree.kids_of_above stands.1.onWay.parent
    rw [List.mem_singleton.mp mem]
    exact Option.isSome_of_eq_some h
  | _ => cases mem

/-- Whoever goes on to set a total has found it not set. -/
theorem Ready.joining_fresh (ready : Ready J L s task)
    (fresh : ∀ p, task.joining? = some p → s.total? p = none) :
    ∀ task' ∈ (J.plan.step s task).tasks, ∀ p, task'.joining? = some p →
      (J.plan.step s task).memory.total? p = none := by
  cases task with
  | lookTotal a =>
    simp only [Plan.step]
    cases unset : s.total? a.parent with
    | some x => simp [pure, Outcome.on, Task.joining?]
    | none =>
      dsimp only
      split
      · simp [pure, Outcome.faulty]
      · simpa [pure, Outcome.on, Task.joining?] using unset
  | joinLeft a l r =>
    have unset := fresh a.parent rfl
    simp only [Plan.step]
    split
    · simp [pure, Outcome.faulty]
    · simpa [pure, Outcome.on, Task.joining?] using unset
  | joinRight a r x =>
    have unset := fresh a.parent rfl
    simp only [Plan.step]
    split
    · simp [pure, Outcome.faulty]
    · simpa [pure, Outcome.on, Task.joining?] using unset
  | joinTotals a x y =>
    have unset := fresh a.parent rfl
    simpa [Job.step_joinTotals, Outcome.on, Task.joining?] using unset
  | extend l r b x => simp [Job.step_extend, Outcome.on, Task.joining?]
  | sumLeaf i =>
    obtain ⟨x, -, step⟩ := ready.step_sumLeaf
    simp [step, Outcome.on, Task.joining?]
  | writeLeaf i gained x =>
    obtain ⟨node, at_i, -⟩ := Job.exists_node ready.stands.1.1
    rw [Job.step_writeLeaf at_i]
    cases gained.summed <;> simp [Outcome.on, Task.joining?]
  | _ =>
    simp only [Plan.step]
    repeat' split
    all_goals simp [pure, Outcome.on, Outcome.faulty, Task.joining?]

/-- The total of a node that is cut is set by one that was to set it. -/
theorem Ready.total?_step (ready : Ready J L s task) (inner : (kids J.nodes p).isSome)
    (other : task.joining? ≠ some p) : (J.plan.step s task).memory.total? p = s.total? p := by
  cases task with
  | setLeafTotal i gained x =>
    have leaf := ready.stands.1
    have lt : i < s.totals.size := ready.filled.sizes.2.2.1 ▸ leaf.1
    have ne : p ≠ i := by
      rintro rfl
      rw [leaf.2] at inner
      cases inner
    show (s.setTotal i x).total? p = s.total? p
    rw [Memory.total?_setTotal lt, if_neg ne]
  | setTotal a x =>
    obtain ⟨l, r, h, -⟩ := J.isTree.kids_of_above ready.stands.1.onWay.parent
    have lt : a.parent < s.totals.size := ready.filled.sizes.2.2.1 ▸ (Job.size_of_kids h).1
    have ne : p ≠ a.parent := fun eq => other (congrArg some eq.symm)
    show (s.setTotal a.parent x).total? p = s.total? p
    rw [Memory.total?_setTotal lt, if_neg ne]
  | sumLeaf i =>
    obtain ⟨x, -, step⟩ := ready.step_sumLeaf
    rw [step]
    rfl
  | writeLeaf i gained x =>
    obtain ⟨node, at_i, -⟩ := Job.exists_node ready.stands.1.1
    rw [Job.step_writeLeaf at_i]
    rfl
  | _ =>
    -- The others write no total.
    simp only [Plan.step, Memory.tell, Memory.exchange]
    repeat' split
    all_goals rfl

end

end Bisection.Scan
