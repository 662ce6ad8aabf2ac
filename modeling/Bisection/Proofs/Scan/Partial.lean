import Bisection.Proofs.Agreement.Endings
import Bisection.Proofs.Alone.Scanning
import Bisection.Proofs.Scan.Bracketing
import Bisection.Proofs.Scan.Unfailing

/-!
# Operators that do not serve all operands

An operator may fail for some operands, as a sum does that is too large for its type. A scan never
asks for more than the values of neighbouring elements: each operand is a bracketing of elements,
and those of the right one follow those of the left one. So it is enough that the operator serves
along the base value and the elements (`Likeness.Along`). For the two totals of a join this is no
property of the values in memory, but of where the task that joins them has read them, which is an
invariant of its own (`Task.Halves`).
-/

namespace Bisection
set_option autoImplicit false

/-! ## Computations that come to a value -/

section
variable {α β γ : Type} {m : Type → Type} [Monad m] [LawfulMonad m]

/-- A computation comes to a value, as a plain computation does that gives nothing. -/
def Likeness.ComesTo (ρ : Likeness m Id) (x : m β) (v : β) : Prop :=
  ρ.Rel (fun b (_ : Unit) => b = v) x (Pure.pure ())

/-- An operator does what a plain function does where elements are combined in their order, whatever
the brackets. -/
def Likeness.Along (ρ : Likeness m Id) (f : α → α → m α) (op : α → α → α) (xs : List α) : Prop :=
  ∀ ys zs x y, ys ++ zs <:+: xs → Scan.Bracketing op ys x → Scan.Bracketing op zs y →
    ρ.ComesTo (f x y) (op x y)

namespace Likeness
variable {ρ : Likeness m Id}

theorem ComesTo.pure (v : β) : ρ.ComesTo (Pure.pure v) v := ρ.pure rfl

theorem ComesTo.bind {x : m β} {v : β} {f : β → m γ} {u : γ} (first : ρ.ComesTo x v)
    (next : ρ.ComesTo (f v) u) : ρ.ComesTo (x >>= f) u := by
  refine ρ.bind (g := fun _ => Pure.pure ()) first fun b _ eq => ?_
  subst eq
  exact next

theorem ComesTo.map {x : m β} {v : β} (comes : ρ.ComesTo x v) (f : β → γ) :
    ρ.ComesTo (f <$> x) (f v) := by
  rw [← bind_pure_comp]
  exact comes.bind (.pure (f v))

theorem ComesTo.rel {R : β → γ → Prop} {x : m β} {v : β} {u : γ} (comes : ρ.ComesTo x v)
    (related : R v u) : ρ.Rel R x u := by
  have rel := Rel.map (S := R) (f := id) (g := fun _ => u) comes fun b _ eq => eq ▸ related
  rwa [id_map] at rel

theorem ComesTo.same {x : m β} {v : β} (comes : ρ.ComesTo x v) : ρ.Same x v :=
  comes.rel rfl

namespace Along
variable {f : α → α → m α} {op : α → α → α} {xs ys front : List α}

theorem of_inside (along : ρ.Along f op xs) (inside : ys <:+: xs) : ρ.Along f op ys :=
  fun _ _ _ _ here => along _ _ _ _ (here.trans inside)

/-- A loop that carries the total of what is before the next element. -/
theorem foldlM (along : ρ.Along f op (front ++ xs)) (carries : β → α → Prop) {g : β → α → m β}
    {h : β → α → Id β}
    (round : ∀ b total x, carries b total → ρ.ComesTo (f total x) (op total x) →
      ρ.ComesTo (g b x) (h b x) ∧ carries (h b x) (op total x))
    {b : β} {total : α} (start : carries b total) (brackets : Scan.Bracketing op front total) :
    ρ.ComesTo (xs.foldlM g b) (xs.foldlM h b) := by
  induction xs generalizing front b total with
  | nil => exact .pure b
  | cons x xs ih =>
    have call : ρ.ComesTo (f total x) (op total x) :=
      along front [x] total x (List.infix_append' [] _ xs |>.trans (by simp)) brackets (.single x)
    obtain ⟨comes, next⟩ := round b total x start call
    rw [List.foldlM_cons, List.foldlM_cons]
    refine comes.bind (ih ?_ next (brackets.combine (.single x)))
    rwa [List.append_assoc, List.singleton_append]

/-- The loop that sums a leaf. -/
theorem reduceM {s : Store α} (along : ρ.Along f op s.toList) :
    ρ.ComesTo (s.reduceM f) (s.reduceM (m := Id) op) := by
  rw [Store.reduceM, Store.reduceM, Store.foldlM_eq_foldlM_toList, Store.foldlM_eq_foldlM_toList]
  generalize s.toList = xs at along
  cases xs with
  | nil => exact .pure none
  | cons x xs =>
    rw [List.foldlM_cons, List.foldlM_cons]
    refine (ComesTo.pure (some x)).bind ?_
    have along : ρ.Along f op ([x] ++ xs) := along
    refine along.foldlM (fun b total => b = some total) ?_ rfl (.single x)
    rintro _ total y rfl call
    exact ⟨call.map some, rfl⟩

/-- The loop that writes a leaf. -/
theorem runningTotals {s : Store α} {start : α} (along : ρ.Along f op (front ++ s.toList))
    (brackets : Scan.Bracketing op front start) (mode : Scan.Mode) :
    ρ.ComesTo (Scan.runningTotals f mode start s)
      (Scan.runningTotals (m := Id) op mode start s) := by
  rw [Scan.runningTotals, Scan.runningTotals, Store.foldlM_eq_foldlM_toList,
    Store.foldlM_eq_foldlM_toList]
  refine along.foldlM (fun p total => p.2 = total) ?_ rfl brackets
  rintro ⟨out, _⟩ total x rfl call
  exact ⟨call.bind (.pure _), rfl⟩

end Along

end Likeness

end

namespace Tracking
variable {ε β γ : Type} {m : Type → Type} [Monad m] [LawfulMonad m] [Fork ε m] [Reports m] {d : Nat}
  {T : Tracking d m Id}

theorem comesTo_join {x : m β} {y : m γ} {v : β} {u : γ} (left : T.ComesTo x v)
    (right : T.ComesTo y u) : T.ComesTo (Fork.join x y) (v, u) := by
  have rel := (T.join left right).map (S := fun p (_ : Unit) => p = (v, u)) (f := id)
    (g := fun _ => ()) fun p _ related => Prod.ext related.1 related.2
  rwa [id_map] at rel

theorem comesTo_note (n : Notice) : T.ComesTo (Reports.note (n.moved d)) () :=
  (T.note n).mono fun _ _ _ => rfl

end Tracking

namespace Scan
open Stage

variable {α : Type} {J : Job α} {i l r p : Nat} {x y : α}

/-! ## What is combined in a scan -/

namespace Job

/-- The elements whose total a node is to have, with the base value on the left edge. -/
def summed (J : Job α) (i : Nat) : List α :=
  if first J.nodes i = 0 then J.base :: J.part i else J.part i

theorem brackets_total (total : J.total i = some x) : Bracketing J.op (J.summed i) x := by
  rw [Job.total] at total
  rw [summed]
  split
  · next edge =>
    rw [if_pos edge, Option.some.injEq] at total
    exact total ▸ (Bracketing.single J.base).edgeTotal (J.part i)
  · next off =>
    rw [if_neg off] at total
    exact .innerTotal total

/-- The elements before a node, and those of its part. -/
theorem take_append_part (lt : i < J.nodes.size) :
    J.elems.toList.take (first J.nodes i) ++ J.part i = J.elems.toList.take (last J.nodes i) := by
  have front := List.take_take (i := first J.nodes i) (j := last J.nodes i) (l := J.elems.toList)
  rw [Nat.min_eq_left (Nat.le_of_lt (J.isTree.range lt).1)] at front
  rw [part, ← front, List.take_append_drop]

/-- The prefix of a node brackets the base value and all that is before the node. -/
theorem brackets_before (lt : i < J.nodes.size) :
    Bracketing J.op (J.base :: J.elems.toList.take (first J.nodes i)) (J.before i) := by
  induction i using Nat.strongRecOn with
  | ind i ih =>
    cases up : above J.nodes i with
    | none =>
      obtain rfl := J.isTree.eq_root lt up
      rw [before_root, J.isTree.root.2.2.1]
      exact .single J.base
    | some p =>
      obtain ⟨l, r, below, side⟩ := J.isTree.kids_of_above up
      obtain ⟨ltP, ltL, -⟩ := size_of_kids below
      obtain ⟨-, firstLeft, lastLeft, -⟩ := J.isTree.cut below
      have parent := ih p (by have := J.isTree.order below; omega) ltP
      rcases side with rfl | rfl
      · rwa [before_left below, firstLeft]
      · have whole := parent.rightPrefix (t := J.cut) (first J.nodes p = 0) (J.part l)
        rw [List.cons_append, ← firstLeft, take_append_part ltL, lastLeft] at whole
        rwa [before_right below, ← firstLeft]

theorem take_inside (k : Nat) : J.base :: J.elems.toList.take k <:+: J.base :: J.elems.toList :=
  (List.cons_prefix_cons.mpr ⟨rfl, List.take_prefix k _⟩).isInfix

theorem part_inside (i : Nat) : J.part i <:+: J.base :: J.elems.toList :=
  ((List.drop_suffix _ _).isInfix.trans (List.take_prefix _ _).isInfix).trans
    (List.suffix_cons _ _).isInfix

/-- What the totals of two children combine are elements in a row. -/
theorem summed_append_inside (below : kids J.nodes p = some (l, r)) :
    J.summed l ++ J.summed r <:+: J.base :: J.elems.toList := by
  obtain ⟨partLeft, partRight, -⟩ := part_of_kids below
  have parts : J.part l ++ J.part r = J.part p := by
    rw [← partLeft, ← partRight, List.take_append_drop]
  rw [summed, summed, if_neg (first_right_pos below), (J.isTree.cut below).2.1]
  split
  · next edge =>
    rw [List.cons_append, parts, part, edge, List.drop_zero]
    exact J.take_inside _
  · rw [parts]
    exact J.part_inside p

end Job

/-- The totals that a task is about to join are those of the two children. -/
def Task.Halves (J : Job α) : Task α → Prop
  | .joinTotals a x y => ∃ l r, kids J.nodes a.parent = some (l, r) ∧ J.total l = some x ∧
      J.total r = some y
  | _ => True

section
variable {L : Ledger} {s : Memory α} {task : Task α}

/-- A task that has read both totals has found those of the children. -/
theorem Ready.halves (ready : Ready J L s task) :
    ∀ task' ∈ (J.plan.step s task).tasks, task'.Halves J := by
  cases task with
  | joinRight a r x =>
    obtain ⟨joins, l, below, left⟩ := ready.stands
    obtain ⟨y, right⟩ := Option.isSome_iff_exists.mp (Job.isSome_total (Job.size_of_kids below).2.2)
    have set := (ready.totals_of_joins joins rfl below).2.2.2.2
    simp only [Plan.step, set, right]
    simpa [pure, Outcome.on, Task.Halves] using ⟨l, r, below, left, right⟩
  | sumLeaf i =>
    obtain ⟨x, -, step⟩ := ready.step_sumLeaf
    simp [step, Outcome.on, Task.Halves]
  | writeLeaf i gained x =>
    obtain ⟨node, at_i, -⟩ := Job.exists_node ready.stands.1.1
    rw [Job.step_writeLeaf at_i]
    cases gained.summed <;> simp [Outcome.on, Task.Halves]
  | extend l r b x => simp [Job.step_extend, Outcome.on, Task.Halves]
  | joinTotals a x y => simp [Job.step_joinTotals, Outcome.on, Task.Halves]
  | _ =>
    -- No other task goes on to join totals.
    simp only [Plan.step]
    repeat' split
    all_goals simp [pure, Outcome.on, Outcome.faulty, Task.Halves]

end

/-! ## Steps of a scan -/

section
variable {ε : Type} {m : Type → Type} [Monad m] [LawfulMonad m] [Fork ε m] [Reports m] {d : Nat}
  {T : Tracking d m Id} {f : α → α → m α} {L : Ledger} {s : Memory α} {task : Task α}

/-- The scan of a job with another operator. -/
def Job.planBy (J : Job α) (f : α → α → m α) : Plan m α := ⟨J.nodes, f, J.base, J.mode⟩

/-- A step that calls the operator where it serves. -/
theorem Ready.along_step (ready : Ready J L s task) (halves : task.Halves J)
    (along : T.Along f J.op (J.base :: J.elems.toList)) :
    T.Rel (SameOutcome T s.elems.size) ((J.planBy f).step s task) (J.plan.step s task) := by
  -- Most steps do not depend on the operator.
  have plain : T.Rel (SameOutcome T s.elems.size)
      ((J.planBy fun x y => pure (J.op x y)).step s task) (J.plan.step s task) :=
    Plan.sameOutcome_step (fun _ _ => T.pure rfl) s task
  cases task with
  | extend l r b x =>
    obtain ⟨p, below, left, off, rfl, -⟩ := ready.stands
    obtain ⟨ltP, ltL, -⟩ := Job.size_of_kids below
    have firstLeft := (J.isTree.cut below).2.1
    have total := Job.brackets_total left
    rw [Job.summed, firstLeft, if_neg off] at total
    have inside : J.base :: J.elems.toList.take (first J.nodes p) ++ J.part l <:+:
        J.base :: J.elems.toList := by
      rw [List.cons_append, ← firstLeft, Job.take_append_part ltL]
      exact J.take_inside _
    have call := along _ _ _ _ inside (Job.brackets_before ltP) total
    rw [Plan.step, Plan.step]
    refine sameOutcome_ofCall call.same fun y => ?_
    exact ⟨rfl, rfl, rfl, .none⟩
  | joinTotals a x y =>
    obtain ⟨l, r, below, left, right⟩ := halves
    have call := along _ _ _ _ (Job.summed_append_inside below) (Job.brackets_total left)
      (Job.brackets_total right)
    rw [Plan.step, Plan.step]
    refine sameOutcome_ofCall call.same fun z => ?_
    exact ⟨rfl, rfl, rfl, .none⟩
  | sumLeaf i =>
    obtain ⟨leaf, off⟩ := ready.stands
    obtain ⟨node, at_i, lo, hi, -⟩ := Job.exists_node leaf.1
    have unwritten : L.write i < news := by
      rw [ready.write_sumLeaf]
      decide
    have elems := ready.leafElems leaf unwritten lo hi
    have inside : (Plan.leafElems s node).toList <:+: J.base :: J.elems.toList := by
      rw [elems]
      exact J.part_inside i
    have call := (along.of_inside inside).reduceM
    have at_i' : (J.planBy f).nodes[i]? = some node := at_i
    simp only [Plan.step, at_i, at_i']
    refine sameOutcome_ofCall call.same fun total => ?_
    cases total with
    | none => exact ⟨rfl, rfl, rfl, .fault _⟩
    | some total => exact ⟨rfl, rfl, rfl, .none⟩
  | writeLeaf i gained x =>
    obtain ⟨leaf, rfl, -⟩ := ready.stands
    obtain ⟨node, at_i, lo, hi, -⟩ := Job.exists_node leaf.1
    have write : L.write i = busy := ready.write (by simp [Task.duties])
    have elems := ready.leafElems leaf (by rw [write]; decide) lo hi
    have inside : J.base :: J.elems.toList.take (first J.nodes i) ++
        (Plan.leafElems s node).toList <:+: J.base :: J.elems.toList := by
      rw [elems, List.cons_append, Job.take_append_part leaf.1]
      exact J.take_inside _
    have call := (along.of_inside inside).runningTotals (Job.brackets_before leaf.1) J.mode
    have at_i' : (J.planBy f).nodes[i]? = some node := at_i
    simp only [Plan.step, at_i, at_i']
    exact sameOutcome_ofCall call.same fun _ => ⟨rfl, rfl, Store.size_overwrite _ _ _, .none⟩
  | _ => exact plain

theorem SameStop.eq_lift {stop : Option (Stop ε)} {stop' : Option (Stop Empty)}
    (same : SameStop T stop stop') : stop = stop'.map Stop.lift := by
  cases same with
  | none => rfl
  | fault f => rfl
  | @raised _ e' _ => exact nomatch e'

/-- A step of any task, in a scan whose operator serves. -/
theorem Accounts.along_stepAt {now : Machine Empty α} (accounts : Accounts J L now)
    (halves : ∀ task ∈ now.tasks, task.Halves J)
    (along : T.Along f J.op (J.base :: J.elems.toList)) (lt : i < now.tasks.length) :
    T.Rel (fun next next' => next = next'.lift)
      ((now.lift : Machine ε α).stepAt (J.planBy f) i) (now.stepAt J.plan i) := by
  have at_i : now.tasks[i]? = some now.tasks[i] := List.getElem?_eq_getElem lt
  have mem := List.getElem_mem lt
  simp only [Machine.stepAt, Machine.lift, at_i]
  refine ((accounts.ready mem).along_step (halves _ mem) along).map fun o o' same => ?_
  simp only [Machine.after, same.memory, same.tasks, same.stop.eq_lift,
    Machine.mk.injEq, true_and]
  cases now.stop <;> rfl

end

/-- No task of a scan joins other totals than those of two children. -/
theorem Machine.Reaches.halves {n : Nat} {now : Machine Empty α}
    (run : Reaches J.plan n J.start now) : ∀ task ∈ now.tasks, task.Halves J := by
  generalize start : J.start = first at run
  induction run with
  | refl _ =>
    subst start
    intro task mem
    rw [List.mem_singleton.mp mem]
    trivial
  | @step n i _ now before lt ih =>
    subst start
    obtain ⟨L, accounts, -⟩ := before.accounts (.start J)
    intro task mem
    rw [stepAt_of_lt J.plan lt, after, List.mem_append, List.mem_append] at mem
    rcases mem with (front | new) | back
    · exact ih rfl task (List.mem_of_mem_take front)
    · exact (accounts.ready (List.getElem_mem lt)).halves task new
    · exact ih rfl task (List.mem_of_mem_drop back)

/-! ## Scans in all orders -/

section
variable {ι ε : Type} {f : α → α → Concurrent ι ε α}

/-- The scans on their way that some order of the steps leads to, with the calls that were made. -/
inductive Machine.Leads (plan : Plan (Concurrent ι ε) α) (start : Machine ε α) :
    List ι → Machine ε α → Prop where
  | refl : Leads plan start [] start
  | step {calls later : List ι} {i : Nat} {now next : Machine ε α}
      (before : Leads plan start calls now) (lt : i < now.tasks.length)
      (stepped : now.stepAt plan i later (.ok next)) : Leads plan start (calls ++ later) next

/-- A scan whose tasks take their steps in any order, by an operator that may fail. -/
def inAnyOrder (t : Threshold) (f : α → α → Concurrent ι ε α) (mode : Mode) (base : α)
    (elems : Store α) : Concurrent ι ε (Store α × α) :=
  if elems.size = 0 then pure (elems, base)
  else do
    let nodes := nodes t elems.size
    let s : Machine ε α ← fun calls r => ∃ s, r = .ok s ∧ s.tasks = [] ∧
      Machine.Leads ⟨nodes, f, base, mode⟩ (.start nodes.size elems) calls s
    match s.stop with
    | some (.raised e) => Fork.raise e
    | _ => pure (s.memory.elems, (s.memory.total? 0).getD base)

variable (along : (Concurrent.total 0).Along f J.op (J.base :: J.elems.toList))
include along

/-- Where the operator serves, the orders of steps are those by the plain function. -/
theorem Machine.Leads.reaches {calls : List ι} {m : Machine ε α}
    (leads : Leads (J.planBy f) J.start.lift calls m) :
    ∃ n now, Reaches J.plan n J.start now ∧ m = now.lift := by
  induction leads with
  | refl => exact ⟨0, J.start, .refl _, rfl⟩
  | step before lt stepped ih =>
    obtain ⟨n, now, run, rfl⟩ := ih
    obtain ⟨L, accounts, -⟩ := run.accounts (.start J)
    cases (accounts.along_stepAt run.halves along lt).2 _ _ stepped with
    | ok next => exact ⟨n + 1, _, run.step lt, next⟩

theorem Machine.Reaches.leads {n : Nat} {now : Machine Empty α}
    (run : Reaches J.plan n J.start now) :
    ∃ calls, Leads (J.planBy f) J.start.lift calls now.lift := by
  generalize start : J.start = first at run
  induction run with
  | refl _ => exact ⟨[], start ▸ .refl⟩
  | @step n i _ now before lt ih =>
    subst start
    obtain ⟨calls, leads⟩ := ih rfl
    obtain ⟨L, accounts, -⟩ := before.accounts (.start J)
    obtain ⟨⟨later, r, stepped⟩, each⟩ := accounts.along_stepAt before.halves along lt
    cases each _ _ stepped with
    | ok next => exact ⟨calls ++ later, leads.step lt (next ▸ stepped)⟩

end

section
variable {ι ε : Type} {f : α → α → Concurrent ι ε α} {op : α → α → α} {base : α} {elems : Store α}

/-- In all orders a scan leaves what the recursion does, if its operator serves along the base value
and the elements. -/
theorem rel_inAnyOrder (along : (Concurrent.total 0).Along f op (base :: elems.toList))
    (t : Threshold) (mode : Mode) :
    (Concurrent.total 0).Rel (fun (left : Store α × α) (_ : Unit) =>
        left.1.toList = Reference.result t op mode true base elems.toList ∧
          left.2 = Reference.edgeTotal t op base elems.toList)
      (inAnyOrder t f mode base elems) (pure ()) := by
  rw [inAnyOrder]
  by_cases empty : elems.size = 0
  · have nil : elems.toList = [] := List.eq_nil_of_length_eq_zero (by rwa [Store.length_toList])
    rw [if_pos empty, nil, Reference.result_of_le _ _ (Nat.zero_le _),
      Reference.edgeTotal_of_le _ (Nat.zero_le _)]
    exact (Concurrent.total 0).pure ⟨nil, rfl⟩
  · let J : Job α := ⟨t, op, mode, base, elems, Nat.pos_of_ne_zero empty⟩
    rw [if_neg empty]
    -- What is left in the end is the same in all orders of steps, with or without the operator.
    have ends {n : Nat} {now : Machine Empty α} (run : Machine.Reaches J.plan n J.start now)
        (done : now.tasks = []) : now.stop = none ∧
        now.memory.elems.toList = Reference.result t op mode true base elems.toList ∧
        (now.memory.total? 0).getD base = Reference.edgeTotal t op base elems.toList := by
      obtain ⟨L, accounts, -⟩ := run.accounts (.start J)
      obtain ⟨-, final, total⟩ := accounts.result done
      refine ⟨accounts.stop, final, ?_⟩
      rw [total, J.total_root]
      rfl
    have left : (Concurrent.total 0).Rel (fun (s : Machine ε α) (_ : Unit) => s.stop = none ∧
        s.memory.elems.toList = Reference.result t op mode true base elems.toList ∧
        (s.memory.total? 0).getD base = Reference.edgeTotal t op base elems.toList)
        (fun calls r => ∃ s, r = .ok s ∧ s.tasks = [] ∧
          Machine.Leads (J.planBy f) J.start.lift calls s : Concurrent ι ε (Machine ε α))
        (pure ()) := by
      constructor
      · obtain ⟨n, run, -⟩ :=
          Machine.exists_reaches_run J.plan (Machine.stepBound J.nodes.size) J.start
        obtain ⟨calls, leads⟩ := run.leads along
        exact ⟨calls, _, _, rfl, Machine.tasks_run J, leads⟩
      · rintro calls _ ⟨s, rfl, done, leads⟩
        obtain ⟨n, now, run, rfl⟩ := leads.reaches along
        obtain ⟨stop, final, total⟩ := ends run done
        exact .ok ⟨by rw [Machine.lift, stop]; rfl, final, total⟩
    refine (Concurrent.total 0).bind (g := fun _ => pure ()) left ?_
    rintro s _ ⟨stop, final, total⟩
    rw [stop]
    exact (Concurrent.total 0).pure ⟨final, total⟩

end

end Scan

end Bisection
