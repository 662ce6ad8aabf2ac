import Bisection.Proofs.Scan.Failures

/-!
# A scan whose operator never fails

In any monad a scan whose operator is a plain function comes to what it comes to by plain functions,
and notes what the run by plain functions has written down. That run is one of the orders of steps.
All that is asked of the monad is that a plain value is no failure when it is caught.
-/

namespace Bisection.Scan
set_option autoImplicit false

variable {ε α : Type}

/-- A machine with no failure of the operator. -/
def Machine.lift (m : Machine Empty α) : Machine ε α := ⟨m.memory, m.tasks, m.stop.map Stop.lift⟩

section
variable {m : Type → Type} [Monad m] [LawfulMonad m] {op : α → α → α} {mode : Mode}

theorem foldStore_pure {β : Type} (f : β → α → β) (s : Store α) (b : β) :
    s.foldlM (fun b x => (pure (f b x) : m β)) b =
      pure (s.foldlM (fun b x => (pure (f b x) : Id β)) b) := by
  rw [Store.foldlM_eq_foldlM_toList, Store.foldlM_eq_foldlM_toList, List.foldlM_pure,
    List.foldlM_pure]
  rfl

theorem runningTotals_pure (start : α) (elems : Store α) :
    runningTotals (m := m) (fun x y => pure (op x y)) mode start elems =
      pure (runningTotals (m := Id) op mode start elems) := by
  simp only [runningTotals, pure_bind]
  exact foldStore_pure _ elems _

theorem reduceM_pure (s : Store α) :
    s.reduceM (m := m) (fun x y => pure (op x y)) = pure (s.reduceM (m := Id) op) := by
  have plain : s.reduceM (m := Id) op =
      s.foldlM (fun total x => (pure (some (total.elim x (op · x))) : Id (Option α))) none := by
    rw [Store.reduceM]
    congr 1
    funext total x
    cases total <;> rfl
  rw [plain, ← foldStore_pure, Store.reduceM]
  congr 1
  funext total x
  cases total with
  | none => rfl
  | some total => exact map_pure some (op total x)

variable [Fork ε m] (attempt : ∀ (β : Type) (b : β), Fork.attempt (pure b : m β) = pure (.ok b))
include attempt

theorem Outcome.ofCall_pure {β : Type} (s : Memory α) (b : β)
    (next : β → Memory α → Outcome ε α) :
    Outcome.ofCall s (pure b : m β) next = pure (next b s) := by
  rw [ofCall, attempt, pure_bind]

variable {nodes : Array Node} {base : α}

/-- A step with an operator that never fails. -/
theorem Plan.step_pure (s : Memory α) (task : Task α) :
    (⟨nodes, fun x y => pure (op x y), base, mode⟩ : Plan m α).step s task =
      pure ((⟨nodes, op, base, mode⟩ : Plan Id α).step s task).lift := by
  cases task with
  | extend l r b x =>
    exact Outcome.ofCall_pure attempt s (op b x) fun y s => .on s [.handRight l r y]
  | joinTotals a x y =>
    exact Outcome.ofCall_pure attempt s (op x y) fun z s => .on s [.setTotal a z]
  | sumLeaf i =>
    simp only [step]
    cases nodes[i]? with
    | none => rfl
    | some node =>
      dsimp only
      rw [reduceM_pure, Outcome.ofCall_pure attempt]
      refine congrArg pure ?_
      generalize (leafElems s node).reduceM (m := Id) op = total
      cases total <;> rfl
  | writeLeaf i gained x =>
    simp only [step]
    cases nodes[i]? with
    | none => rfl
    | some node =>
      dsimp only
      rw [runningTotals_pure, Outcome.ofCall_pure attempt]
      rfl
  | _ =>
    -- The other steps call nothing.
    simp only [step]
    repeat' split
    all_goals rfl

/-- A run by one worker with an operator that never fails. -/
theorem Machine.run_pure (fuel : Nat) (s : Machine Empty α) :
    Machine.run (⟨nodes, fun x y => pure (op x y), base, mode⟩ : Plan m α) fuel s.lift =
      pure (Machine.run (⟨nodes, op, base, mode⟩ : Plan Id α) fuel s).lift := by
  induction fuel generalizing s with
  | zero => rfl
  | succ fuel ih =>
    obtain ⟨memory, tasks, stop⟩ := s
    cases tasks with
    | nil => rfl
    | cons task rest =>
      simp only [lift, run, Plan.step_pure attempt, pure_bind]
      refine .trans ?_ (ih _)
      congr 1
      simp only [lift, Outcome.lift, mk.injEq, true_and]
      cases stop <;> rfl

end

/-- Every order of steps by plain functions is an order of steps in which no call fails. -/
theorem Machine.Reaches.runs {J : Job α} {n : Nat} {m : Machine Empty α}
    (run : Reaches J.plan n J.start m) (ε : Type) :
    ∃ past k, Runs J (fun _ => (none : Option ε)) past k m.lift := by
  generalize start : J.start = first at run
  induction run with
  | refl _ => exact ⟨[], 0, start ▸ .start⟩
  | @step n i first now before lt ih =>
    obtain ⟨past, k, runs⟩ := ih start
    have at_i : now.lift.tasks[i]? = some now.tasks[i] := List.getElem?_eq_getElem lt
    obtain ⟨L, stopped, survives, -⟩ := runs.survives
    have sizes : now.memory.elems.size = J.elems.size := survives.accounts.filled.sizes.2.2.2
    rcases runFrom_stepAt (fun _ => (none : Option ε)) (m := now.lift) sizes at_i k with
      ok | ⟨j, e, -, -, fail, -⟩
    · have same : ((now.stepAt J.plan i).lift : Machine ε α) =
          now.lift.after i (J.plan.step now.memory now.tasks[i]).lift := by
        rw [stepAt_of_lt J.plan lt]
        simp only [lift, after, Outcome.lift, mk.injEq, true_and]
        cases now.stop <;> rfl
      exact ⟨_, _, same ▸ runs.step at_i ok⟩
    · cases fail

section
variable {m : Type → Type} [Monad m] [LawfulMonad m] [Fork ε m] [Reports m]

/-- The scan of a job by one worker and plain functions, when it is done. -/
def Job.alone (J : Job α) : Machine Empty α :=
  J.start.run J.plan (Machine.stepBound J.nodes.size)

/-- A scan with an operator that never fails comes to what the run by plain functions comes to, and
notes its restarts. -/
theorem scan_pure (attempt : ∀ (β : Type) (b : β), Fork.attempt (pure b : m β) = pure (.ok b))
    (J : Job α) :
    scan (m := m) J.cut (fun x y => pure (J.op x y)) J.mode J.base J.elems =
      (J.alone.memory.started.forM fun (lo, hi) => Reports.note (.cumulating lo hi)) >>= fun _ =>
        pure (J.alone.memory.elems, (J.alone.memory.total? 0).getD J.base) := by
  have any : J.elems.size ≠ 0 := Nat.pos_iff_ne_zero.mp J.nonempty
  obtain ⟨n, run, -⟩ := Machine.exists_reaches_run J.plan (Machine.stepBound J.nodes.size) J.start
  obtain ⟨L, accounts, -⟩ := run.accounts (.start J)
  have calm : J.alone.stop = none := accounts.stop
  have same : Machine.run (⟨J.nodes, fun x y => pure (J.op x y), J.base, J.mode⟩ : Plan m α)
      (Machine.stepBound J.nodes.size) (.start J.nodes.size J.elems) = pure J.alone.lift :=
    Machine.run_pure attempt _ J.start
  rw [scan, if_neg any]
  show (Machine.run _ _ _ >>= _) = _
  rw [show nodes J.cut J.elems.size = J.nodes from rfl, same, pure_bind]
  simp only [Machine.lift, calm, Option.map_none]

end

end Bisection.Scan
