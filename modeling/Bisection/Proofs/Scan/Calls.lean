import Bisection.Proofs.Scan.Standing

/-!
# A scan whose operator may fail

`Job.failing` is the scan of a job by an operator that counts its calls and fails at some of them.
Each step of a task makes a certain number of calls. Unless one of them fails, the step comes to
what it comes to by plain functions. If one fails, the task stops and leaves the memory alone. A
step as a whole never fails.
-/

namespace Bisection.Scan
set_option autoImplicit false

/-- Computations that count the calls of an operator, which may fail. -/
abbrev Counted (ε : Type) : Type → Type := ExceptT ε (StateM Nat)

section
variable {ε α β γ : Type} {fails : Nat → Option ε} {c : Nat}

namespace Counted

/-- What a computation comes to with `k` calls before it, and the number of calls after it. -/
def runFrom (x : Counted ε β) (k : Nat) : Except ε β × Nat := x.run.run k

theorem runFrom_bind (x : Counted ε β) (f : β → Counted ε γ) (k : Nat) : (x >>= f).runFrom k =
    match x.runFrom k with
    | (.ok b, k') => (f b).runFrom k'
    | (.error e, k') => (.error e, k') := by
  have run : (x >>= f).runFrom k =
    (ExceptT.bindCont f (x.runFrom k).1 : StateM Nat (Except ε γ)) (x.runFrom k).2 := rfl
  rw [run]
  rcases x.runFrom k with ⟨e | b, k'⟩ <;> rfl

end Counted

/-- A computation makes `c` calls and gives `b`, unless one of these calls fails. -/
def Takes (fails : Nat → Option ε) (c : Nat) (x : Counted ε β) (b : β) : Prop :=
  ∀ k, x.runFrom k = (.ok b, k + c) ∨
    ∃ j e, k ≤ j ∧ j < k + c ∧ fails j = some e ∧ x.runFrom k = (.error e, j + 1)

/-- The scan of a job by an operator that counts its calls, and fails at some of them. -/
def Job.failing (J : Job α) (fails : Nat → Option ε) : Plan (Counted ε) α where
  nodes := J.nodes
  op x y := ExceptT.mk fun k => ((fails k).elim (.ok (J.op x y)) .error, k + 1)
  base := J.base
  mode := J.mode

namespace Takes

theorem pure (b : β) : Takes fails 0 (Pure.pure b) b := fun _ => .inl rfl

theorem bind {d : Nat} {x : Counted ε β} {b : β} {f : β → Counted ε γ} {b' : γ}
    (first : Takes fails c x b) (second : Takes fails d (f b) b') :
    Takes fails (c + d) (x >>= f) b' := by
  intro k
  rw [Counted.runFrom_bind]
  rcases first k with ok | ⟨j, e, ge, lt, fail, error⟩
  · rw [ok, ← Nat.add_assoc]
    rcases second (k + c) with ok' | ⟨j, e, ge, lt, fail, error⟩
    · exact .inl ok'
    · exact .inr ⟨j, e, by omega, by omega, fail, error⟩
  · rw [error]
    exact .inr ⟨j, e, ge, by omega, fail, rfl⟩

theorem bind_pure {x : Counted ε β} {b : β} (takes : Takes fails c x b) (f : β → γ) :
    Takes fails c (x >>= fun b => Pure.pure (f b)) (f b) :=
  takes.bind (f := fun b => Pure.pure (f b)) (.pure (f b))

theorem map {x : Counted ε β} {b : β} (takes : Takes fails c x b) (f : β → γ) :
    Takes fails c (f <$> x) (f b) := by
  rw [← bind_pure_comp]
  exact takes.bind_pure f

theorem op (J : Job α) (x y : α) : Takes fails 1 ((J.failing fails).op x y) (J.op x y) := by
  intro k
  have run : ((J.failing fails).op x y).runFrom k =
    ((fails k).elim (.ok (J.op x y)) .error, k + 1) := rfl
  rw [run]
  cases fail : fails k with
  | none => exact .inl rfl
  | some e => exact .inr ⟨k, e, Nat.le_refl k, Nat.lt_succ_self k, fail, rfl⟩

/-- A loop that makes as many calls in each round, as long as `P` holds of what it carries on. -/
theorem foldlM {δ : Type} {P : β → Prop} {f : β → δ → Counted ε β} {g : β → δ → Id β}
    (round : ∀ b x, P b → Takes fails c (f b x) (g b x) ∧ P (g b x)) (xs : List δ) {b : β}
    (start : P b) : Takes fails (xs.length * c) (xs.foldlM f b) (xs.foldlM g b) := by
  induction xs generalizing b with
  | nil =>
    rw [List.length_nil, Nat.zero_mul]
    exact .pure b
  | cons x xs ih =>
    obtain ⟨takes, next⟩ := round b x start
    rw [List.length_cons, Nat.add_one_mul, Nat.add_comm, List.foldlM_cons]
    exact takes.bind (ih next)

/-- Writing a leaf takes a call for each element. -/
theorem runningTotals (fails : Nat → Option ε) (J : Job α) (start : α) (s : Store α) :
    Takes fails s.size (runningTotals (J.failing fails).op J.mode start s)
      (Scan.runningTotals (m := Id) J.op J.mode start s) := by
  rw [Scan.runningTotals, Scan.runningTotals, Store.foldlM_eq_foldlM_toList,
    Store.foldlM_eq_foldlM_toList, ← Store.length_toList, ← Nat.mul_one s.toList.length]
  refine foldlM (P := fun _ => True) (fun p x _ => ⟨?_, trivial⟩) s.toList trivial
  obtain ⟨out, total⟩ := p
  exact (op J total x).bind_pure _

/-- Summing a leaf takes a call for each element but the first. -/
theorem reduceM (fails : Nat → Option ε) (J : Job α) (s : Store α) :
    Takes fails (s.size - 1) (s.reduceM (J.failing fails).op) (s.reduceM (m := Id) J.op) := by
  rw [Store.reduceM, Store.reduceM, Store.foldlM_eq_foldlM_toList,
    Store.foldlM_eq_foldlM_toList, ← Store.length_toList]
  cases s.toList with
  | nil => exact .pure none
  | cons x xs =>
    rw [List.length_cons, Nat.add_sub_cancel, ← Nat.mul_one xs.length, List.foldlM_cons]
    refine foldlM (P := fun total => total.isSome) (fun total y set => ?_) xs (b := some x) rfl
    obtain ⟨total, rfl⟩ := Option.isSome_iff_exists.mp set
    exact ⟨(op J total y).map some, rfl⟩

end Takes

/-- A stop that is no failure of the operator. -/
def Stop.lift : Stop Empty → Stop ε
  | .fault f => .fault f

/-- An outcome with no failure of the operator. -/
def Outcome.lift (o : Outcome Empty α) : Outcome ε α := ⟨o.memory, o.tasks, o.stop.map Stop.lift⟩

/-- The calls of the operator in the next step of a task. -/
def Task.calls (nodes : Array Node) : Task α → Nat
  | .extend _ _ _ _ => 1
  | .writeLeaf i _ _ => last nodes i - first nodes i
  | .sumLeaf i => last nodes i - first nodes i - 1
  | .joinTotals _ _ _ => 1
  | _ => 0

/-- A step makes `c` calls and comes to `o`, unless one of these calls fails. Then the task stops
there, and the memory is left as it is. -/
def Ends (fails : Nat → Option ε) (c : Nat) (s : Memory α) (x : Counted ε (Outcome ε α))
    (o : Outcome Empty α) : Prop :=
  ∀ k, x.runFrom k = (.ok o.lift, k + c) ∨
    ∃ j e, k ≤ j ∧ j < k + c ∧ fails j = some e ∧
      x.runFrom k = (.ok ⟨s, [], some (.raised e)⟩, j + 1)

theorem Takes.ofCall {s : Memory α} {call : Counted ε β} {b : β} {o : Outcome Empty α}
    (takes : Takes fails c call b) (next : β → Memory α → Outcome ε α)
    (comes : next b s = o.lift) :
    Ends fails c s (Outcome.ofCall s call next) o := by
  intro k
  have attempt : (Fork.attempt call : Counted ε (Except ε β)).runFrom k =
    (.ok (call.runFrom k).1, (call.runFrom k).2) := rfl
  rw [Outcome.ofCall, Counted.runFrom_bind, attempt]
  rcases takes k with ok | ⟨j, e, ge, lt, fail, error⟩
  · left
    rw [ok, ← comes]
    rfl
  · refine .inr ⟨j, e, ge, lt, fail, ?_⟩
    rw [error]
    rfl

variable {J : Job α} {s : Memory α}

/-- The elements of a leaf are as many as there are positions in its range. -/
theorem Job.size_leafElems (sizes : s.elems.size = J.elems.size) {i : Nat} {node : Node}
    (node_i : J.nodes[i]? = some node) :
    (Plan.leafElems s node).size = last J.nodes i - first J.nodes i := by
  have range := J.isTree.range (Array.getElem?_eq_some_iff.mp node_i).1
  rw [first_of_getElem? node_i, last_of_getElem? node_i] at *
  rw [Plan.leafElems, Store.size_slice, sizes]
  omega

/-- What a step of a task comes to when the operator may fail. -/
theorem Job.failing_step (fails : Nat → Option ε) (sizes : s.elems.size = J.elems.size)
    (task : Task α) :
    Ends fails (task.calls J.nodes) s ((J.failing fails).step s task) (J.plan.step s task) := by
  cases task with
  | extend l r b x =>
    exact (Takes.op J b x).ofCall (fun y s => .on s [.handRight l r y]) rfl
  | joinTotals a x y =>
    exact (Takes.op J x y).ofCall (fun z s => .on s [.setTotal a z]) rfl
  | sumLeaf i =>
    cases node_i : J.nodes[i]? with
    | none =>
      intro k
      left
      simp only [Plan.step, Job.failing, Job.plan, Task.calls, first, last, node_i]
      rfl
    | some node =>
      have takes := Takes.reduceM fails J (Plan.leafElems s node)
      rw [J.size_leafElems sizes node_i] at takes
      rw [Job.step_sumLeaf node_i]
      simp only [Plan.step, Job.failing, node_i]
      refine takes.ofCall _ ?_
      cases (Plan.leafElems s node).reduceM (m := Id) J.op <;> rfl
  | writeLeaf i gained x =>
    cases node_i : J.nodes[i]? with
    | none =>
      intro k
      left
      simp only [Plan.step, Job.failing, Job.plan, Task.calls, first, last, node_i]
      rfl
    | some node =>
      have takes := Takes.runningTotals fails J x (Plan.leafElems s node)
      rw [J.size_leafElems sizes node_i] at takes
      rw [Job.step_writeLeaf node_i]
      simp only [Plan.step, Job.failing, node_i]
      refine takes.ofCall _ ?_
      cases gained.summed <;> rfl
  | _ =>
    -- The other steps call nothing, and read the plan in the same way.
    intro k
    left
    simp only [Plan.step, Job.failing, Job.plan]
    repeat' split
    all_goals rfl

end

end Bisection.Scan
