import Bisection.Proofs.Scan.History

/-!
# The calls of a scan

How often a scan calls its operator depends on its tree alone, and not on the order of the steps.
Each piece of work takes a number of calls (`Work.calls`), so the calls of a run that is at its end
are those of all work there is to do, node by node. `expectedCalls` adds them up along the
bisection, and `expectedCalls_off` and `expectedCalls_edge` give the sum by the numbers of leaves
and of nodes on the left edge.
-/

namespace Bisection.Scan
set_option autoImplicit false

/-- The calls that a piece of work takes. -/
def Work.calls (nodes : Array Node) : Work → Nat
  | sum i => last nodes i - first nodes i - 1
  | write i => last nodes i - first nodes i
  | join _ => 1
  | extend _ => 1
  | push _ => 0

theorem Task.calls_eq {α : Type} (nodes : Array Node) (task : Task α) :
    task.calls nodes = ((task.work nodes).map (Work.calls nodes)).sum := by
  cases task <;> rfl

/-- The calls of a scan of `n` elements, on the left edge or off it. -/
def expectedCalls (t : Threshold) (n : Nat) (leftmost : Bool) : Nat :=
  if _h : n ≤ t.val then if leftmost then n else 2 * n - 1
  else
    1 + (if leftmost then 0 else 1) + expectedCalls t (n / 2) leftmost +
      expectedCalls t (n - n / 2) false
termination_by n
decreasing_by
  all_goals
    have := Threshold.two_le _h
    omega

/-- The size of the leftmost leaf over `n` elements. -/
def leftmostSize (t : Threshold) (n : Nat) : Nat :=
  if _h : n ≤ t.val then n else leftmostSize t (n / 2)
termination_by n
decreasing_by
  have := Threshold.two_le _h
  omega

namespace Node

/-- The calls for all work on a node. -/
def calls (x : Node) : Nat :=
  if x.children.isSome then if x.lo = 0 then 1 else 2
  else if x.lo = 0 then x.hi - x.lo
  else 2 * (x.hi - x.lo) - 1

/-- The node is not cut. -/
def isLeaf (x : Node) : Bool := x.children.isNone

/-- The node is cut and starts at the left end. -/
def isSpine (x : Node) : Bool := x.children.isSome && x.lo == 0

end Node

section
variable {t : Threshold} {id lo n : Nat} {parent : Option Nat}

theorem layout_of_le (h : n ≤ t.val) : layout t id parent lo n = [⟨lo, lo + n, parent, none⟩] := by
  rw [layout, dif_pos h]

theorem layout_of_lt (h : ¬ n ≤ t.val) : layout t id parent lo n =
    ⟨lo, lo + n, parent, some (id + 1, id + 1 + nodeCount t (n / 2))⟩ ::
      (layout t (id + 1) (some id) lo (n / 2) ++
        layout t (id + 1 + nodeCount t (n / 2)) (some id) (lo + n / 2) (n - n / 2)) := by
  rw [layout, dif_neg h]

theorem expectedCalls_of_lt (h : ¬ n ≤ t.val) (leftmost : Bool) : expectedCalls t n leftmost =
    1 + (if leftmost then 0 else 1) + expectedCalls t (n / 2) leftmost +
      expectedCalls t (n - n / 2) false := by
  rw [expectedCalls, dif_neg h]

theorem leftmostSize_of_le (h : n ≤ t.val) : leftmostSize t n = n := by
  rw [leftmostSize, dif_pos h]

theorem leftmostSize_of_lt (h : ¬ n ≤ t.val) : leftmostSize t n = leftmostSize t (n / 2) := by
  rw [leftmostSize, dif_neg h]

/-- The work on the nodes of a subtree takes the expected calls. -/
theorem sum_calls_layout (pos : 0 < n) :
    ((layout t id parent lo n).map Node.calls).sum = expectedCalls t n (lo = 0) := by
  induction n using Nat.strongRecOn generalizing id parent lo with
  | ind n ih =>
    by_cases h : n ≤ t.val
    · rw [layout_of_le h, expectedCalls, dif_pos h, List.map_singleton, List.sum_singleton]
      simp [Node.calls]
    · have two := Threshold.two_le h
      have off : decide (lo + n / 2 = 0) = false := decide_eq_false (by omega)
      rw [layout_of_lt h, expectedCalls_of_lt h, List.map_cons, List.sum_cons, List.map_append,
        List.sum_append, ih (n / 2) (by omega) (by omega), ih (n - n / 2) (by omega) (by omega),
        off, ← Nat.add_assoc]
      congr 2
      by_cases edge : lo = 0 <;> simp [Node.calls, edge]

/-- Off the left edge each element is summed and written, and each cut joins and extends. -/
theorem expectedCalls_off (id : Nat) (parent : Option Nat) (lo : Nat) (pos : 0 < n) :
    expectedCalls t n false + 2 = 2 * n + (layout t id parent lo n).countP Node.isLeaf := by
  induction n using Nat.strongRecOn generalizing id parent lo with
  | ind n ih =>
    by_cases h : n ≤ t.val
    · rw [layout_of_le h, expectedCalls, dif_pos h, List.countP_singleton]
      simp [Node.isLeaf]
      omega
    · have two := Threshold.two_le h
      have left := ih (n / 2) (by omega) (id + 1) (some id) lo (by omega)
      have right := ih (n - n / 2) (by omega) (id + 1 + nodeCount t (n / 2)) (some id)
        (lo + n / 2) (by omega)
      rw [layout_of_lt h, expectedCalls_of_lt h, List.countP_cons, List.countP_append]
      simp only [Node.isLeaf, Bool.false_eq_true, Option.isNone_some, if_false]
      omega

/-- On the left edge the leftmost leaf is written without being summed, and no prefix is
extended. -/
theorem expectedCalls_edge (id : Nat) (parent : Option Nat) (pos : 0 < n) :
    expectedCalls t n true + leftmostSize t n +
        (layout t id parent 0 n).countP Node.isSpine + 1 =
      2 * n + (layout t id parent 0 n).countP Node.isLeaf := by
  induction n using Nat.strongRecOn generalizing id parent with
  | ind n ih =>
    by_cases h : n ≤ t.val
    · rw [layout_of_le h, leftmostSize_of_le h, expectedCalls, dif_pos h, List.countP_singleton,
        List.countP_singleton]
      simp [Node.isLeaf, Node.isSpine]
      omega
    · have two := Threshold.two_le h
      have left := ih (n / 2) (by omega) (id + 1) (some id) (by omega)
      have right : expectedCalls t (n - n / 2) false + 2 = _ :=
        expectedCalls_off (id + 1 + nodeCount t (n / 2)) (some id) (0 + n / 2) (by omega)
      have spine : (layout t (id + 1 + nodeCount t (n / 2)) (some id) (0 + n / 2)
          (n - n / 2)).countP Node.isSpine = 0 := no_spine (by omega)
      rw [layout_of_lt h, expectedCalls_of_lt h, leftmostSize_of_lt h, List.countP_cons,
        List.countP_append, List.countP_cons, List.countP_append, spine]
      simp only [Node.isLeaf, Node.isSpine, Option.isNone_some, Option.isSome_some, Bool.true_and,
        beq_self_eq_true, Bool.false_eq_true, if_true, if_false]
      omega
where
  /-- Off the left edge no node is on the spine. -/
  no_spine {t : Threshold} {id lo n : Nat} {parent : Option Nat} (pos : 0 < lo) :
      (layout t id parent lo n).countP Node.isSpine = 0 := by
    induction n using Nat.strongRecOn generalizing id parent lo with
    | ind n ih =>
      by_cases h : n ≤ t.val
      · rw [layout_of_le h]
        rfl
      · have two := Threshold.two_le h
        have off : Node.isSpine ⟨lo, lo + n, parent,
            some (id + 1, id + 1 + nodeCount t (n / 2))⟩ = false := by
          simp [Node.isSpine]
          omega
        rw [layout_of_lt h, List.countP_cons, List.countP_append, ih (n / 2) (by omega) pos,
          ih (n - n / 2) (by omega) (by omega), off]
        rfl

/-- The leftmost leaf of a scan. -/
theorem last_edgeLeaf {i : Nat} (pos : 0 < n) (edge : IsEdgeLeaf (nodes t n) i) :
    last (nodes t n) i = leftmostSize t n := by
  have lt := edge.1.1
  rw [size_nodes] at lt
  obtain ⟨_, lo, len, sub, same⟩ := (subtree_nodes t pos).forall_nodes
    (P := fun _ _ lo len => lo = 0 → leftmostSize t len = leftmostSize t n) (fun _ => rfl)
    (fun _ _ lo len sub h same => ⟨fun eq => leftmostSize_of_lt h ▸ same eq, fun eq => by
      have two := Threshold.two_le h
      omega⟩) i (Nat.zero_le i) (by omega)
  have root := sub.getElem?_root
  have first := edge.2
  rw [first_of_getElem? root] at first
  have uncut := edge.1.2
  rw [kids_of_getElem? root] at uncut
  have le : len ≤ t.val := by
    by_contra h
    simp [h] at uncut
  simp only at first
  subst first
  rw [last_of_getElem? root, ← same rfl, leftmostSize_of_le le, Nat.zero_add]

/-- All work on a node takes as many calls as the node. -/
theorem sum_calls_workOn {nodes : Array Node} {i : Nat} {x : Node} (at_i : nodes[i]? = some x)
    (range : x.lo < x.hi) : ((workOn nodes i).map (Work.calls nodes)).sum = x.calls := by
  have lo := first_of_getElem? at_i
  have hi := last_of_getElem? at_i
  rw [workOn, Node.calls, kids_of_getElem? at_i, lo]
  by_cases cut : x.children.isSome
  · by_cases edge : x.lo = 0 <;> simp [cut, edge, Work.calls]
  · by_cases edge : x.lo = 0
    · simp [cut, edge, Work.calls, lo, hi]
    · simp [cut, edge, Work.calls, lo, hi]
      omega

theorem sum_map_flatMap {β γ : Type} (f : β → List γ) (g : γ → Nat) (xs : List β) :
    ((xs.flatMap f).map g).sum = (xs.map fun x => ((f x).map g).sum).sum := by
  rw [List.map_flatMap, List.flatMap_def, List.sum_flatten, List.map_map]
  rfl

/-- All work that there is to do takes the expected calls. -/
theorem sum_calls_allWork (pos : 0 < n) :
    ((allWork (nodes t n)).map (Work.calls (nodes t n))).sum = expectedCalls t n true := by
  have each (i : Nat) (h : i < (nodes t n).size) :
      ((workOn (nodes t n) i).map (Work.calls (nodes t n))).sum = (nodes t n)[i].calls := by
    have at_i := Array.getElem?_eq_getElem h
    have range := ((isTree_nodes t pos).range h).1
    rw [first_of_getElem? at_i, last_of_getElem? at_i] at range
    exact sum_calls_workOn at_i range
  have nodewise : (List.range (nodes t n).size).map
      (fun i => ((workOn (nodes t n) i).map (Work.calls (nodes t n))).sum) =
        (nodes t n).toList.map Node.calls := by
    refine List.ext_getElem (by simp) fun i h _ => ?_
    rw [List.length_map, List.length_range] at h
    rw [List.getElem_map, List.getElem_map, List.getElem_range, each i h, Array.getElem_toList]
  rw [allWork, sum_map_flatMap, nodewise]
  exact sum_calls_layout pos

end

section
variable {ε α : Type} {J : Job α} {fails : Nat → Option ε} {past : List (Task α)} {k i : Nat}
  {m : Machine ε α}

/-- The calls of a run are those that its work takes. -/
theorem Runs.calls (run : Runs J fails past k m) (calm : m.stop = none) :
    k = ((past.flatMap (Task.work J.nodes)).map (Work.calls J.nodes)).sum := by
  have each : Task.calls J.nodes = fun task : Task α =>
      ((task.work J.nodes).map (Work.calls J.nodes)).sum :=
    funext fun task => task.calls_eq J.nodes
  rw [(run.books calm).calls, sum_map_flatMap, each]

theorem Task.write_not_did (nodes : Array Node) (task : Task α) : .write i ∉ task.did nodes := by
  cases task <;> simp [did]

/-- The memory shows that a leaf has been written. -/
theorem Books.written {s : Memory α} {tasks : List (Task α)} (books : Books J past k s tasks)
    (mem : .write i ∈ past.flatMap (Task.work J.nodes)) : (s.phase i).written := by
  have balance := books.balanced (.write i) (books.belongs _ mem)
  have none : .write i ∉ tasks.flatMap (Task.did J.nodes) := by
    intro mem
    obtain ⟨task, -, did⟩ := List.mem_flatMap.mp mem
    exact task.write_not_did J.nodes did
  have once := List.count_pos_iff.mpr mem
  rw [List.count_append, List.count_eq_zero_of_not_mem none] at balance
  by_contra unwritten
  have shows : s.shows J.nodes (.write i) = false := Bool.eq_false_iff.mpr unwritten
  rw [shows] at balance
  simp only [Bool.toNat_false] at balance
  omega

/-- A visit of a leaf that is written does nothing. -/
theorem Job.failing_visit_written {s : Memory α} (leaf : IsLeaf J.nodes i)
    (written : (s.phase i).written) :
    (J.failing fails).step s (.visit i) = Pure.pure (.on s []) := by
  obtain ⟨node, at_i, -, -, -, children⟩ := Job.exists_node leaf.1
  have at_i : (J.failing fails).nodes[i]? = some node := at_i
  simp only [Plan.step, at_i, children, leaf.2, if_pos written]

/-- Every run can go on to its end. -/
theorem Runs.exists_end (run : Runs J fails past k m) :
    ∃ past' k' m', Runs J fails (past ++ past') k' m' ∧ m'.tasks = [] := by
  induction h : 2 * Machine.stepBound J.nodes.size - past.length using Nat.strongRecOn
    generalizing past k m with
  | ind left ih =>
    cases tasks : m.tasks with
    | nil => exact ⟨[], k, m, by rwa [List.append_nil], tasks⟩
    | cons task rest =>
      obtain ⟨L, stopped, survives, -⟩ := run.survives
      have at_0 : m.tasks[0]? = some task := by rw [tasks]; rfl
      have lt := run.length_lt
      have next {m' : Machine ε α} {k' : Nat}
          (stepped : (m.stepAt (J.failing fails) 0).runFrom k = (.ok m', k')) :
          ∃ past' k' m', Runs J fails (past ++ past') k' m' ∧ m'.tasks = [] := by
        have run' := run.step at_0 stepped
        obtain ⟨past', k', m'', later, done⟩ := ih _ (by
          rw [← h, List.length_append, List.length_singleton]
          omega) run' rfl
        exact ⟨task :: past', k', m'', by rwa [List.append_assoc] at later, done⟩
      rcases Machine.runFrom_stepAt fails survives.accounts.filled.sizes.2.2.2 at_0 k
        with ok | ⟨_, _, -, -, -, stops⟩
      · exact next ok
      · exact next stops

end

/-- In every order of the steps, as long as no call fails: once the leaf at the left end is written,
a visit of it does nothing. At the end of the run all work is done, and each piece of it once: each
leaf is written, off the left end it is summed before that, each cut joins the totals of its
children, extends its prefix if it has one, and pushes it down. The calls of the operator are the
expected ones: two for each element, less the leftmost leaf and the cuts on the left edge, and one
for each leaf but one. -/
theorem scan_work_once {ε α : Type} (J : Job α) (fails : Nat → Option ε) {past : List (Task α)}
    {k : Nat} {m : Machine ε α} (run : Runs J fails past k m) (calm : m.stop = none) :
    (∀ e, IsEdgeLeaf J.nodes e → .write e ∈ past.flatMap (Task.work J.nodes) →
      (J.failing fails).step m.memory (.visit e) = pure (.on m.memory [])) ∧
    (m.tasks = [] →
      (past.flatMap (Task.work J.nodes)).Nodup ∧
      (∀ w, w ∈ past.flatMap (Task.work J.nodes) ↔ w.Belongs J.nodes) ∧
      (∀ i, IsLeaf J.nodes i → first J.nodes i ≠ 0 →
        [.sum i, .write i].Sublist (past.flatMap (Task.work J.nodes))) ∧
      k = expectedCalls J.cut J.elems.size true ∧
      ∃ e, IsEdgeLeaf J.nodes e ∧
        k + last J.nodes e + J.nodes.countP Node.isSpine + 1 =
          2 * J.elems.size + J.nodes.countP Node.isLeaf) := by
  have books := run.books calm
  refine ⟨fun e edge mem => Job.failing_visit_written edge.1 (books.written mem), fun done => ?_⟩
  obtain ⟨L, accounts⟩ := run.accounts calm
  have perm := books.perm_allWork accounts done
  have complete (w : Work) : w ∈ past.flatMap (Task.work J.nodes) ↔ w.Belongs J.nodes :=
    perm.mem_iff.trans mem_allWork
  have calls : k = expectedCalls J.cut J.elems.size true := by
    rw [run.calls calm, (perm.map _).sum_eq]
    exact sum_calls_allWork J.nonempty
  obtain ⟨e, leaf, first_le, -⟩ := J.isTree.exists_leaf J.nonempty
  have edge : IsEdgeLeaf J.nodes e := ⟨leaf, Nat.le_zero.mp first_le⟩
  refine ⟨perm.nodup_iff.mpr (nodup_allWork J.nodes), complete, fun i leaf off => ?_, calls,
    e, edge, ?_⟩
  · exact books.ordered i leaf off ((complete (.write i)).mpr leaf)
  · have closed : expectedCalls J.cut J.elems.size true + _ + _ + 1 = _ :=
      expectedCalls_edge 0 none J.nonempty
    have size : last J.nodes e = leftmostSize J.cut J.elems.size := last_edgeLeaf J.nonempty edge
    have spine : J.nodes.countP Node.isSpine =
      (layout J.cut 0 none 0 J.elems.size).countP Node.isSpine := List.countP_toArray
    have leaves : J.nodes.countP Node.isLeaf =
      (layout J.cut 0 none 0 J.elems.size).countP Node.isLeaf := List.countP_toArray
    rw [calls, size, spine, leaves, closed]

/-- Four elements in four leaves, with a sum that never fails: eight calls in all. -/
theorem scan_work_once_four :
    let J : Job Nat :=
      ⟨⟨1, Nat.one_pos⟩, (· + ·), .exclusive, 0, .cells #[3, 4, 5, 6], Nat.succ_pos 3⟩
    ∃ past m, Runs J (fun _ => (none : Option String)) past 8 m ∧ m.stop = none ∧ m.tasks = [] := by
  intro J
  have fresh : Runs J (fun _ => (none : Option String)) [] 0 (.start J.nodes.size J.elems) := .start
  obtain ⟨past, k, m, run, done⟩ := fresh.exists_end
  have calm : m.stop = none := by
    obtain ⟨L, stopped, survives, -⟩ := run.survives
    cases stop : m.stop with
    | none => rfl
    | some stop' =>
      obtain ⟨_, _, -, -, fail⟩ := survives.blames stop' stop
      cases fail
  have calls := ((scan_work_once J _ run calm).2 done).2.2.2.1
  have eight : expectedCalls J.cut J.elems.size true = 8 := by decide +kernel
  rw [eight] at calls
  exact ⟨_, m, calls ▸ run, calm, done⟩

end Bisection.Scan
