import Bisection.Proofs.Scan.CallCount
import Mathlib.Logic.Relation

/-!
# Which phases the nodes of a scan can have

The flags of a node are set before what they announce is computed, and on an inner node they speak
of its children. Still they come in an order. `Memory.Coherent` says which phases a leaf can have,
and which cells are set once a node is told to write. Every memory that a scan comes to is coherent,
whatever calls fail, and what comes later takes no flag back and no cell (`Runs.grows`).
-/

namespace Bisection.Scan
set_option autoImplicit false

open Stage

/-- The phases of a leaf off the left end: it is summed, told to write, and written. -/
def leafPhases : List Phase :=
  [{}, { summed := true }, { summed := true, told := true },
    { summed := true, told := true, written := true }]

/-- The phases of the leaf at the left end: it is summed and written, and told to write later. -/
def edgeLeafPhases : List Phase :=
  [{}, { summed := true, written := true }, { summed := true, told := true, written := true }]

theorem mem_leafPhases {p : Phase} :
    p ∈ leafPhases ↔ (p.told → p.summed) ∧ (p.written → p.told) := by
  obtain ⟨told, summed, written⟩ := p
  revert told summed written
  decide

theorem mem_edgeLeafPhases {p : Phase} :
    p ∈ edgeLeafPhases ↔ (p.written ↔ p.summed) ∧ (p.told → p.summed) := by
  obtain ⟨told, summed, written⟩ := p
  revert told summed written
  decide

section
variable {α : Type} {J : Job α} {L : Ledger} {s s' s'' : Memory α} {task : Task α} {i p l r : Nat}

/-- The phases of the leaves are in order, and a node that is told to write has what it takes. No
prefix is handed to a node on the left edge. -/
structure Memory.Coherent (J : Job α) (s : Memory α) : Prop where
  leaf : ∀ {i}, IsLeaf J.nodes i → first J.nodes i ≠ 0 → s.phase i ∈ leafPhases
  edge : ∀ {i}, IsEdgeLeaf J.nodes i → s.phase i ∈ edgeLeafPhases
  total : ∀ {i}, i < J.nodes.size → (s.phase i).told → (s.total? i).isSome
  before : ∀ {i}, i < J.nodes.size → (s.phase i).told → first J.nodes i ≠ 0 → (s.before? i).isSome
  below : ∀ {p l r}, kids J.nodes p = some (l, r) → (s.phase p).told →
    (s.total? l).isSome ∧ (s.total? r).isSome
  bare : ∀ i, first J.nodes i = 0 → s.before? i = none

theorem Filled.isSome_total (filled : Filled J L s) (lt : i < J.nodes.size)
    (summed : news ≤ L.sum i) : (s.total? i).isSome := by
  rw [filled.summed lt summed]
  exact Job.isSome_total lt

/-- A node that is told to write has been summed. -/
theorem Flagged.summed_of_told (flagged : Flagged J.nodes L s) (fits : L.Fits J.nodes)
    (lt : i < J.nodes.size) (told : (s.phase i).told) : news ≤ L.sum i := by
  by_cases edge : IsEdgeLeaf J.nodes i
  · rw [flagged.edge edge told]
    decide
  · refine fits.news_le_sum J.isTree lt edge ?_
    cases below : kids J.nodes i with
    | some k => exact (flagged.inner below).1.mp told
    | none => exact (flagged.told ⟨lt, below⟩ fun start => edge ⟨⟨lt, below⟩, start⟩).mp told

/-- The memory that fits a ledger is coherent, if no prefix was handed to the left edge. -/
theorem Memory.Coherent.of_ledger (fits : L.Fits J.nodes) (flagged : Flagged J.nodes L s)
    (filled : Filled J L s) (bare : ∀ i, first J.nodes i = 0 → s.before? i = none) :
    s.Coherent J where
  leaf {i} leaf off := by
    obtain ⟨summed, written⟩ := flagged.leaf leaf
    refine mem_leafPhases.mpr ⟨fun told => ?_, fun done => ?_⟩
    · have news := flagged.summed_of_told fits leaf.1 told
      exact summed.mpr (Nat.le_trans (by decide) news)
    · have busy := written.mp done
      refine (flagged.told leaf off).mpr fun idle => ?_
      rw [idle] at busy
      exact absurd busy (by decide)
  edge {i} edge := by
    obtain ⟨summed, written⟩ := flagged.leaf edge.1
    have stages := (fits.leaf edge.1).edge edge.2
    refine mem_edgeLeafPhases.mpr ⟨?_, fun told => ?_⟩
    · -- The leaf at the left end is claimed for both at once.
      rw [summed, written]
      simp only [idle, busy, news] at stages ⊢
      omega
    · rw [summed, flagged.edge edge told]
      decide
  total lt told := filled.isSome_total lt (flagged.summed_of_told fits lt told)
  before {i} lt told off := by
    rw [filled.told lt off ((flagged.told_iff lt off).mp told)]
    rfl
  below {p l r} h told := by
    obtain ⟨ltP, ltL, ltR⟩ := Job.size_of_kids h
    obtain ⟨left, right⟩ := (fits.inner h).joined.mp (flagged.summed_of_told fits ltP told)
    refine ⟨filled.isSome_total ltL ?_, filled.isSome_total ltR ?_⟩
    · rw [left]
      decide
    · rw [right]
      decide
  bare := bare

/-- A step hands no prefix to a node on the left edge: one is handed to the children of a node off
the edge, and to right children. -/
theorem Ready.before?_step (ready : Ready J L s task) (start : first J.nodes i = 0) :
    (J.plan.step s task).memory.before? i = s.before? i := by
  have other (j : Nat) (lt : j < J.nodes.size) (off : first J.nodes j ≠ 0) (x : α) :
      (s.setPrefix j x).before? i = s.before? i := by
    have ne : i ≠ j := fun eq => off (eq ▸ start)
    rw [Memory.before?_setPrefix (ready.filled.sizes.2.1 ▸ lt), if_neg ne]
  cases task with
  | handLeft l r b x =>
    obtain ⟨p, h, -, off, -⟩ := ready.stands
    have same : first J.nodes l = first J.nodes p := (J.isTree.cut h).2.1
    exact other l (Job.size_of_kids h).2.1 (same ▸ off) b
  | handRight l r y =>
    obtain ⟨p, h, -⟩ := ready.stands
    exact other r (Job.size_of_kids h).2.2 (Job.first_right_pos h) y
  | sumLeaf j =>
    obtain ⟨x, -, step⟩ := ready.step_sumLeaf
    rw [step]
    rfl
  | writeLeaf j gained x =>
    obtain ⟨node, at_j, -⟩ := Job.exists_node ready.stands.1.1
    rw [Job.step_writeLeaf at_j]
    rfl
  | _ =>
    -- The others set no prefix.
    simp only [Plan.step, Memory.tell, Memory.exchange]
    repeat' split
    all_goals rfl

theorem Memory.Grows.trans (grows : s.Grows s') (grows' : s'.Grows s'') : s.Grows s'' where
  phase i := (grows.phase i).trans (grows'.phase i)
  total set := grows'.total (grows.total set)
  before set := grows'.before (grows.before set)

end

section
variable {ε α : Type} {J : Job α} {fails : Nat → Option ε} {past : List (Task α)} {k k' i : Nat}
  {m m' : Machine ε α} {task : Task α}

/-- A step of some task, with the number of calls before it and after it. -/
def Follows (J : Job α) (fails : Nat → Option ε) (now next : Nat × Machine ε α) : Prop :=
  ∃ i task, now.2.tasks[i]? = some task ∧
    (now.2.stepAt (J.failing fails) i).runFrom now.1 = (.ok next.2, next.1)

/-- A step leaves the memory as the task leaves it, or does not touch it. -/
theorem Runs.memory_step (run : Runs J fails past k m) (at_i : m.tasks[i]? = some task)
    (stepped : (m.stepAt (J.failing fails) i).runFrom k = (.ok m', k')) :
    (∃ L, Ready J L m.memory task) ∧
      (m'.memory = (J.plan.step m.memory task).memory ∨ m'.memory = m.memory) := by
  obtain ⟨L, stopped, survives, -⟩ := run.survives
  have accounts := survives.accounts
  have mem := List.mem_append_left stopped (List.mem_of_getElem? at_i)
  refine ⟨⟨L, accounts.ready mem⟩, ?_⟩
  rcases Machine.runFrom_stepAt fails accounts.filled.sizes.2.2.2 at_i k with
    ok | ⟨j, e, -, -, -, stops⟩
  · rw [ok, Prod.mk.injEq, Except.ok.injEq] at stepped
    obtain ⟨rfl, -⟩ := stepped
    exact .inl rfl
  · rw [stops, Prod.mk.injEq, Except.ok.injEq] at stepped
    obtain ⟨rfl, -⟩ := stepped
    exact .inr rfl

/-- Nobody hands a prefix to a node on the left edge. -/
theorem Runs.bare (run : Runs J fails past k m) {j : Nat} (start : first J.nodes j = 0) :
    m.memory.before? j = none := by
  induction run with
  | start => exact (J.unset_start j).2.2
  | step before at_i stepped ih =>
    obtain ⟨⟨L, ready⟩, same | same⟩ := before.memory_step at_i stepped
    · rw [same, ready.before?_step start, ih]
    · rw [same, ih]

theorem Runs.coherent (run : Runs J fails past k m) : m.memory.Coherent J := by
  obtain ⟨L, stopped, survives, -⟩ := run.survives
  have accounts := survives.accounts
  exact .of_ledger accounts.fits accounts.flagged accounts.filled fun _ => run.bare

/-- No step takes back a flag or a cell. -/
theorem Runs.grows_step (run : Runs J fails past k m) (at_i : m.tasks[i]? = some task)
    (stepped : (m.stepAt (J.failing fails) i).runFrom k = (.ok m', k')) :
    m.memory.Grows m'.memory := by
  obtain ⟨⟨L, ready⟩, same | same⟩ := run.memory_step at_i stepped
  · obtain ⟨L', progress⟩ := ready.progress
    exact same ▸ progress.grows
  · exact same ▸ .refl m.memory

/-- What is set stays set, however the run goes on. -/
theorem Runs.grows (run : Runs J fails past k m) {later : Nat × Machine ε α}
    (on : Relation.ReflTransGen (Follows J fails) (k, m) later) :
    m.memory.Grows later.2.memory ∧ ∃ past', Runs J fails past' later.1 later.2 := by
  induction on with
  | refl => exact ⟨.refl _, past, run⟩
  | tail _ step ih =>
    obtain ⟨grows, past', run'⟩ := ih
    obtain ⟨i, task, at_i, stepped⟩ := step
    exact ⟨grows.trans (run'.grows_step at_i stepped), _, run'.step at_i stepped⟩

/-- Where no call fails, no task stops. -/
theorem Runs.calm (run : Runs J fails past k m) (never : ∀ j, fails j = none) : m.stop = none := by
  obtain ⟨L, stopped, survives, -⟩ := run.survives
  by_contra stops
  obtain ⟨stop, at_m⟩ := Option.ne_none_iff_exists'.mp stops
  obtain ⟨e, j, -, -, fail⟩ := survives.blames stop at_m
  rw [never j] at fail
  cases fail

end

/-- Whatever calls fail, and in whatever order the tasks take their steps, after each step: a leaf
off the left end has none of the flags, or it is summed, or told to write besides, or written
besides; the leaf at the left end has none, or it is summed and written, or told besides. No flag is
ever taken back. A node that is told to write, a leaf or not, has its total, and its prefix if it is
not on the left edge; if it has children, they have their totals. A node on the left edge never gets
a prefix. -/
theorem phases_in_order {ε α : Type} (J : Job α) (fails : Nat → Option ε)
    {past : List (Task α)} {k : Nat} {m : Machine ε α} (run : Runs J fails past k m) :
    (∀ i, IsLeaf J.nodes i → first J.nodes i ≠ 0 → m.memory.phase i ∈ leafPhases) ∧
    (∀ i, IsLeaf J.nodes i → first J.nodes i = 0 → m.memory.phase i ∈ edgeLeafPhases) ∧
    (∀ k' m', Relation.ReflTransGen (Follows J fails) (k, m) (k', m') →
      ∀ i, (m.memory.phase i).Within (m'.memory.phase i)) ∧
    (∀ i, i < J.nodes.size → (m.memory.phase i).told → (m.memory.total? i).isSome ∧
      (first J.nodes i ≠ 0 → (m.memory.before? i).isSome)) ∧
    (∀ p l r, kids J.nodes p = some (l, r) → (m.memory.phase p).told →
      (m.memory.total? l).isSome ∧ (m.memory.total? r).isSome) ∧
    (∀ i, first J.nodes i = 0 → m.memory.before? i = none) := by
  have coherent := run.coherent
  refine ⟨fun i leaf off => coherent.leaf leaf off, fun i leaf start => coherent.edge ⟨leaf, start⟩,
    fun k' m' on => (run.grows on).1.phase, fun i lt told => ?_,
    fun p l r h told => coherent.below h told, coherent.bare⟩
  exact ⟨coherent.total lt told, coherent.before lt told⟩

/-- Two elements in two leaves, when all is done: the right leaf has all three flags, and the prefix
of the root was never set. -/
theorem phases_in_order_pair :
    let J : Job Nat := ⟨⟨1, Nat.one_pos⟩, (· + ·), .inclusive, 1, .cells #[3, 4], Nat.two_pos⟩
    ∃ past k m, Runs J (fun _ => (none : Option String)) past k m ∧ m.tasks = [] ∧
      m.memory.phase 2 = { summed := true, told := true, written := true } ∧
      (m.memory.total? 2).isSome ∧ (m.memory.before? 2).isSome ∧ m.memory.before? 0 = none := by
  intro J
  have fresh : Runs J (fun _ => (none : Option String)) [] 0 (.start J.nodes.size J.elems) := .start
  obtain ⟨past, k, m, run, done⟩ := fresh.exists_end
  obtain ⟨L, accounts⟩ := run.accounts (run.calm fun _ => rfl)
  obtain ⟨phases, -, -, cells, -, bare⟩ := phases_in_order J _ run
  have leaf : IsLeaf J.nodes 2 := ⟨by decide +kernel, by decide +kernel⟩
  have off : first J.nodes 2 ≠ 0 := by decide +kernel
  have written : (m.memory.phase 2).written = true :=
    accounts.shown (w := .write 2) done leaf
  have order := mem_leafPhases.mp (phases 2 leaf off)
  have told : (m.memory.phase 2).told = true := order.2 written
  have summed : (m.memory.phase 2).summed = true := order.1 told
  obtain ⟨total, before⟩ := cells 2 leaf.1 told
  have flags : m.memory.phase 2 = ⟨(m.memory.phase 2).told, (m.memory.phase 2).summed,
    (m.memory.phase 2).written⟩ := rfl
  rw [told, summed, written] at flags
  exact ⟨_, k, m, run, done, flags, total, before off, bare 0 J.isTree.root.2.2.1⟩

end Bisection.Scan
