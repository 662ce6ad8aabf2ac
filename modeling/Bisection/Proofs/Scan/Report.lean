import Bisection.Proofs.Scan.Leaves

/-!
# Steps of a report

A node that gained something tells its parent. Of two children that are summed the first leaves its
mark on the parent, and the second sets the parent's total and goes on to report the parent; it is
the same with the children that are written. A report that finds the parent changed since it looked
at it looks again, which can happen only as often as the parent gains a flag.
-/

namespace Bisection.Scan
set_option autoImplicit false

open Stage

/-- The ledger after the parent of node `i` was told what the node gained. -/
def Ledger.deliver (L : Ledger) (i : Nat) (gained : Phase) : Ledger :=
  let summed := if gained.summed then L.setSum i done else L
  if gained.written then summed.setWrite i done else summed

namespace Ledger
variable {L : Ledger} {i j n : Nat} {gained : Phase}

@[simp, grind =] theorem sum_deliver (L : Ledger) (i : Nat) (gained : Phase) (j : Nat) :
    (L.deliver i gained).sum j = if j = i ∧ gained.summed then done else L.sum j := by
  simp only [deliver]
  grind

@[simp, grind =] theorem write_deliver (L : Ledger) (i : Nat) (gained : Phase) (j : Nat) :
    (L.deliver i gained).write j = if j = i ∧ gained.written then done else L.write j := by
  simp only [deliver]
  grind

theorem sameBut_deliver (L : Ledger) (i : Nat) (gained : Phase) :
    SameBut i L (L.deliver i gained) := by
  intro j ne
  simp [SameAt, ne]

theorem le_write_deliver (write : gained.written → L.write i = news) (j : Nat) :
    L.write j ≤ (L.deliver i gained).write j := by
  rw [write_deliver]
  split
  · next told =>
    rw [told.1, write told.2]
    decide
  · exact Nat.le_refl _

/-- Either node `i` is summed for good now, or its summing is where it was. -/
theorem sum_deliver_self (sum : gained.summed → L.sum i = news) :
    (L.deliver i gained).sum i = L.sum i ∨ L.sum i = news ∧ (L.deliver i gained).sum i = done := by
  rw [sum_deliver]
  by_cases h : gained.summed
  · exact .inr ⟨sum h, if_pos ⟨rfl, h⟩⟩
  · exact .inl (if_neg fun both => h both.2)

/-- Either node `i` is written for good now, or its writing is where it was. -/
theorem write_deliver_self (write : gained.written → L.write i = news) :
    (L.deliver i gained).write i = L.write i ∨
      L.write i = news ∧ (L.deliver i gained).write i = done := by
  rw [write_deliver]
  by_cases h : gained.written
  · exact .inr ⟨write h, if_pos ⟨rfl, h⟩⟩
  · exact .inl (if_neg fun both => h both.2)

theorem Moves.deliver (lt : i < n) (sum : gained.summed → L.sum i = news)
    (write : gained.written → L.write i = news) :
    L.Moves n (L.deliver i gained) (Duty.ofNews i gained) [] 0 0 := by
  have stay : L.Moves n L [] [] 0 0 := ⟨fun _ => rfl, rfl⟩
  obtain ⟨told, summed, written⟩ := gained
  cases summed with
  | false =>
    cases written with
    | false => exact stay
    | true => exact stay.trans (.write lt (write rfl) done)
  | true =>
    have first := Moves.sum lt (sum rfl) done
    cases written with
    | false => exact first
    | true =>
      have second := Moves.write (L := L.setSum i done) lt (write rfl) done
      exact first.trans second

end Ledger

section
variable {α : Type} {J : Job α} {L : Ledger} {s : Memory α} {task : Task α} {i p l r : Nat}
  {gained : Phase} {a : Ascent}

/-- A node tells its parent what it gained, if no other child has told that before. -/
theorem Ledger.Fits.deliver (fits : L.Fits J.nodes) (gain : GainFits J.nodes i gained)
    (sum : gained.summed → L.sum i = news) (write : gained.written → L.write i = news)
    (alone : ∀ {p l r}, kids J.nodes p = some (l, r) → i = l ∨ i = r →
      (gained.summed → L.sum l ≠ done ∧ L.sum r ≠ done) ∧
        (gained.written → L.write l ≠ done ∧ L.write r ≠ done)) :
    (L.deliver i gained).Fits J.nodes := by
  refine fits.leave J.isTree (L.sameBut_deliver i gained) (sum_deliver_self sum)
    (write_deliver_self write) (fun edge => ?_) (fun h side changed => ?_)
    (fun h side changed => ?_)
  · obtain ⟨summed, written⟩ := gain.both.2 edge
    rw [sum_deliver, write_deliver, if_pos ⟨rfl, summed⟩, if_pos ⟨rfl, written⟩]
  · refine (alone h side).1 (Decidable.not_not.1 fun other => changed ?_)
    rw [sum_deliver, if_neg fun both => other both.2]
  · refine (alone h side).2 (Decidable.not_not.1 fun other => changed ?_)
    rw [write_deliver, if_neg fun both => other both.2]

/-- The cells are none of what the parent is told. -/
theorem Filled.deliver (filled : Filled J L s) (sum : gained.summed → L.sum i = news)
    (write : gained.written → L.write i = news) : Filled J (L.deliver i gained) s := by
  obtain ⟨told, summed, written⟩ := gained
  cases summed with
  | false =>
    cases written with
    | false => exact filled
    | true =>
      exact filled.setWrite (write rfl) done (fun _ => .inl (by decide)) (fun _ => by decide)
  | true =>
    have first := filled.setSum (sum rfl) done (fun _ => .inl (by decide))
    cases written with
    | false => exact first
    | true =>
      exact first.setWrite (write rfl) done (fun _ => .inl (by decide)) (fun _ => by decide)

/-- A task that is to report what a node gained finds it at that stage. -/
theorem Ready.stages (ready : Ready J L s task)
    (duties : task.duties J.nodes = Duty.ofNews i gained) :
    (gained.summed → L.sum i = news) ∧ (gained.written → L.write i = news) := by
  constructor
  · intro h
    exact ready.sum (by simp [duties, Duty.ofNews, h])
  · intro h
    exact ready.write (by simp [duties, Duty.ofNews, h])

/-- The root has no one to report to. -/
theorem Ready.report_root (ready : Ready J L s (.report i gained))
    (up : above J.nodes i = none) :
    ∃ L', Progress J L L' s (.report i gained) (J.plan.step s (.report i gained)) := by
  have gain : GainFits J.nodes i gained := ready.stands
  obtain ⟨node, at_i, -, -, parent, -⟩ := Job.exists_node gain.lt
  obtain ⟨sum, write⟩ := ready.stages rfl
  have root {p l r : Nat} (h : kids J.nodes p = some (l, r)) : ¬ (i = l ∨ i = r) := fun side => by
    rw [J.isTree.above_of_side h side] at up
    cases up
  have step : J.plan.step s (.report i gained) = .on s [] := by
    simp only [Plan.step, at_i, parent, up]
    rfl
  rw [step]
  have fits := ready.fits.deliver gain sum write fun h side => absurd side (root h)
  have moves := Ledger.Moves.deliver gain.lt sum write
  refine ⟨_, .enter fits ?_ ?_ (.refl s) (List.forall_mem_nil _)
    (fun j _ h => h.trans (Ledger.le_write_deliver write j)) moves ?_ ?_⟩
  · refine ⟨fun {p l r} h => ?_, fun {j} h => ?_, fun {j} h off => ?_, fun {j} h => ?_⟩
    · have := root h
      have flags := ready.flagged.inner h
      grind
    · have flags := ready.flagged.leaf h
      grind
    · have flags := ready.flagged.told h off
      grind
    · have flags := ready.flagged.edge h
      grind
  · exact ready.filled.deliver sum write
  · simp [Task.duties]
  · simp [Task.cost, up]

/-- The leaf at the left end is not written before its sibling is known to be. -/
theorem Ready.off_edge_of_written (ready : Ready J L s task) (h : kids J.nodes p = some (l, r))
    (side : i = l ∨ i = r) (gain : GainFits J.nodes i gained)
    (sum : gained.summed → L.sum i = news) (write : gained.written → L.write i = news)
    (written : gained.written ∧ (s.phase p).written) : ¬ IsEdgeLeaf J.nodes i := by
  intro edge
  have inner := ready.fits.inner h
  have flag := (ready.flagged.inner h).2.2.1 written.2
  have sum := sum (gain.both.2 edge).1
  have write := write written.1
  have left : i = l := side.resolve_right fun eq => Job.first_right_pos h (eq ▸ edge.2)
  have right := inner.toldRight.2
  have := ready.summed_of_busy h
  grind

/-- The second of two children that are written takes the news on to its parent. -/
theorem Ready.report_second (ready : Ready J L s (.report i gained))
    (up : above J.nodes i = some p) (written : gained.written ∧ (s.phase p).written) :
    ∃ L', Progress J L L' s (.report i gained) (J.plan.step s (.report i gained)) := by
  have gain : GainFits J.nodes i gained := ready.stands
  obtain ⟨node, at_i, -, -, parent, -⟩ := Job.exists_node gain.lt
  obtain ⟨sum, write⟩ := ready.stages rfl
  obtain ⟨l, r, h, side⟩ := J.isTree.kids_of_above up
  have ltP := (Job.size_of_kids h).1
  have off := ready.off_edge_of_written h side gain sum write written
  obtain rfl : gained = ⟨false, false, true⟩ := by
    obtain ⟨lt, untold, any, both⟩ := gain
    obtain ⟨told, summed, _⟩ := gained
    grind
  have other := (ready.flagged.inner h).2.2.1 written.2
  have mine : L.write i = news := write rfl
  have waits := (ready.fits.inner h).waits_to_write side mine other
  have step : J.plan.step s (.report i ⟨false, false, true⟩) =
      .on s [.report p ⟨false, false, true⟩] := by
    simp only [Plan.step, at_i, parent, up, written.2, Bool.and_self, if_true]
    rfl
  rw [step]
  have order := J.isTree.order h
  have apart : i ≠ p := by grind
  have notLeaf := IsTree.not_isLeaf h
  have atP : (L.setWrite i done).write p = waiting := (if_neg apart.symm).trans waits
  have moves := (Ledger.Moves.write gain.lt mine done).trans (.write ltP atP news)
  refine ⟨_, .enter (ready.fits.finish J.isTree h side mine other off) ?_ ?_ (.refl s) ?_
    (fun j _ written => ?_) moves ?_ ?_⟩
  · have flags := ready.flagged.inner h
    refine ready.flagged.family J.isTree h side (q := s.phase p) (fun j => ?_) (fun j ne top => ?_)
      ?_ ?_ ?_ ?_
    · grind
    · grind
    · grind
    · grind
    · grind
    · grind
  · have child := ready.filled.setWrite mine done (fun _ => .inl (by decide)) (fun _ => by decide)
    exact child.setWrite atP news (fun _ => .inl (by decide)) (absurd · notLeaf)
  · simpa [Task.Stands] using ⟨ltP, rfl, by simp, by simp [IsEdgeLeaf, notLeaf]⟩
  · exact (written.trans (Ledger.le_write_setWrite mine (by decide) j)).trans
      (Ledger.le_write_setWrite atP (by decide) j)
  · simp [Task.duties, Duty.ofNews, Duty.ofWrite_stages, Nat.add_comm]
  · have := Task.cost_report_le J.nodes s p ⟨false, false, true⟩
    have here : 3 ≤ Task.cost J.nodes s (.report i ⟨false, false, true⟩) := by
      simp only [Task.cost, up]
      omega
    simp only [List.map_cons, List.map_nil, List.sum_cons, List.sum_nil,
      Ledger.writeCost_stages]
    omega

/-- A report that does not end looks whether it comes first or second. -/
theorem Ready.report (ready : Ready J L s (.report i gained)) :
    ∃ L', Progress J L L' s (.report i gained) (J.plan.step s (.report i gained)) := by
  cases up : above J.nodes i with
  | none => exact ready.report_root up
  | some p =>
    have gain : GainFits J.nodes i gained := ready.stands
    obtain ⟨node, at_i, -, -, parent, -⟩ := Job.exists_node gain.lt
    by_cases written : gained.written ∧ (s.phase p).written
    · exact ready.report_second up written
    have unwritten : ¬ (gained.written && (s.phase p).written) = true := by simpa using written
    by_cases summed : gained.summed ∧ (s.phase p).summed
    · have both : (gained.summed && (s.phase p).summed) = true := by simpa using summed
      have step : J.plan.step s (.report i gained) =
          .on s [.lookTotal ⟨i, p, gained, s.phase p⟩] := by
        simp only [Plan.step, at_i, parent, up, if_neg unwritten, if_pos both]
        rfl
      rw [step]
      refine ⟨L, .next ready ⟨⟨gain, up, .refl _, written⟩, summed.1, summed.2⟩ rfl ?_⟩
      simp [Task.cost, up]
    · have one : ¬ (gained.summed && (s.phase p).summed) = true := by simpa using summed
      have step : J.plan.step s (.report i gained) =
          .on s [.leave ⟨i, p, gained, s.phase p⟩] := by
        simp only [Plan.step, at_i, parent, up, if_neg unwritten, if_neg one]
        rfl
      rw [step]
      refine ⟨L, .next ready ⟨⟨gain, up, .refl _, written⟩, summed⟩ rfl ?_⟩
      simp [Task.cost, up]

/-- A report whose parent gained a flag since it was looked at is made again. -/
theorem Progress.again (ready : Ready J L s task) (onWay : a.OnWay J.nodes s)
    (changed : s.phase a.parent ≠ a.seen)
    (duties : task.duties J.nodes = Duty.ofNews a.node a.gained)
    (cost : 3 * a.seen.missing + 1 + Task.openCost s a.parent a.gained ≤ task.cost J.nodes s) :
    Progress J L L s task (.on s [.report a.node a.gained]) := by
  refine .next ready onWay.gain duties.symm ?_
  have fewer := onWay.seen.missing_lt (Ne.symm changed)
  have next : Task.cost J.nodes s (.report a.node a.gained) =
      3 * (s.phase a.parent).missing + 3 + Task.openCost s a.parent a.gained := by
    simp only [Task.cost, onWay.parent]
  omega

/-- The first of two children leaves its mark. -/
theorem Ready.leave (ready : Ready J L s (.leave a)) :
    ∃ L', Progress J L L' s (.leave a) (J.plan.step s (.leave a)) := by
  obtain ⟨onWay, alone⟩ := ready.stands
  by_cases same : s.phase a.parent = a.seen
  · obtain ⟨gain, up, -, unwritten⟩ := onWay
    obtain ⟨sum, write⟩ := ready.stages rfl
    obtain ⟨l, r, h, side⟩ := J.isTree.kids_of_above up
    have lt : a.parent < s.phases.size := ready.filled.sizes.1 ▸ (Job.size_of_kids h).1
    have order := J.isTree.order h
    have flags := ready.flagged.inner h
    have step : J.plan.step s (.leave a) =
        .on (s.setPhase a.parent (a.seen.union a.gained)) [] := by
      simp only [Plan.step, Memory.exchange_of_eq same]
      rfl
    rw [step, ← same]
    rw [← same] at alone unwritten
    have moves := Ledger.Moves.deliver gain.lt sum write
    have fits : (L.deliver a.node a.gained).Fits J.nodes := by
      refine ready.fits.deliver gain sum write fun {p' l' r'} h' side' => ?_
      have up' := J.isTree.above_of_side h' side'
      obtain rfl : a.parent = p' := Option.some.inj (up.symm.trans up')
      have flags := ready.flagged.inner h'
      refine ⟨fun summed => not_or.1 fun told => ?_, fun written => not_or.1 fun told => ?_⟩
      · exact alone ⟨summed, flags.2.1.2 told⟩
      · exact unwritten ⟨written, flags.2.2.2 told⟩
    refine ⟨_, .enter fits ?_ (.setPhase ?_ _ _) (.setPhase lt (.union_left _ _))
      (List.forall_mem_nil _) (fun j _ h => h.trans (Ledger.le_write_deliver write j)) moves ?_ ?_⟩
    · refine ready.flagged.family J.isTree h side (Memory.phase_setPhase lt _)
        (fun j ne _ => L.sameBut_deliver _ _ j ne) (Ledger.sum_deliver_self sum)
        (Ledger.write_deliver_self write) ?_ ?_
      · grind
      · have untold := gain.untold
        simp only [Phase.union]
        grind
    · exact ready.filled.deliver sum write
    · simp [Task.duties]
    · simp only [List.map_nil, List.sum_nil, Task.cost]
      omega
  · have step : J.plan.step s (.leave a) = .on s [.report a.node a.gained] := by
      simp only [Plan.step, Memory.exchange_of_ne same]
      rfl
    rw [step]
    exact ⟨L, .again ready onWay same rfl (Nat.le_refl _)⟩

/-- Whoever joins two totals finds both of them set. -/
theorem Ready.totals_of_joins (ready : Ready J L s task) (joins : a.Joins J.nodes s)
    (duties : task.duties J.nodes = Duty.ofNews a.node a.gained)
    (h : kids J.nodes a.parent = some (l, r)) :
    (L.sum l = done ∨ L.sum r = done) ∧ L.sum a.node = Stage.news ∧ (a.node = l ∨ a.node = r) ∧
      s.total? l = J.total l ∧ s.total? r = J.total r := by
  obtain ⟨-, ltL, ltR⟩ := Job.size_of_kids h
  obtain ⟨l', r', h', side⟩ := J.isTree.kids_of_above joins.onWay.parent
  rw [h] at h'
  obtain ⟨rfl, rfl⟩ : l = l' ∧ r = r' := by grind
  have mine := (ready.stages duties).1 joins.gained
  have other := (ready.flagged.inner h).2.1.1 (joins.onWay.seen.summed joins.seen)
  refine ⟨other, mine, side, ready.filled.summed ltL ?_, ready.filled.summed ltR ?_⟩
  · grind
  · grind

theorem Ready.lookTotal (ready : Ready J L s (.lookTotal a)) :
    ∃ L', Progress J L L' s (.lookTotal a) (J.plan.step s (.lookTotal a)) := by
  have joins : a.Joins J.nodes s := ready.stands
  obtain ⟨l, r, h, -⟩ := J.isTree.kids_of_above joins.onWay.parent
  obtain ⟨node, at_p, -, -, -, children⟩ := Job.exists_node (Job.size_of_kids h).1
  cases set : s.total? a.parent with
  | some x =>
    have step : J.plan.step s (.lookTotal a) = .on s [.mark a] := by
      simp only [Plan.step, set]
      rfl
    rw [step]
    have total := (ready.filled.total a.parent).resolve_left (by simp [set])
    refine ⟨L, .next ready ⟨joins, total⟩ rfl ?_⟩
    simp only [Task.cost]
    omega
  | none =>
    have step : J.plan.step s (.lookTotal a) = .on s [.joinLeft a l r] := by
      simp only [Plan.step, set, at_p, Option.bind_some, children, h]
      rfl
    rw [step]
    refine ⟨L, .next ready ⟨joins, h⟩ rfl ?_⟩
    simp [Task.cost, Task.openCost, set, joins.gained]

theorem Ready.joinLeft (ready : Ready J L s (.joinLeft a l r)) :
    ∃ L', Progress J L L' s (.joinLeft a l r) (J.plan.step s (.joinLeft a l r)) := by
  obtain ⟨joins, h⟩ := ready.stands
  obtain ⟨x, total⟩ := Option.isSome_iff_exists.1 (Job.isSome_total (Job.size_of_kids h).2.1)
  have set := (ready.totals_of_joins joins rfl h).2.2.2.1
  have step : J.plan.step s (.joinLeft a l r) = .on s [.joinRight a r x] := by
    simp only [Plan.step, set, total]
    rfl
  rw [step]
  refine ⟨L, .next ready ⟨joins, l, h, total⟩ rfl ?_⟩
  simp [Task.cost]

theorem Ready.joinRight {x : α} (ready : Ready J L s (.joinRight a r x)) :
    ∃ L', Progress J L L' s (.joinRight a r x) (J.plan.step s (.joinRight a r x)) := by
  obtain ⟨joins, l, h, left⟩ := ready.stands
  obtain ⟨y, total⟩ := Option.isSome_iff_exists.1 (Job.isSome_total (Job.size_of_kids h).2.2)
  have set := (ready.totals_of_joins joins rfl h).2.2.2.2
  have step : J.plan.step s (.joinRight a r x) = .on s [.joinTotals a x y] := by
    simp only [Plan.step, set, total]
    rfl
  rw [step]
  refine ⟨L, .next ready ⟨joins, Job.total_of_kids h left total⟩ rfl ?_⟩
  simp [Task.cost]

theorem Ready.joinTotals {x y : α} (ready : Ready J L s (.joinTotals a x y)) :
    ∃ L', Progress J L L' s (.joinTotals a x y) (J.plan.step s (.joinTotals a x y)) := by
  obtain ⟨joins, total⟩ := ready.stands
  have step : J.plan.step s (.joinTotals a x y) = .on s [.setTotal a (J.op x y)] := rfl
  rw [step]
  refine ⟨L, .next ready ⟨joins, total⟩ rfl ?_⟩
  simp [Task.cost]

theorem Ready.setTotal {x : α} (ready : Ready J L s (.setTotal a x)) :
    ∃ L', Progress J L L' s (.setTotal a x) (J.plan.step s (.setTotal a x)) := by
  obtain ⟨joins, total⟩ := ready.stands
  obtain ⟨l, r, h, -⟩ := J.isTree.kids_of_above joins.onWay.parent
  have ltP := (Job.size_of_kids h).1
  have lt : a.parent < s.totals.size := ready.filled.sizes.2.2.1 ▸ ltP
  have grows : s.Grows (s.setTotal a.parent x) := .setTotal lt x
  have set : (s.setTotal a.parent x).total? a.parent = J.total a.parent := by
    have set := ready.filled.total a.parent
    rw [Memory.total?_setTotal lt, if_pos rfl, total]
    rw [total] at set
    rcases set with set | set <;> simp [set]
  have step : J.plan.step s (.setTotal a x) = .on (s.setTotal a.parent x) [.mark a] := rfl
  rw [step]
  refine ⟨L, .stay ready ⟨ready.flagged.inner, ready.flagged.leaf,
    ready.flagged.told, ready.flagged.edge⟩ (ready.filled.setTotal ltP total) grows ?_ ?_ ?_⟩
  · simpa [Task.Stands] using ⟨joins.of_grows grows, set⟩
  · simp [Task.duties]
  · simp [Task.cost]

theorem Ready.restart (ready : Ready J L s (.restart p)) :
    ∃ L', Progress J L L' s (.restart p) (J.plan.step s (.restart p)) := by
  obtain ⟨l, r, h⟩ := ready.stands
  have lt := (Job.size_of_kids h).1
  have notLeaf := IsTree.not_isLeaf h
  obtain ⟨node, at_p, -⟩ := Job.exists_node lt
  have step : J.plan.step s (.restart p) =
      .on { s with started := s.started.push (node.lo, node.hi) }
        [.report p ⟨false, true, false⟩, .visit p] := by
    simp only [Plan.step, at_p]
    rfl
  rw [step]
  have cost := Task.cost_report_le J.nodes
    { s with started := s.started.push (node.lo, node.hi) } p ⟨false, true, false⟩
  refine ⟨L, .stay ready ⟨ready.flagged.inner, ready.flagged.leaf, ready.flagged.told,
    ready.flagged.edge⟩ ⟨ready.filled.sizes, ready.filled.total, ready.filled.before,
    ready.filled.summed, ready.filled.told, ready.filled.leaf⟩ ⟨fun _ => .refl _, id, id⟩
    ?_ ?_ ?_⟩
  · simpa [Task.Stands, lt] using ⟨lt, rfl, by simp, by simp [IsEdgeLeaf, notLeaf]⟩
  · simp [Task.duties, Duty.ofNews]
  · simp only [List.map_cons, List.map_nil, List.sum_cons, List.sum_nil]
    simp only [Task.cost] at cost ⊢
    omega

/-- What whoever marks a parent finds: the parent waits for it, and was not told to write. -/
structure Marks (J : Job α) (L : Ledger) (s : Memory α) (a : Ascent) (l r : Nat) : Prop where
  below : kids J.nodes a.parent = some (l, r)
  side : a.node = l ∨ a.node = r
  other : L.sum l = done ∨ L.sum r = done
  sum : L.sum a.node = Stage.news
  write : a.gained.written → L.write a.node = Stage.news
  waits : L.sum a.parent = waiting
  untold : L.write a.parent = idle
  seen : ¬ a.seen.told

theorem Ready.marks (ready : Ready J L s (.mark a)) : ∃ l r, Marks J L s a l r := by
  obtain ⟨joins, -⟩ := ready.stands
  obtain ⟨l, r, h, side⟩ := J.isTree.kids_of_above joins.onWay.parent
  obtain ⟨other, mine, -⟩ := ready.totals_of_joins joins rfl h
  obtain ⟨waits, untold, -⟩ := (ready.fits.inner h).waits_of_news side mine other
  have told := (ready.flagged.inner h).1
  exact ⟨l, r, h, side, other, mine, (ready.stages rfl).2, waits, untold,
    fun seen => told.1 (joins.onWay.seen.told seen) untold⟩

/-- Marking a parent: the ledger goes on at the child and at the parent. -/
def Ledger.join (L : Ledger) (a : Ascent) (w : Nat) : Ledger :=
  ((L.deliver a.node a.gained).setSum a.parent news).setWrite a.parent w

theorem Marks.apart (marks : Marks J L s a l r) : a.node ≠ a.parent := by
  have order := J.isTree.order marks.below
  rcases marks.side with left | right
  · omega
  · omega

/-- What the child gained is no entry at the parent. -/
theorem Marks.atParent (marks : Marks J L s a l r) :
    (L.deliver a.node a.gained).sum a.parent = waiting ∧
      (L.deliver a.node a.gained).write a.parent = idle := by
  rw [Ledger.sum_deliver, Ledger.write_deliver, if_neg fun eq => marks.apart eq.1.symm,
    if_neg fun eq => marks.apart eq.1.symm]
  exact ⟨marks.waits, marks.untold⟩

theorem Marks.fits (marks : Marks J L s a l r) (ready : Ready J L s (.mark a)) {w : Nat}
    (eq : w = if first J.nodes a.parent = 0 then due else idle) :
    (L.join a w).Fits J.nodes := by
  have joins := ready.stands.1
  have gained := joins.gained
  have apart := marks.apart
  have both : a.gained.written ↔ IsEdgeLeaf J.nodes a.node := by
    rw [← joins.onWay.gain.both]
    simp [gained]
  have untold := marks.untold
  simp only [Ledger.join]
  refine ready.fits.join J.isTree marks.below marks.side marks.sum marks.other
    (fun j ne top => ?_) ?_ ?_ ?_ ?_
  · grind
  · grind
  · grind
  · rw [Ledger.write_setWrite, if_neg apart, Ledger.write_setSum, Ledger.write_deliver]
    simp [both]
  · grind

theorem Marks.filled (marks : Marks J L s a l r) (ready : Ready J L s (.mark a)) {w : Nat}
    (eq : w = if first J.nodes a.parent = 0 then due else idle) : Filled J (L.join a w) s := by
  have set := ready.stands.2
  have notLeaf := IsTree.not_isLeaf marks.below
  obtain ⟨waits, untold⟩ := marks.atParent
  have child := ready.filled.deliver (fun _ => marks.sum) marks.write
  refine (child.setSum waits news (fun _ => .inr set)).setWrite untold w (fun told => ?_)
    (absurd · notLeaf)
  by_cases edge : first J.nodes a.parent = 0
  · exact .inr (.inl edge)
  · exact absurd (eq.trans (if_neg edge)) told

theorem Marks.moves (marks : Marks J L s a l r) (ready : Ready J L s (.mark a)) (w : Nat) :
    L.Moves J.nodes.size (L.join a w) (Duty.ofNews a.node a.gained)
      (.sum a.parent Stage.news :: Duty.ofWrite a.parent w) 42 (Ledger.writeCost w) := by
  have joins := ready.stands.1
  have ltP := (Job.size_of_kids marks.below).1
  obtain ⟨waits, untold⟩ := marks.atParent
  have moves := ((Ledger.Moves.deliver joins.onWay.gain.lt (fun _ => marks.sum) marks.write).trans
    (.sum ltP waits Stage.news)).trans
    (.write (L := (L.deliver a.node a.gained).setSum a.parent Stage.news) ltP untold w)
  simpa [Ledger.join, Duty.ofSum_stages, Duty.ofWrite_stages, Ledger.sumCost_stages,
    Ledger.writeCost_stages] using moves

/-- The flags fit once the parent has phase `q`, which is the phase it had with those that the child
gained. -/
theorem Marks.flagged (marks : Marks J L s a l r) (ready : Ready J L s (.mark a)) {w : Nat}
    (eq : w = if first J.nodes a.parent = 0 then due else idle) {s' : Memory α} {q : Phase}
    (phase : ∀ j, s'.phase j = if j = a.parent then q else s.phase j)
    (told : q.told ↔ first J.nodes a.parent = 0) (summed : q.summed)
    (written : q.written ↔ (s.phase a.parent).written ∨ a.gained.written) :
    Flagged J.nodes (L.join a w) s' := by
  have gained := ready.stands.1.gained
  have flags := ready.flagged.inner marks.below
  have order := J.isTree.order marks.below
  have apart := marks.apart
  obtain ⟨below, side, other, sum, write, waits, untold, seen⟩ := marks
  simp only [Ledger.join]
  refine ready.flagged.family J.isTree below side phase (fun j ne top => ?_) ?_ ?_ ?_ ?_
  · grind
  · grind
  · grind
  · grind
  · refine ⟨?_, ?_, ?_⟩
    · grind
    · grind
    · grind

/-- What comes of a look at a parent that is to be marked, where `q` is the phase with the mark. -/
theorem Marks.step (marks : Marks J L s a l r) {q : Phase}
    (new : (a.seen.union a.gained).union { told := first J.nodes a.parent = 0 } = q) :
    J.plan.step s (.mark a) =
      if q = a.seen then .on s [.report a.parent ⟨false, true, false⟩]
      else if s.phase a.parent = a.seen then
        if first J.nodes a.parent = 0 then .on (s.setPhase a.parent q) [.restart a.parent]
        else .on (s.setPhase a.parent q) [.report a.parent ⟨false, true, false⟩]
      else .on s [.report a.node a.gained] := by
  obtain ⟨node, at_p, lo, -⟩ := Job.exists_node (Job.size_of_kids marks.below).1
  have restart : (!a.seen.told && node.lo == 0) = decide (first J.nodes a.parent = 0) := by
    have untold : a.seen.told = false := by simpa using marks.seen
    rw [untold, lo]
    exact beq_eq_decide _ _
  simp only [Plan.step, at_p, restart, new]
  by_cases known : q = a.seen
  · rw [if_pos known, if_pos known]
    rfl
  rw [if_neg known, if_neg known]
  by_cases same : s.phase a.parent = a.seen
  · rw [if_pos same, Memory.exchange_of_eq same]
    by_cases edge : first J.nodes a.parent = 0
    · simp only [decide_eq_true edge, if_pos edge]
      rfl
    · simp only [decide_eq_false edge, if_neg edge]
      rfl
  · rw [if_neg same, Memory.exchange_of_ne same]
    rfl

/-- The parent is reported summed, once it needs no mark or has got it. -/
theorem Marks.progress (marks : Marks J L s a l r) (ready : Ready J L s (.mark a))
    {s' : Memory α} {tasks : List (Task α)} {w : Nat}
    (eq : w = if first J.nodes a.parent = 0 then due else idle)
    (flagged : Flagged J.nodes (L.join a w) s') (filled : Filled J (L.join a w) s')
    (grows : s.Grows s') (stands : ∀ task' ∈ tasks, task'.Stands J s')
    (duties : tasks.flatMap (Task.duties J.nodes) =
      .sum a.parent Stage.news :: Duty.ofWrite a.parent w)
    (cheap : (tasks.map (Task.cost J.nodes s')).sum ≤ 18) :
    Progress J L (L.join a w) s (.mark a) (.on s' tasks) := by
  refine .enter (marks.fits ready eq) flagged filled grows stands (fun j _ written => ?_)
    (marks.moves ready w) (fun d _ => ?_) ?_
  · have child := Ledger.le_write_deliver marks.write j
    exact (written.trans child).trans (Ledger.le_write_setWrite
      (L := (L.deliver a.node a.gained).setSum a.parent news) marks.atParent.2 (Nat.zero_le w) j)
  · rw [duties, Nat.add_comm]
    rfl
  · have spent : Ledger.writeCost w = 24 := by
      rw [eq]
      split <;> rfl
    simp only [Task.cost]
    omega

/-- What is reported of the parent is that it is summed. -/
theorem Marks.gainFits (marks : Marks J L s a l r) :
    GainFits J.nodes a.parent ⟨false, true, false⟩ := by
  have notLeaf := IsTree.not_isLeaf marks.below
  exact ⟨(Job.size_of_kids marks.below).1, rfl, .inl rfl, by simp [IsEdgeLeaf, notLeaf]⟩

/-- The flags of the phase with the mark. -/
theorem Marks.flags (marks : Marks J L s a l r) (ready : Ready J L s (.mark a)) {q : Phase}
    (new : (a.seen.union a.gained).union { told := first J.nodes a.parent = 0 } = q) :
    (q.told ↔ first J.nodes a.parent = 0) ∧ q.summed ∧
      (q.written ↔ a.seen.written ∨ a.gained.written) := by
  have joins := ready.stands.1
  have untold : a.seen.told = false := by simpa using marks.seen
  rw [← new]
  simp [Phase.union, untold, joins.onWay.gain.untold, joins.seen]

/-- Off the left edge the parent is reported, and not written yet. -/
theorem Marks.reports (marks : Marks J L s a l r) (ready : Ready J L s (.mark a))
    (off : first J.nodes a.parent ≠ 0) {s' : Memory α}
    (flagged : Flagged J.nodes (L.join a idle) s') (filled : Filled J (L.join a idle) s')
    (grows : s.Grows s') : Progress J L (L.join a idle) s (.mark a)
      (.on s' [.report a.parent ⟨false, true, false⟩]) := by
  refine marks.progress ready (if_neg off).symm flagged filled grows ?_ ?_ ?_
  · simpa [Task.Stands] using marks.gainFits
  · simp [Task.duties, Duty.ofNews, Duty.ofWrite_stages]
  · have := Task.cost_report_le J.nodes s' a.parent ⟨false, true, false⟩
    simp only [List.map_cons, List.map_nil, List.sum_cons, List.sum_nil]
    omega

/-- A parent whose phase needs no mark is off the left edge, and stays as it is. -/
theorem Marks.known (marks : Marks J L s a l r) (ready : Ready J L s (.mark a))
    (known : (a.seen.union a.gained).union { told := first J.nodes a.parent = 0 } = a.seen) :
    Progress J L (L.join a idle) s (.mark a) (.on s [.report a.parent ⟨false, true, false⟩]) := by
  obtain ⟨joins, -⟩ := ready.stands
  obtain ⟨told, -, written⟩ := marks.flags ready known
  have off : first J.nodes a.parent ≠ 0 := fun edge => marks.seen (told.mpr edge)
  have unwritten : ¬ a.gained.written := by
    have := joins.onWay.unwritten
    grind
  have untold := (ready.flagged.inner marks.below).1
  have eq : idle = if first J.nodes a.parent = 0 then due else idle := (if_neg off).symm
  refine marks.reports ready off (marks.flagged ready eq (q := s.phase a.parent) (fun j => ?_) ?_
    (joins.onWay.seen.summed joins.seen) ?_) (marks.filled ready eq) (.refl s)
  · split
    · next eq => rw [eq]
    · rfl
  · have := marks.untold
    grind
  · grind

/-- Whoever marks the parent on the left edge is to start its writing. -/
theorem Marks.won (marks : Marks J L s a l r) (ready : Ready J L s (.mark a)) {q : Phase}
    (new : (a.seen.union a.gained).union { told := first J.nodes a.parent = 0 } = q)
    (same : s.phase a.parent = a.seen) : ∃ L', Progress J L L' s (.mark a)
      (if first J.nodes a.parent = 0 then .on (s.setPhase a.parent q) [.restart a.parent]
        else .on (s.setPhase a.parent q) [.report a.parent ⟨false, true, false⟩]) := by
  have lt : a.parent < s.phases.size := ready.filled.sizes.1 ▸ (Job.size_of_kids marks.below).1
  obtain ⟨told, summed, written⟩ := marks.flags ready new
  rw [← same] at written
  have flagged {w : Nat} (eq : w = if first J.nodes a.parent = 0 then due else idle) :=
    marks.flagged ready eq (Memory.phase_setPhase lt q) told summed written
  have filled {w : Nat} (eq : w = if first J.nodes a.parent = 0 then due else idle) :=
    (marks.filled ready eq).setPhase a.parent q
  have grows : s.Grows (s.setPhase a.parent q) := by
    refine .setPhase lt ?_
    rw [same, ← new]
    exact (Phase.Within.union_left _ _).trans (.union_left _ _)
  by_cases edge : first J.nodes a.parent = 0
  · have eq : due = if first J.nodes a.parent = 0 then due else idle := (if_pos edge).symm
    rw [if_pos edge]
    refine ⟨_, marks.progress ready eq (flagged eq) (filled eq) grows ?_ ?_ ?_⟩
    · simpa [Task.Stands] using ⟨l, r, marks.below⟩
    · simp [Task.duties, Duty.ofWrite_stages]
    · simp [Task.cost]
  · have eq : idle = if first J.nodes a.parent = 0 then due else idle := (if_neg edge).symm
    rw [if_neg edge]
    exact ⟨_, marks.reports ready edge (flagged eq) (filled eq) grows⟩

/-- The second of two children that are summed marks its parent, or finds nothing to mark, or
looks at it again. -/
theorem Ready.mark (ready : Ready J L s (.mark a)) :
    ∃ L', Progress J L L' s (.mark a) (J.plan.step s (.mark a)) := by
  obtain ⟨joins, set⟩ := ready.stands
  obtain ⟨l, r, marks⟩ := ready.marks
  rw [marks.step rfl]
  split
  · next known => exact ⟨_, marks.known ready known⟩
  split
  · next same => exact marks.won ready rfl same
  · next other =>
    refine ⟨L, .again ready joins.onWay other rfl ?_⟩
    obtain ⟨x, total⟩ := Option.isSome_iff_exists.1
      (Job.isSome_total (Job.size_of_kids marks.below).1)
    simp [Task.cost, Task.openCost, set, total]

end

end Bisection.Scan
