import Bisection.Proofs.Scan.Descent

/-!
# Steps on a leaf

A leaf is claimed once to be summed and once to be written, or once for both at the left end. No
other task touches its phase between the look that a visit takes at it and the claim, so each claim
succeeds at once. From there on the task has the leaf to itself, and what it reads, writes and sums
is what the recursion says.
-/

namespace Bisection.Scan
set_option autoImplicit false

open Stage

section
variable {α : Type} {J : Job α} {L : Ledger} {s : Memory α} {task : Task α} {i : Nat}
  {seen gained : Phase} {x : α}

/-- A leaf that is to be summed has no flag, and is not to be written yet. -/
theorem Ready.phase_of_unsummed (ready : Ready J L s task) (leaf : IsLeaf J.nodes i)
    (sum : L.sum i = due ∨ L.sum i = claimed) : s.phase i = {} ∧ L.write i = idle := by
  have flags := ready.flagged.leaf leaf
  have write : L.write i = idle := by
    by_cases edge : first J.nodes i = 0
    · have := (ready.fits.leaf leaf).edge edge
      grind
    · by_contra told
      have := ready.fits.news_le_sum J.isTree leaf.1 (fun e => edge e.2) told
      grind
  have told : ¬ (s.phase i).told := by
    by_cases edge : first J.nodes i = 0
    · have := ready.flagged.edge ⟨leaf, edge⟩
      grind
    · have := ready.flagged.told leaf edge
      grind
  refine ⟨Phase.Within.antisymm ⟨fun h => absurd h told, ?_, ?_⟩ (.empty _), write⟩
  · grind
  · grind

/-- A leaf that is to be written by itself is summed, told to write and not written. -/
theorem Ready.phase_of_unwritten (ready : Ready J L s task) (leaf : IsLeaf J.nodes i)
    (write : L.write i = due ∨ L.write i = claimed) :
    s.phase i = ⟨true, true, false⟩ ∧ first J.nodes i ≠ 0 := by
  have flags := ready.flagged.leaf leaf
  have off : first J.nodes i ≠ 0 := by
    intro edge
    have := (ready.fits.leaf leaf).edge edge
    grind
  have told := ready.flagged.told leaf off
  have summed := ready.fits.news_le_sum J.isTree leaf.1 (fun e => off e.2) (by grind)
  refine ⟨Phase.Within.antisymm ⟨fun _ => rfl, fun _ => rfl, ?_⟩
    ⟨fun _ => ?_, fun _ => ?_, fun h => absurd h Bool.false_ne_true⟩, off⟩
  · grind
  · grind
  · grind

/-- Nothing comes of a second visit of the leaf at the left end. -/
theorem Ready.visit_written (ready : Ready J L s (.visit i)) (leaf : IsEdgeLeaf J.nodes i)
    (write : busy ≤ L.write i) :
    ∃ L', Progress J L L' s (.visit i) (J.plan.step s (.visit i)) := by
  obtain ⟨node, at_i, -, -, -, children⟩ := Job.exists_node leaf.1.1
  have written : (s.phase i).written := (ready.flagged.leaf leaf.1).2.2 write
  have step : J.plan.step s (.visit i) = .on s [] := by
    simp only [Plan.step, at_i, children, leaf.1.2, if_pos written]
    rfl
  rw [step]
  have moves : L.Moves J.nodes.size L [] [] 0 0 := ⟨fun _ => rfl, rfl⟩
  refine ⟨_, .enter ready.fits ready.flagged ready.filled (.refl s) (List.forall_mem_nil _)
    (fun _ _ => id) moves (fun d counts => ?_) ?_⟩
  · have other : d ≠ .visit i := by
      rintro rfl
      exact counts ⟨i, rfl, leaf, write⟩
    simp [Task.duties, other.symm]
  · simp [Task.cost]

/-- A visit of a leaf finds what is to be done there. -/
theorem Ready.visit_leaf (ready : Ready J L s (.visit i)) (leaf : IsLeaf J.nodes i) :
    ∃ L', Progress J L L' s (.visit i) (J.plan.step s (.visit i)) := by
  obtain ⟨node, at_i, -, -, -, children⟩ := Job.exists_node leaf.1
  by_cases counts : Duty.Exempt J.nodes L (.visit i)
  · obtain ⟨j, ⟨⟩, edge, write⟩ := counts
    exact ready.visit_written edge write
  have step (unwritten : ¬ (s.phase i).written) :
      J.plan.step s (.visit i) = .on s [.claimLeaf i (s.phase i)] := by
    simp only [Plan.step, at_i, children, leaf.2, if_neg unwritten]
    rfl
  rcases ready.due_of_visit counts with sum | write
  · obtain ⟨phase, idles⟩ := ready.phase_of_unsummed leaf (.inl sum)
    rw [step (by simp [phase])]
    have moves := Ledger.Moves.sum leaf.1 sum claimed
    refine ⟨L.setSum i claimed, .enter ?_ ?_ ?_ (.refl s) ?_ (fun _ _ => id) moves ?_ ?_⟩
    · exact ready.fits.sumLeaf J.isTree leaf sum claimed (by decide)
        (fun _ => .inl ⟨idles, by decide⟩)
    · exact ready.flagged.setSum sum claimed (by decide) (fun _ => by decide)
    · exact ready.filled.setSum sum claimed (absurd · (by decide))
    · simpa [Task.Stands, phase] using ⟨leaf, .refl _⟩
    · simp [Task.duties, Duty.ofSum_stages, phase, Nat.add_comm]
    · simp [Task.cost, Ledger.sumCost_stages]
  · obtain ⟨phase, off⟩ := ready.phase_of_unwritten leaf (.inl write)
    rw [step (by simp [phase])]
    have moves := Ledger.Moves.write leaf.1 write claimed
    refine ⟨_, .enter ?_ ?_ ?_ (.refl s) ?_ (fun j _ written => ?_) moves ?_ ?_⟩
    · exact ready.fits.writeLeaf J.isTree leaf write claimed (by decide) (absurd · off)
    · exact ready.flagged.setWrite write claimed (by decide) (by decide) (fun _ => by decide)
    · exact ready.filled.setWrite write claimed (fun _ => .inl (by decide)) (fun _ => by decide)
    · simpa [Task.Stands, phase] using ⟨leaf, .refl _⟩
    · exact written.trans (Ledger.le_write_setWrite write (by decide) j)
    · simp [Task.duties, Duty.ofWrite_stages, phase, Nat.add_comm]
    · simp [Task.cost, Ledger.writeCost_stages]

/-- The claim of a leaf that was told to write finds it summed. -/
theorem Ready.step_claimLeaf_told (ready : Ready J L s (.claimLeaf i seen)) (told : seen.told) :
    seen = ⟨true, true, false⟩ ∧ s.phase i = ⟨true, true, false⟩ ∧ first J.nodes i ≠ 0 ∧
      J.plan.step s (.claimLeaf i seen) =
        .on (s.setPhase i ⟨true, true, true⟩) [.readStart i ⟨false, false, true⟩] := by
  obtain ⟨leaf, within, -, summed⟩ := ready.stands
  obtain ⟨node, at_i, lo, -⟩ := Job.exists_node leaf.1
  have write : L.write i = claimed := ready.write (by simp [Task.duties, told])
  obtain ⟨phase, off⟩ := ready.phase_of_unwritten leaf (.inr write)
  obtain rfl : seen = ⟨true, true, false⟩ :=
    Phase.Within.antisymm (phase ▸ within)
      ⟨fun _ => told, fun _ => summed told, fun h => absurd h Bool.false_ne_true⟩
  refine ⟨rfl, phase, off, ?_⟩
  simp only [Plan.step, at_i, Plan.gain, if_true, Memory.exchange_of_eq phase, Phase.union,
    Bool.not_true, Bool.false_eq_true, if_false, lo, if_neg off]
  rfl

/-- The claim of a leaf that was not told to write finds it with no flag. -/
theorem Ready.step_claimLeaf_untold (ready : Ready J L s (.claimLeaf i seen))
    (untold : ¬ seen.told) : seen = {} ∧ s.phase i = {} ∧ L.write i = idle ∧
      J.plan.step s (.claimLeaf i seen) =
        if first J.nodes i = 0 then
          .on (s.setPhase i ⟨false, true, true⟩) [.writeLeaf i ⟨false, true, true⟩ J.base]
        else .on (s.setPhase i ⟨false, true, false⟩) [.sumLeaf i] := by
  obtain ⟨leaf, within, -⟩ := ready.stands
  obtain ⟨node, at_i, lo, -⟩ := Job.exists_node leaf.1
  have sum : L.sum i = claimed := ready.sum (by simp [Task.duties, untold])
  obtain ⟨phase, write⟩ := ready.phase_of_unsummed leaf (.inr sum)
  obtain rfl : seen = {} := Phase.Within.antisymm (phase ▸ within) (.empty seen)
  refine ⟨rfl, phase, write, ?_⟩
  by_cases edge : first J.nodes i = 0
  · rw [if_pos edge]
    simp only [Plan.step, at_i, Plan.gain, Bool.false_eq_true, if_false, lo, edge,
      Nat.lt_irrefl, Memory.exchange_of_eq phase, Phase.union, Bool.not_true, if_true]
    rfl
  · rw [if_neg edge]
    simp only [Plan.step, at_i, Plan.gain, Bool.false_eq_true, if_false, lo,
      if_pos (Nat.pos_of_ne_zero edge), Memory.exchange_of_eq phase, Phase.union,
      Bool.not_true, Bool.not_false, if_true]
    rfl

/-- The claim of a leaf that was told to write. -/
theorem Ready.claimLeaf_told (ready : Ready J L s (.claimLeaf i seen)) (told : seen.told) :
    ∃ L', Progress J L L' s (.claimLeaf i seen) (J.plan.step s (.claimLeaf i seen)) := by
  have leaf := ready.stands.1
  have lt : i < s.phases.size := ready.filled.sizes.1 ▸ leaf.1
  have write : L.write i = claimed := ready.write (by simp [Task.duties, told])
  obtain ⟨rfl, phase, off, step⟩ := ready.step_claimLeaf_told told
  rw [step]
  have moves := Ledger.Moves.write leaf.1 write busy
  have grows : s.Grows (s.setPhase i ⟨true, true, true⟩) :=
    .setPhase lt ⟨fun _ => rfl, fun _ => rfl, fun _ => rfl⟩
  refine ⟨_, .enter ?_ ?_ (.setPhase ?_ _ _) grows ?_ (fun j _ written => ?_) moves ?_ ?_⟩
  · exact ready.fits.writeLeaf J.isTree leaf write busy (by decide) (absurd · off)
  · have flags := ready.flagged.leaf leaf
    refine ready.flagged.claim lt leaf (L.sameBut_setWrite i _) ?_ ?_ ?_
    · grind
    · grind
    · grind
  · exact ready.filled.setWrite write busy (fun _ => .inl (by decide)) (fun _ => by decide)
  · simpa [Task.Stands] using ⟨leaf, off⟩
  · exact written.trans (Ledger.le_write_setWrite write (by decide) j)
  · simp [Task.duties, Duty.ofWrite_stages, Nat.add_comm]
  · simp [Task.cost, Ledger.writeCost_stages]

/-- The claim of a leaf that was not told to write. -/
theorem Ready.claimLeaf_untold (ready : Ready J L s (.claimLeaf i seen))
    (untold : ¬ seen.told) :
    ∃ L', Progress J L L' s (.claimLeaf i seen) (J.plan.step s (.claimLeaf i seen)) := by
  have leaf := ready.stands.1
  have lt : i < s.phases.size := ready.filled.sizes.1 ▸ leaf.1
  have sum : L.sum i = claimed := ready.sum (by simp [Task.duties, untold])
  obtain ⟨rfl, phase, write, step⟩ := ready.step_claimLeaf_untold untold
  have fitsLeaf := ready.fits.leaf leaf
  rw [step]
  by_cases edge : first J.nodes i = 0
  · rw [if_pos edge]
    have moves := (Ledger.Moves.sum leaf.1 sum busy).trans
      (.write (L := L.setSum i busy) leaf.1 write busy)
    have same := (L.sameBut_setSum i busy).setWrite busy
    have grows : s.Grows (s.setPhase i ⟨false, true, true⟩) :=
      .setPhase lt ⟨by simp [phase], fun _ => rfl, fun _ => rfl⟩
    refine ⟨_, .enter (ready.fits.enterLeaf J.isTree leaf same (.inr ?_) (.inr ?_) ?_)
      ?_ (.setPhase ?_ _ _) grows ?_ (fun j _ written => ?_) moves ?_ ?_⟩
    · grind
    · grind
    · constructor <;> grind
    · refine ready.flagged.claim lt leaf same ?_ ?_ ?_
      · grind
      · grind
      · grind
    · have summed := ready.filled.setSum sum busy (absurd · (by decide))
      exact summed.setWrite write busy (fun _ => .inr (.inl edge)) (fun _ => by decide)
    · simpa [Task.Stands, edge] using ⟨leaf, (Job.before_edge leaf.1 edge).symm⟩
    · exact written.trans (Ledger.le_write_setWrite (L := L.setSum i busy) write (by decide) j)
    · simp [Task.duties, Duty.ofSum_stages, Duty.ofWrite_stages, Nat.add_comm]
    · simp [Task.cost, Ledger.sumCost_stages, Ledger.writeCost_stages]
  · rw [if_neg edge]
    have moves := Ledger.Moves.sum leaf.1 sum busy
    have grows : s.Grows (s.setPhase i ⟨false, true, false⟩) :=
      .setPhase lt ⟨by simp [phase], fun _ => rfl, by simp [phase]⟩
    refine ⟨L.setSum i busy, .enter ?_ ?_ (.setPhase ?_ _ _) grows ?_ (fun _ _ => id) moves ?_ ?_⟩
    · exact ready.fits.sumLeaf J.isTree leaf sum busy (by decide) (absurd · edge)
    · refine ready.flagged.claim lt leaf (L.sameBut_setSum i _) ?_ ?_ ?_
      · grind
      · grind
      · grind
    · exact ready.filled.setSum sum busy (absurd · (by decide))
    · simpa [Task.Stands] using ⟨leaf, edge⟩
    · simp [Task.duties, Duty.ofSum_stages, Nat.add_comm]
    · simp [Task.cost, Ledger.sumCost_stages]

theorem Ready.claimLeaf (ready : Ready J L s (.claimLeaf i seen)) :
    ∃ L', Progress J L L' s (.claimLeaf i seen) (J.plan.step s (.claimLeaf i seen)) := by
  by_cases told : seen.told
  · exact ready.claimLeaf_told told
  · exact ready.claimLeaf_untold told

theorem Ready.readStart (ready : Ready J L s (.readStart i gained)) :
    ∃ L', Progress J L L' s (.readStart i gained) (J.plan.step s (.readStart i gained)) := by
  obtain ⟨leaf, off, rfl⟩ := ready.stands
  have write : L.write i = busy := ready.write (by simp [Task.duties])
  have set := ready.filled.told leaf.1 off (by grind)
  have step : J.plan.step s (.readStart i ⟨false, false, true⟩) =
      .on s [.writeLeaf i ⟨false, false, true⟩ (J.before i)] := by
    simp only [Plan.step, set]
    rfl
  rw [step]
  refine ⟨L, .next ready ⟨leaf, rfl, ?_⟩ ?_ ?_⟩
  · simp [off]
  · simp [Task.duties]
  · simp [Task.cost]

/-- A leaf that is not written holds its part of the elements. -/
theorem Ready.leafElems (ready : Ready J L s task) (leaf : IsLeaf J.nodes i)
    (write : L.write i < news) {node : Node} (lo : node.lo = first J.nodes i)
    (hi : node.hi = last J.nodes i) : (Plan.leafElems s node).toList = J.part i := by
  rw [Plan.leafElems, lo, hi, ready.filled.leaf leaf, if_neg (Nat.not_le_of_lt write)]

/-- The leaf at the left end is written and summed by one loop. Another leaf has been summed before
it is written. -/
theorem Ready.writeLeaf (ready : Ready J L s (.writeLeaf i gained x)) :
    ∃ L', Progress J L L' s (.writeLeaf i gained x) (J.plan.step s (.writeLeaf i gained x)) := by
  obtain ⟨leaf, rfl, rfl⟩ := ready.stands
  obtain ⟨node, at_i, lo, hi, -⟩ := Job.exists_node leaf.1
  have write : L.write i = busy := ready.write (by simp [Task.duties])
  have elems := ready.leafElems leaf (by grind) lo hi
  obtain ⟨running, total⟩ := runningTotals_id J.op J.mode (J.before i) (Plan.leafElems s node)
  rw [Job.step_writeLeaf at_i, lo]
  generalize runningTotals (m := Id) J.op J.mode (J.before i) (Plan.leafElems s node) = found
    at running total
  rw [elems] at running total
  have filled := ready.filled.write leaf (by rw [write]; decide) running
  have moves := Ledger.Moves.write leaf.1 write news
  have grows : s.Grows (s.write (first J.nodes i) found.1) := ⟨fun _ => .refl _, id, id⟩
  have flagged : Flagged J.nodes (L.setWrite i news) (s.write (first J.nodes i) found.1) := by
    have flagged := ready.flagged.setWrite write news (by decide) (by decide) (fun _ => by decide)
    exact ⟨flagged.inner, flagged.leaf, flagged.told, flagged.edge⟩
  have rises := Ledger.le_write_setWrite write (b := news) (by decide)
  by_cases edge : first J.nodes i = 0
  · have sum : L.sum i = busy := ready.sum (by simp [Task.duties, edge])
    simp only [decide_eq_true edge, if_true]
    refine ⟨_, .enter ?_ flagged filled grows ?_ (fun j _ h => h.trans (rises j)) moves ?_ ?_⟩
    · exact ready.fits.writeLeaf J.isTree leaf write news (by decide) (fun _ => ⟨sum, rfl⟩)
    · have eq : J.total i = some found.2 := by
        rw [Job.total_edge_leaf leaf edge, total, Job.before_edge leaf.1 edge]
      simpa [Task.Stands, edge] using ⟨leaf, eq⟩
    · simp [Task.duties, Duty.ofWrite_stages, List.count_cons, Nat.add_comm]
      omega
    · simp [Task.cost, Ledger.writeCost_stages]
  · simp only [decide_eq_false edge, Bool.false_eq_true, if_false]
    refine ⟨_, .enter ?_ flagged filled grows ?_ (fun j _ h => h.trans (rises j)) moves ?_ ?_⟩
    · exact ready.fits.writeLeaf J.isTree leaf write news (by decide) (absurd · edge)
    · simpa [Task.Stands] using ⟨leaf.1, rfl, by simp, by simp [IsEdgeLeaf, edge]⟩
    · simp [Task.duties, Duty.ofNews, Duty.ofWrite_stages, Nat.add_comm]
    · have := Task.cost_report_le J.nodes (s.write (first J.nodes i) found.1) i
        ⟨false, false, true⟩
      simp only [List.map_cons, List.map_nil, List.sum_cons, List.sum_nil,
        Ledger.writeCost_stages]
      omega

/-- A leaf that is to be summed is not told to write before. -/
theorem Ready.write_sumLeaf (ready : Ready J L s (.sumLeaf i)) : L.write i = idle := by
  obtain ⟨leaf, off⟩ := ready.stands
  have sum : L.sum i = busy := ready.sum (by simp [Task.duties])
  by_contra told
  have summed := ready.fits.news_le_sum J.isTree leaf.1 (fun e => off e.2) told
  rw [sum] at summed
  exact absurd summed (by decide)

/-- A leaf that is to be summed has elements, and none of them is written over yet. -/
theorem Ready.step_sumLeaf (ready : Ready J L s (.sumLeaf i)) :
    ∃ x, J.total i = some x ∧ J.plan.step s (.sumLeaf i) =
      .on s [.setLeafTotal i ⟨false, true, false⟩ x] := by
  obtain ⟨leaf, off⟩ := ready.stands
  obtain ⟨node, at_i, lo, hi, -⟩ := Job.exists_node leaf.1
  have unwritten : L.write i < news := by
    rw [ready.write_sumLeaf]
    decide
  obtain ⟨x, total⟩ := Option.isSome_iff_exists.1 (Job.isSome_total leaf.1)
  have found : ((Plan.leafElems s node).reduceM J.op : Id (Option α)) = some x := by
    rw [← total, Job.total_leaf leaf off, ← ready.leafElems leaf unwritten lo hi]
    exact reduceM_id _ _
  refine ⟨x, total, ?_⟩
  rw [Job.step_sumLeaf at_i, found]
  rfl

theorem Ready.sumLeaf (ready : Ready J L s (.sumLeaf i)) :
    ∃ L', Progress J L L' s (.sumLeaf i) (J.plan.step s (.sumLeaf i)) := by
  obtain ⟨leaf, off⟩ := ready.stands
  obtain ⟨x, total, step⟩ := ready.step_sumLeaf
  rw [step]
  refine ⟨L, .next ready ⟨leaf, total, ?_⟩ ?_ ?_⟩
  · simp [off]
  · simp [Task.duties]
  · simp [Task.cost]

theorem Ready.setLeafTotal (ready : Ready J L s (.setLeafTotal i gained x)) :
    ∃ L', Progress J L L' s (.setLeafTotal i gained x)
      (J.plan.step s (.setLeafTotal i gained x)) := by
  obtain ⟨leaf, total, rfl⟩ := ready.stands
  have sum : L.sum i = busy := ready.sum (by simp [Task.duties])
  have lt : i < s.totals.size := ready.filled.sizes.2.2.1 ▸ leaf.1
  have moves := Ledger.Moves.sum leaf.1 sum news
  have flagged : Flagged J.nodes (L.setSum i news) (s.setTotal i x) := by
    have flagged := ready.flagged.setSum sum news (by decide) (fun _ => by decide)
    exact ⟨flagged.inner, flagged.leaf, flagged.told, flagged.edge⟩
  have filled : Filled J (L.setSum i news) (s.setTotal i x) := by
    refine (ready.filled.setTotal leaf.1 total).setSum sum news (fun _ => .inr ?_)
    have set := ready.filled.total i
    rw [Memory.total?_setTotal lt, if_pos rfl, total]
    rw [total] at set
    rcases set with set | set <;> simp [set]
  have step : J.plan.step s (.setLeafTotal i ⟨false, true, first J.nodes i = 0⟩ x) =
      .on (s.setTotal i x) [.report i ⟨false, true, first J.nodes i = 0⟩] := rfl
  rw [step]
  refine ⟨_, .enter ?_ flagged filled (.setTotal lt x) ?_ (fun _ _ => id) moves ?_ ?_⟩
  · refine ready.fits.sumLeaf J.isTree leaf sum news (by decide) (fun edge => .inr (.inr ?_))
    exact ⟨ready.write (by simp [Task.duties, edge]), by decide⟩
  · simpa [Task.Stands] using ⟨leaf.1, rfl, by simp, by simp [IsEdgeLeaf, leaf]⟩
  · intro d _
    by_cases edge : first J.nodes i = 0
    · simp [Task.duties, Duty.ofNews, Duty.ofSum_stages, edge, List.count_cons]
      omega
    · simp [Task.duties, Duty.ofNews, Duty.ofSum_stages, edge, Nat.add_comm]
  · have := Task.cost_report_le J.nodes (s.setTotal i x) i ⟨false, true, first J.nodes i = 0⟩
    simp only [List.map_cons, List.map_nil, List.sum_cons, List.sum_nil, Ledger.sumCost_stages]
    omega

end

end Bisection.Scan
