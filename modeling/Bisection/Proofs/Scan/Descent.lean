import Bisection.Proofs.Scan.Standing

/-!
# Steps down the tree

A visit of an inner node goes on to its children: to sum them, or to hand each one its prefix and
tell it to write. The prefixes are set before the children are told, so a child that was told finds
its prefix. On the left edge there is no prefix to hand to the left child, which starts to write by
itself once it is summed, and is only told so.
-/

namespace Bisection.Scan
set_option autoImplicit false

open Stage

section
variable {α : Type} {J : Job α} {L : Ledger} {s : Memory α}
  {task : Task α} {i p l r : Nat}

/-- A node that is to be visited is to be summed or to be written. -/
theorem Ready.due_of_visit (ready : Ready J L s (.visit i))
    (counts : ¬ Duty.Exempt J.nodes L (.visit i)) : L.sum i = due ∨ L.write i = due := by
  have := ready.counted (.visit i) (by simp [Task.duties]) counts
  simp only [Ledger.owed] at this
  grind

/-- An inner node that was told to write starts to hand its prefix on, and one that was not is
summed. -/
theorem Ready.visit_inner (ready : Ready J L s (.visit p))
    (h : kids J.nodes p = some (l, r)) :
    ∃ L', Progress J L L' s (.visit p) (J.plan.step s (.visit p)) := by
  obtain ⟨ltP, ltL, ltR⟩ := Job.size_of_kids h
  have order := J.isTree.order h
  have notLeaf := IsTree.not_isLeaf h
  obtain ⟨node, at_p, -, -, -, children⟩ := Job.exists_node ltP
  have visits := ready.due_of_visit (by rintro ⟨j, ⟨⟩, edge, -⟩; exact notLeaf edge.1)
  have inner := ready.fits.inner h
  have flag := (ready.flagged.inner h).1
  by_cases seen : (s.phase p).told
  · have write : L.write p = due := visits.resolve_left fun sum => by
      have := inner.told (flag.1 seen)
      grind
    have step : J.plan.step s (.visit p) = .on s [.readLeftTotal p l r] := by
      simp only [Plan.step, at_p, children, h, if_pos seen]
      rfl
    rw [step]
    have moves := Ledger.Moves.write ltP write busy
    refine ⟨_, .enter (ready.fits.push J.isTree h write) ?_ ?_ (.refl s) ?_ ?_ moves ?_ ?_⟩
    · exact ready.flagged.setWrite write busy (by decide) (by decide) (absurd · notLeaf)
    · exact ready.filled.setWrite write busy (fun _ => .inl (by decide)) (absurd · notLeaf)
    · simpa [Task.Stands] using h
    · exact fun j _ written => written.trans (Ledger.le_write_setWrite write (by decide) j)
    · simp [Task.duties, Duty.ofWrite_stages, Nat.add_comm]
    · simp [Task.cost, Ledger.writeCost_stages]
  · have sum : L.sum p = due := visits.resolve_right fun write => seen (flag.2 (by grind))
    have idles : L.sum l = idle ∧ L.sum r = idle := by
      have := inner.begun
      grind
    have step : J.plan.step s (.visit p) = .on s [.descend l r] := by
      simp only [Plan.step, at_p, children, h, if_neg seen]
      rfl
    rw [step]
    have atL : (L.setSum p waiting).sum l = idle := (if_neg (by omega)).trans idles.1
    have atR : ((L.setSum p waiting).setSum l due).sum r = idle :=
      (if_neg (by omega)).trans ((if_neg (by omega)).trans idles.2)
    have moves := ((Ledger.Moves.sum ltP sum waiting).trans (.sum ltL atL due)).trans
      (.sum ltR atR due)
    refine ⟨_, .enter (ready.fits.descend J.isTree h sum) ?_ ?_ (.refl s) ?_ ?_ moves ?_ ?_⟩
    · have top := ready.flagged.setSum sum waiting (by decide) (absurd · notLeaf)
      have left := top.setSum atL due (by decide) (fun _ => by decide)
      exact left.setSum atR due (by decide) (fun _ => by decide)
    · have top := ready.filled.setSum sum waiting (absurd · (by decide))
      have left := top.setSum atL due (absurd · (by decide))
      exact left.setSum atR due (absurd · (by decide))
    · simpa [Task.Stands] using ⟨ltL, ltR⟩
    · exact fun j _ => id
    · simp [Task.duties, Duty.ofSum_stages, Nat.add_comm]
    · simp [Task.cost, Ledger.sumCost_stages]

theorem Ready.descend (ready : Ready J L s (.descend l r)) :
    ∃ L', Progress J L L' s (.descend l r) (J.plan.step s (.descend l r)) := by
  obtain ⟨ltL, ltR⟩ := ready.stands
  refine ⟨L, .stay ready ready.flagged ready.filled (.refl s) ?_ rfl ?_⟩
  · simpa [Task.Stands] using ⟨ltL, ltR⟩
  · simp [Task.cost]

/-- A node that is at work on its writing has its total, so its children have theirs. -/
theorem Ready.summed_of_busy (ready : Ready J L s task) (h : kids J.nodes p = some (l, r))
    (write : L.write p ≠ idle) : L.sum l = done ∧ L.sum r = done := by
  have inner := ready.fits.inner h
  exact inner.joined.1 (inner.told write)

theorem Ready.readLeftTotal (ready : Ready J L s (.readLeftTotal p l r)) :
    ∃ L', Progress J L L' s (.readLeftTotal p l r) (J.plan.step s (.readLeftTotal p l r)) := by
  have h : kids J.nodes p = some (l, r) := ready.stands
  obtain ⟨ltP, ltL, -⟩ := Job.size_of_kids h
  obtain ⟨-, -, -, up, -⟩ := J.isTree.order h
  obtain ⟨node, at_p, lo, -⟩ := Job.exists_node ltP
  have write : L.write p = busy := ready.write (by simp [Task.duties])
  have summed := (ready.summed_of_busy h (by grind)).1
  obtain ⟨x, total⟩ := Option.isSome_iff_exists.1 (Job.isSome_total ltL)
  have set : s.total? l = some x := (ready.filled.summed ltL (by grind)).trans total
  by_cases edge : first J.nodes p = 0
  · have step : J.plan.step s (.readLeftTotal p l r) = .on s [.handRight l r x] := by
      simp only [Plan.step, at_p, set, lo, if_pos edge]
      rfl
    rw [step]
    refine ⟨L, .next ready ⟨p, h, ?_, fun off => absurd edge off⟩ ?_ ?_⟩
    · rw [Job.before_right_of_total h total, if_pos edge]
    · simp [Task.duties, up]
    · simp [Task.cost]
  · have step : J.plan.step s (.readLeftTotal p l r) = .on s [.readPrefix p l r x] := by
      simp only [Plan.step, at_p, set, lo, if_neg edge]
      rfl
    rw [step]
    exact ⟨L, .next ready ⟨h, total, edge⟩ rfl (by simp [Task.cost])⟩

theorem Ready.readPrefix {x : α} (ready : Ready J L s (.readPrefix p l r x)) :
    ∃ L', Progress J L L' s (.readPrefix p l r x) (J.plan.step s (.readPrefix p l r x)) := by
  obtain ⟨h, total, off⟩ := ready.stands
  obtain ⟨-, -, -, up, -⟩ := J.isTree.order h
  have write : L.write p = busy := ready.write (by simp [Task.duties])
  have set := ready.filled.told (Job.size_of_kids h).1 off (by grind)
  have step : J.plan.step s (.readPrefix p l r x) = .on s [.handLeft l r (J.before p) x] := by
    simp only [Plan.step, set]
    rfl
  rw [step]
  refine ⟨L, .next ready ⟨p, h, total, off, rfl⟩ ?_ ?_⟩
  · simp [Task.duties, up]
  · simp [Task.cost]

theorem Ready.handLeft {b x : α} (ready : Ready J L s (.handLeft l r b x)) :
    ∃ L', Progress J L L' s (.handLeft l r b x) (J.plan.step s (.handLeft l r b x)) := by
  obtain ⟨p, h, total, off, rfl⟩ := ready.stands
  obtain ⟨-, ltL, -⟩ := Job.size_of_kids h
  obtain ⟨filled, set⟩ := ready.filled.setPrefix ltL
  have grows : s.Grows (s.setPrefix l (J.before l)) :=
    .setPrefix (ready.filled.sizes.2.1 ▸ ltL) _
  rw [Job.before_left h] at filled set grows
  refine ⟨L, .stay ready ⟨ready.flagged.inner, ready.flagged.leaf, ready.flagged.told,
    ready.flagged.edge⟩ filled grows ?_ ?_ ?_⟩
  · simpa [Task.Stands] using ⟨p, h, total, off, rfl, Job.before_left h ▸ set⟩
  · simp [Task.duties]
  · simp [Task.cost]

theorem Ready.extend {b x : α} (ready : Ready J L s (.extend l r b x)) :
    ∃ L', Progress J L L' s (.extend l r b x) (J.plan.step s (.extend l r b x)) := by
  obtain ⟨p, h, total, off, rfl, set⟩ := ready.stands
  have step : J.plan.step s (.extend l r (J.before p) x) =
      .on s [.handRight l r (J.op (J.before p) x)] := rfl
  rw [step]
  refine ⟨L, .next ready ⟨p, h, ?_, fun _ => set⟩ rfl ?_⟩
  · rw [Job.before_right_of_total h total, if_neg off]
  · simp [Task.cost]

theorem Ready.handRight {y : α} (ready : Ready J L s (.handRight l r y)) :
    ∃ L', Progress J L L' s (.handRight l r y) (J.plan.step s (.handRight l r y)) := by
  obtain ⟨p, h, rfl, left⟩ := ready.stands
  obtain ⟨-, -, ltR⟩ := Job.size_of_kids h
  obtain ⟨filled, set⟩ := ready.filled.setPrefix ltR
  have grows : s.Grows (s.setPrefix r (J.before r)) :=
    .setPrefix (ready.filled.sizes.2.1 ▸ ltR) _
  refine ⟨L, .stay ready ⟨ready.flagged.inner, ready.flagged.leaf, ready.flagged.told,
    ready.flagged.edge⟩ filled grows ?_ ?_ ?_⟩
  · simpa [Task.Stands] using ⟨p, h, set, fun off => grows.before (left off)⟩
  · simp [Task.duties]
  · simp [Task.cost]

/-- A node off the left end is marked as told exactly if it was told to write. -/
theorem Flagged.told_iff (flagged : Flagged J.nodes L s) (lt : i < J.nodes.size)
    (off : first J.nodes i ≠ 0) : (s.phase i).told ↔ L.write i ≠ idle := by
  cases below : kids J.nodes i with
  | some k => exact (flagged.inner below).1
  | none => exact flagged.told ⟨lt, below⟩ off

/-- A right child is told to write for the first time. -/
theorem Ready.step_tellRight (ready : Ready J L s (.tellRight l r))
    (h : kids J.nodes p = some (l, r)) : L.write p = busy ∧ L.write r = idle ∧
      ¬ (s.phase r).told ∧ J.plan.step s (.tellRight l r) =
        .on (s.setPhase r ((s.phase r).union { told := true })) [.tellLeft l r true] := by
  obtain ⟨-, -, ltR⟩ := Job.size_of_kids h
  have write : L.write p = busy :=
    ready.write (by simp [Task.duties, (J.isTree.order h).2.2.2.1])
  have untold : L.write r = idle := by
    have := (ready.fits.inner h).toldRight
    grind
  have fresh : ¬ (s.phase r).told := fun told =>
    (ready.flagged.told_iff ltR (Job.first_right_pos h)).1 told untold
  refine ⟨write, untold, fresh, ?_⟩
  simp only [Plan.step, Memory.tell_of_untold fresh]
  rfl

theorem Ready.tellRight (ready : Ready J L s (.tellRight l r)) :
    ∃ L', Progress J L L' s (.tellRight l r) (J.plan.step s (.tellRight l r)) := by
  obtain ⟨p, h, right, left⟩ := ready.stands
  obtain ⟨ltP, ltL, ltR⟩ := Job.size_of_kids h
  obtain ⟨pl, lr, -, up, -⟩ := J.isTree.order h
  have off := Job.first_right_pos h
  have lt : r < s.phases.size := ready.filled.sizes.1 ▸ ltR
  obtain ⟨write, untold, -, step⟩ := ready.step_tellRight h
  rw [step]
  have notLeaf := IsTree.not_isLeaf h
  have grows : s.Grows (s.setPhase r ((s.phase r).union { told := true })) :=
    .setPhase lt (.union_left _ _)
  have atR : (L.setWrite p handing).write r = idle := (if_neg (by omega)).trans untold
  have moves := (Ledger.Moves.write ltP write handing).trans (.write ltR atR promised)
  refine ⟨_, .enter (ready.fits.promise J.isTree h write) ?_ ?_ grows ?_ ?_ moves ?_ ?_⟩
  · have top := ready.flagged.setWrite write handing (by decide) (by decide) (absurd · notLeaf)
    exact top.tell lt atR (by decide) (by decide) (fun _ => by decide) (absurd ·.2 off)
  · have top := ready.filled.setWrite write handing (fun _ => .inl (by decide)) (absurd · notLeaf)
    have both := top.setWrite atR promised (fun _ => .inr (.inr right)) (fun _ => by decide)
    exact both.setPhase _ _
  · simpa [Task.Stands] using ⟨p, h, left⟩
  · intro j _ written
    exact (written.trans (Ledger.le_write_setWrite write (by decide) j)).trans
      (Ledger.le_write_setWrite atR (by decide) j)
  · simp [Task.duties, Duty.ofWrite_stages, up, Nat.add_comm]
  · simp [Task.cost, Ledger.writeCost_stages]

/-- The ledger once node `p` waits for its children to be written and the right one is to be
visited. -/
abbrev Ledger.handOver (L : Ledger) (p r : Nat) : Ledger := (L.setWrite p waiting).setWrite r due

/-- What whoever tells the left child finds: the ledger goes on at the parent and at the right
child, and it is left to tell the left one. -/
structure HandsOver (J : Job α) (L : Ledger) (s : Memory α) (p l r : Nat) : Prop where
  duty : (Task.tellLeft l r true : Task α).duties J.nodes = [.write p handing]
  flagged : Flagged J.nodes (L.handOver p r) s
  filled : Filled J (L.handOver p r) s
  moves : L.Moves J.nodes.size (L.handOver p r) [.write p handing] [.visit r] 41 38
  rises : ∀ j, L.write j ≤ (L.handOver p r).write j
  left : (L.handOver p r).write l = L.write l
  summed : L.sum l = done

theorem Ready.handsOver (ready : Ready J L s (.tellLeft l r true))
    (h : kids J.nodes p = some (l, r)) : HandsOver J L s p l r := by
  obtain ⟨ltP, ltL, ltR⟩ := Job.size_of_kids h
  obtain ⟨pl, lr, -, up, -⟩ := J.isTree.order h
  have notLeaf := IsTree.not_isLeaf h
  have duty : (Task.tellLeft l r true : Task α).duties J.nodes = [.write p handing] := by
    rw [Task.duties, up]
    rfl
  have write : L.write p = handing := ready.write (by simp [duty])
  have right : L.write r = promised := by
    have := (ready.fits.inner h).toldRight
    grind
  have atR : (L.setWrite p waiting).write r = promised := (if_neg (by omega)).trans right
  refine ⟨duty, ?_, ?_, ?_, fun j => ?_, (if_neg (by omega)).trans (if_neg (by omega)), ?_⟩
  · have top := ready.flagged.setWrite write waiting (by decide) (by decide) (absurd · notLeaf)
    exact top.setWrite atR due (by decide) (by decide) (fun _ => by decide)
  · have top := ready.filled.setWrite write waiting (fun _ => .inl (by decide)) (absurd · notLeaf)
    exact top.setWrite atR due (fun _ => .inl (by decide)) (fun _ => by decide)
  · exact (Ledger.Moves.write ltP write waiting).trans (.write ltR atR due)
  · exact (Ledger.le_write_setWrite write (by decide) j).trans
      (Ledger.le_write_setWrite atR (by decide) j)
  · exact (ready.summed_of_busy h (by rw [write]; decide)).1

/-- On the left edge the left child has started to write by itself. If it is the leaf at the left
end it is done, and is told so for the first time. -/
theorem Ready.tellLeft_edge (ready : Ready J L s (.tellLeft l r true))
    (h : kids J.nodes p = some (l, r)) (edge : first J.nodes p = 0) :
    ∃ L', Progress J L L' s (.tellLeft l r true) (J.plan.step s (.tellLeft l r true)) := by
  obtain ⟨-, ltL, ltR⟩ := Job.size_of_kids h
  have firstLeft := (J.isTree.cut h).2.1
  have hands := ready.handsOver h
  have started := ready.fits.started ltL (by omega) (by rw [hands.summed]; decide)
  have fits := ready.fits.hand J.isTree h (ready.write (by simp [hands.duty]))
  rw [if_pos edge] at fits
  have moves := hands.moves.trans (.write ltL hands.left (L.write l))
  have filled := hands.filled.setWrite hands.left (L.write l) .inl (fun _ => Iff.rfl)
  have rises (j : Nat) : L.write j ≤ ((L.handOver p r).setWrite l (L.write l)).write j :=
    (hands.rises j).trans (Ledger.le_write_setWrite hands.left (Nat.le_refl _) j)
  by_cases seen : (s.phase l).told
  · have step : J.plan.step s (.tellLeft l r true) = .on s [.visit r] := by
      simp only [Plan.step, Memory.tell_of_told seen]
      rfl
    rw [step]
    refine ⟨_, .enter fits ?_ filled (.refl s) ?_ ?_ moves (fun d _ => ?_) ?_⟩
    · exact hands.flagged.setWrite hands.left _ Iff.rfl Iff.rfl (fun _ => Iff.rfl)
    · simpa [Task.Stands] using ltR
    · exact fun j _ written => written.trans (rises j)
    · rw [hands.duty]
      simp only [List.flatMap_cons, List.flatMap_nil, Task.duties, List.count_append,
        List.append_nil]
      omega
    · simp only [List.map_cons, List.map_nil, Task.cost, List.sum_cons, List.sum_nil]
      omega
  · have lt : l < s.phases.size := ready.filled.sizes.1 ▸ ltL
    have leaf : IsEdgeLeaf J.nodes l := by
      refine ⟨⟨ltL, ?_⟩, by omega⟩
      cases below : kids J.nodes l with
      | none => rfl
      | some k => exact absurd ((ready.flagged.inner below).1.2 started) seen
    have written : L.write l = done := by
      have := (ready.fits.leaf leaf.1).edge leaf.2
      have := hands.summed
      grind
    have step : J.plan.step s (.tellLeft l r true) =
        .on (s.setPhase l ((s.phase l).union { told := true })) [.descend l r] := by
      simp only [Plan.step, Memory.tell_of_untold seen]
      rfl
    rw [step]
    refine ⟨_, .enter fits ?_ (filled.setPhase _ _) (.setPhase lt (.union_left _ _)) ?_ ?_ moves
      (fun d counts => ?_) ?_⟩
    · exact hands.flagged.tell lt hands.left started Iff.rfl (fun _ => Iff.rfl)
        (fun _ => hands.summed)
    · simpa [Task.Stands] using ⟨ltL, ltR⟩
    · exact fun j _ written => written.trans (rises j)
    · have other : d ≠ .visit l := by
        rintro rfl
        exact counts ⟨l, rfl, leaf, by grind⟩
      rw [hands.duty]
      simp [Task.duties, Duty.ofWrite_stages, written, List.count_cons, other.symm, Nat.add_comm]
    · simp [Task.cost, Ledger.writeCost_stages, written]

/-- Off the left edge both children start to write. -/
theorem Ready.tellLeft_off (ready : Ready J L s (.tellLeft l r true))
    (h : kids J.nodes p = some (l, r)) (off : first J.nodes p ≠ 0)
    (left : s.before? l = some (J.before l)) :
    ∃ L', Progress J L L' s (.tellLeft l r true) (J.plan.step s (.tellLeft l r true)) := by
  obtain ⟨-, ltL, ltR⟩ := Job.size_of_kids h
  have firstLeft := (J.isTree.cut h).2.1
  have hands := ready.handsOver h
  have write : L.write p = handing := ready.write (by simp [hands.duty])
  have untold : L.write l = idle := by
    have := (ready.fits.inner h).toldLeft off
    grind
  have fresh : ¬ (s.phase l).told := fun told =>
    (ready.flagged.told_iff ltL (firstLeft ▸ off)).1 told untold
  have lt : l < s.phases.size := ready.filled.sizes.1 ▸ ltL
  have fits := ready.fits.hand J.isTree h write
  rw [if_neg off] at fits
  have atL : (L.handOver p r).write l = idle := hands.left.trans untold
  have moves := hands.moves.trans (.write ltL atL due)
  have filled := hands.filled.setWrite atL due (fun _ => .inr (.inr left)) (fun _ => by decide)
  have step : J.plan.step s (.tellLeft l r true) =
      .on (s.setPhase l ((s.phase l).union { told := true })) [.descend l r] := by
    simp only [Plan.step, Memory.tell_of_untold fresh]
    rfl
  rw [step]
  refine ⟨_, .enter fits ?_ (filled.setPhase _ _) (.setPhase lt (.union_left _ _)) ?_ ?_ moves
    ?_ ?_⟩
  · exact hands.flagged.tell lt atL (by decide) (by decide) (fun _ => by decide)
      (fun _ => hands.summed)
  · simpa [Task.Stands] using ⟨ltL, ltR⟩
  · intro j _ written
    exact (written.trans (hands.rises j)).trans (Ledger.le_write_setWrite atL (by decide) j)
  · intro d _
    rw [hands.duty]
    simp [Task.duties, Duty.ofWrite_stages, List.count_cons, Nat.add_comm]
  · simp [Task.cost, Ledger.writeCost_stages]

theorem Ready.tellLeft {goRight : Bool} (ready : Ready J L s (.tellLeft l r goRight)) :
    ∃ L', Progress J L L' s (.tellLeft l r goRight)
      (J.plan.step s (.tellLeft l r goRight)) := by
  obtain ⟨rfl, p, h, left⟩ := ready.stands
  by_cases edge : first J.nodes p = 0
  · exact ready.tellLeft_edge h edge
  · exact ready.tellLeft_off h edge (left edge)

end

end Bisection.Scan
