import Bisection.Proofs.Scan.Ledger

/-!
# The ledger and the memory

What the flags, the cells and the elements are, once the ledger is known. `Flagged` reads the flags
off it. `Filled` says which cells are set and what is in them, and which leaves hold their running
totals. A cell may be set before the ledger tells that it is, but what is in it is right from the
start.
-/

namespace Bisection.Scan
set_option autoImplicit false

open Stage

/-- The second phase has all the flags of the first. -/
structure Phase.Within (p q : Phase) : Prop where
  told : p.told → q.told
  summed : p.summed → q.summed
  written : p.written → q.written

namespace Phase.Within
variable {p q r : Phase}

theorem refl (p : Phase) : p.Within p := ⟨id, id, id⟩

theorem empty (p : Phase) : Within {} p :=
  ⟨fun h => absurd h Bool.false_ne_true, fun h => absurd h Bool.false_ne_true,
    fun h => absurd h Bool.false_ne_true⟩

theorem trans (pq : p.Within q) (qr : q.Within r) : p.Within r :=
  ⟨qr.told ∘ pq.told, qr.summed ∘ pq.summed, qr.written ∘ pq.written⟩

theorem antisymm (pq : p.Within q) (qp : q.Within p) : p = q := by
  have told := Bool.eq_iff_iff.2 ⟨pq.told, qp.told⟩
  have summed := Bool.eq_iff_iff.2 ⟨pq.summed, qp.summed⟩
  have written := Bool.eq_iff_iff.2 ⟨pq.written, qp.written⟩
  obtain ⟨⟩ := p
  obtain ⟨⟩ := q
  simp only at told summed written
  rw [told, summed, written]

theorem union_left (p q : Phase) : p.Within (p.union q) := by
  constructor <;> simp +contextual [Phase.union]

end Phase.Within

/-- The flags that a phase does not have. -/
def Phase.missing (p : Phase) : Nat :=
  (if p.told then 0 else 1) + (if p.summed then 0 else 1) + (if p.written then 0 else 1)

theorem Phase.missing_le (p : Phase) : p.missing ≤ 3 := by
  simp only [missing]
  split <;> split <;> split <;> omega

theorem Phase.Within.missing_le {p q : Phase} (h : p.Within q) : q.missing ≤ p.missing := by
  obtain ⟨told, summed, written⟩ := h
  simp only [missing]
  grind

/-- A phase that gained a flag misses fewer of them. -/
theorem Phase.Within.missing_lt {p q : Phase} (h : p.Within q) (ne : p ≠ q) :
    q.missing < p.missing := by
  obtain ⟨told, summed, written⟩ := h
  simp only [missing]
  obtain ⟨a, b, c⟩ := p
  obtain ⟨a', b', c'⟩ := q
  grind

namespace Memory
variable {α : Type} {s : Memory α} {i j : Nat}

/-- The memory with another phase of a node. -/
def setPhase (s : Memory α) (i : Nat) (p : Phase) : Memory α :=
  { s with phases := s.phases.setIfInBounds i p }

theorem phase_setPhase (h : i < s.phases.size) (p : Phase) (j : Nat) :
    (s.setPhase i p).phase j = if j = i then p else s.phase j := by
  simp only [setPhase, phase, Array.getD_eq_getD_getElem?, Array.getElem?_setIfInBounds]
  grind

theorem exchange_of_eq {seen : Phase} (h : s.phase i = seen) (new : Phase) :
    s.exchange i seen new = (s.setPhase i new, true) := by
  rw [exchange, if_pos h]
  rfl

theorem exchange_of_ne {seen : Phase} (h : s.phase i ≠ seen) (new : Phase) :
    s.exchange i seen new = (s, false) := by
  rw [exchange, if_neg h]

theorem tell_of_told (h : (s.phase i).told) : s.tell i = (s, false) := by
  rw [tell, if_pos h]

theorem tell_of_untold (h : ¬ (s.phase i).told) :
    s.tell i = (s.setPhase i ((s.phase i).union { told := true }), true) := by
  rw [tell, if_neg h]
  rfl

theorem total?_setTotal (h : i < s.totals.size) (x : α) (j : Nat) :
    (s.setTotal i x).total? j = if j = i then s.total? i <|> some x else s.total? j := by
  simp only [setTotal, total?, Array.getD_eq_getD_getElem?, Array.getElem?_modify]
  grind

theorem before?_setPrefix (h : i < s.prefixes.size) (x : α) (j : Nat) :
    (s.setPrefix i x).before? j = if j = i then s.before? i <|> some x else s.before? j := by
  simp only [setPrefix, before?, Array.getD_eq_getD_getElem?, Array.getElem?_modify]
  grind

/-- The later memory has all the flags of the earlier one, and its cells. -/
structure Grows (s s' : Memory α) : Prop where
  phase : ∀ i, (s.phase i).Within (s'.phase i)
  total : ∀ {i x}, s.total? i = some x → s'.total? i = some x
  before : ∀ {i x}, s.before? i = some x → s'.before? i = some x

namespace Grows

theorem refl (s : Memory α) : s.Grows s := ⟨fun _ => .refl _, id, id⟩

theorem setPhase (h : i < s.phases.size) {p : Phase} (within : (s.phase i).Within p) :
    s.Grows (s.setPhase i p) := by
  refine ⟨fun j => ?_, id, id⟩
  rw [phase_setPhase h]
  split
  · next eq => exact eq ▸ within
  · exact .refl _

theorem setTotal (h : i < s.totals.size) (x : α) : s.Grows (s.setTotal i x) := by
  refine ⟨fun _ => .refl _, fun {j y} set => ?_, id⟩
  rw [total?_setTotal h]
  split
  · next eq => rw [← eq, set]; rfl
  · exact set

theorem setPrefix (h : i < s.prefixes.size) (x : α) : s.Grows (s.setPrefix i x) := by
  refine ⟨fun _ => .refl _, id, fun {j y} set => ?_⟩
  rw [before?_setPrefix h]
  split
  · next eq => rw [← eq, set]; rfl
  · exact set

end Grows

end Memory

/-- The flags are those that the ledger tells. The leaf at the left end needs not be told to write,
and is told only once its total is known to its parent. -/
structure Flagged {α : Type} (nodes : Array Node) (L : Ledger) (s : Memory α) : Prop where
  inner : ∀ {p l r}, kids nodes p = some (l, r) →
    ((s.phase p).told ↔ L.write p ≠ idle) ∧
      ((s.phase p).summed ↔ L.sum l = done ∨ L.sum r = done) ∧
      ((s.phase p).written ↔ L.write l = done ∨ L.write r = done)
  leaf : ∀ {i}, IsLeaf nodes i →
    ((s.phase i).summed ↔ busy ≤ L.sum i) ∧ ((s.phase i).written ↔ busy ≤ L.write i)
  told : ∀ {i}, IsLeaf nodes i → first nodes i ≠ 0 → ((s.phase i).told ↔ L.write i ≠ idle)
  edge : ∀ {i}, IsEdgeLeaf nodes i → (s.phase i).told → L.sum i = done

/-- An entry that the flags do not tell of. -/
theorem Flagged.enter {α : Type} {nodes : Array Node} {L L' : Ledger} {s : Memory α}
    (flagged : Flagged nodes L s)
    (same : ∀ i, (L'.write i ≠ idle ↔ L.write i ≠ idle) ∧ (L'.sum i = done ↔ L.sum i = done) ∧
      (L'.write i = done ↔ L.write i = done))
    (leaf : ∀ i, IsLeaf nodes i →
      (busy ≤ L'.sum i ↔ busy ≤ L.sum i) ∧ (busy ≤ L'.write i ↔ busy ≤ L.write i)) :
    Flagged nodes L' s where
  inner h := by
    simp only [same]
    exact flagged.inner h
  leaf h := by
    rw [(leaf _ h).1, (leaf _ h).2]
    exact flagged.leaf h
  told h off := by
    rw [(same _).1]
    exact flagged.told h off
  edge h told := (same _).2.1.2 (flagged.edge h told)

/-- The summing of a node goes on to a stage that the flags do not tell from the one before. -/
theorem Flagged.setSum {α : Type} {nodes : Array Node} {L : Ledger} {s : Memory α} {i a : Nat}
    (flagged : Flagged nodes L s) (at_a : L.sum i = a) (b : Nat) (dones : b = done ↔ a = done)
    (leaf : IsLeaf nodes i → (busy ≤ b ↔ busy ≤ a)) : Flagged nodes (L.setSum i b) s := by
  subst at_a
  refine flagged.enter (fun j => ?_) (fun j h => ?_)
  · rw [Ledger.sum_setSum, Ledger.write_setSum]
    refine ⟨Iff.rfl, ?_, Iff.rfl⟩
    split
    · next eq => exact eq ▸ dones
    · exact Iff.rfl
  · rw [Ledger.sum_setSum, Ledger.write_setSum]
    refine ⟨?_, Iff.rfl⟩
    split
    · next eq => exact eq ▸ leaf (eq ▸ h)
    · exact Iff.rfl

/-- The writing of a node goes on to a stage that the flags do not tell from the one before. -/
theorem Flagged.setWrite {α : Type} {nodes : Array Node} {L : Ledger} {s : Memory α} {i a : Nat}
    (flagged : Flagged nodes L s) (at_a : L.write i = a) (b : Nat)
    (told : b ≠ idle ↔ a ≠ idle) (dones : b = done ↔ a = done)
    (leaf : IsLeaf nodes i → (busy ≤ b ↔ busy ≤ a)) : Flagged nodes (L.setWrite i b) s := by
  subst at_a
  refine flagged.enter (fun j => ?_) (fun j h => ?_)
  · rw [Ledger.sum_setWrite, Ledger.write_setWrite]
    split
    · next eq => exact eq ▸ ⟨told, Iff.rfl, dones⟩
    · exact ⟨Iff.rfl, Iff.rfl, Iff.rfl⟩
  · rw [Ledger.sum_setWrite, Ledger.write_setWrite]
    refine ⟨Iff.rfl, ?_⟩
    split
    · next eq => exact eq ▸ leaf (eq ▸ h)
    · exact Iff.rfl

/-- A node is told to write. -/
theorem Flagged.tell {α : Type} {nodes : Array Node} {L : Ledger} {s : Memory α} {i a b : Nat}
    (flagged : Flagged nodes L s) (lt : i < s.phases.size) (at_a : L.write i = a) (told : b ≠ idle)
    (dones : b = done ↔ a = done) (leaf : IsLeaf nodes i → (busy ≤ b ↔ busy ≤ a))
    (edge : IsEdgeLeaf nodes i → L.sum i = done) :
    Flagged nodes (L.setWrite i b) (s.setPhase i ((s.phase i).union { told := true })) := by
  subst at_a
  have phase := Memory.phase_setPhase lt ((s.phase i).union { told := true })
  have flag (j : Nat) : ((s.setPhase i ((s.phase i).union { told := true })).phase j).told ↔
      (s.phase j).told ∨ j = i := by
    rw [phase]
    split
    · next eq => simp [Phase.union, eq]
    · next ne => simp [ne]
  have rest (j : Nat) : ((s.setPhase i ((s.phase i).union { told := true })).phase j).summed =
      (s.phase j).summed ∧
      ((s.setPhase i ((s.phase i).union { told := true })).phase j).written =
        (s.phase j).written := by
    rw [phase]
    split
    · next eq => simp [Phase.union, eq]
    · exact ⟨rfl, rfl⟩
  have tells (j : Nat) : (L.setWrite i b).write j ≠ idle ↔ L.write j ≠ idle ∨ j = i := by
    rw [Ledger.write_setWrite]
    split
    · next eq => simp only [eq, or_true, iff_true]; exact told
    · next ne => simp [ne]
  have done' (j : Nat) : (L.setWrite i b).write j = done ↔ L.write j = done := by
    rw [Ledger.write_setWrite]
    split
    · next eq => exact eq ▸ dones
    · exact Iff.rfl
  refine ⟨fun {p l r} h => ?_, fun {j} h => ?_, fun {j} h off => ?_, fun {j} h => ?_⟩
  · rw [flag, tells, (rest p).1, (rest p).2, done', done']
    obtain ⟨told, others⟩ := flagged.inner h
    exact ⟨or_congr told Iff.rfl, others⟩
  · rw [(rest j).1, (rest j).2, Ledger.sum_setWrite, Ledger.write_setWrite]
    split
    · next eq =>
      subst eq
      rw [leaf h]
      exact flagged.leaf h
    · exact flagged.leaf h
  · rw [flag, tells, flagged.told h off]
  · rw [flag, Ledger.sum_setWrite]
    rintro (seen | rfl)
    · exact flagged.edge h seen
    · exact edge h

/-- A node and its parent go on, and the parent may be marked. -/
theorem Flagged.family {α : Type} {t : Threshold} {n : Nat} {nodes : Array Node} {L L' : Ledger}
    {s s' : Memory α} {i p l r : Nat} {q : Phase} (flagged : Flagged nodes L s)
    (tree : IsTree t n nodes) (h : kids nodes p = some (l, r)) (side : i = l ∨ i = r)
    (phase : ∀ j, s'.phase j = if j = p then q else s.phase j)
    (same : ∀ j, j ≠ i → j ≠ p → L'.sum j = L.sum j ∧ L'.write j = L.write j)
    (childSum : L'.sum i = L.sum i ∨ L.sum i = news ∧ L'.sum i = done)
    (childWrite : L'.write i = L.write i ∨ L.write i = news ∧ L'.write i = done)
    (parent : (L'.sum p = done ↔ L.sum p = done) ∧ (L'.write p = done ↔ L.write p = done))
    (flags : (q.told ↔ L'.write p ≠ idle) ∧ (q.summed ↔ L'.sum l = done ∨ L'.sum r = done) ∧
      (q.written ↔ L'.write l = done ∨ L'.write r = done)) : Flagged nodes L' s' := by
  have order := tree.order h
  have notLeaf := IsTree.not_isLeaf h
  refine ⟨fun {p' l' r'} h' => ?_, fun {j} h => ?_, fun {j} h off => ?_, fun {j} h => ?_⟩
  · have flags' := flagged.inner h'
    have order' := tree.order h'
    have atP := same p'
    have atL := same l'
    have atR := same r'
    have family := tree.family h h'
    rw [phase]
    clear same phase
    by_cases top : p' = p
    · grind
    rw [if_neg top]
    by_cases left : l' = p
    · grind
    by_cases right : r' = p
    · grind
    by_cases child : p' = i
    · grind
    grind
  · have flags' := flagged.leaf h
    have atJ := same j
    have apart : j ≠ p := fun eq => notLeaf (eq ▸ h)
    rw [phase, if_neg apart]
    clear same phase parent flags side
    grind
  · have flags' := flagged.told h off
    have atJ := same j
    have apart : j ≠ p := fun eq => notLeaf (eq ▸ h)
    rw [phase, if_neg apart]
    clear same phase parent flags side
    grind
  · have flags' := flagged.edge h
    have atJ := same j
    have apart : j ≠ p := fun eq => notLeaf (eq ▸ h.1)
    rw [phase, if_neg apart]
    clear same phase parent flags side
    grind

/-- A leaf is claimed. -/
theorem Flagged.claim {α : Type} {nodes : Array Node} {L L' : Ledger} {s : Memory α} {i : Nat}
    {p : Phase} (flagged : Flagged nodes L s) (lt : i < s.phases.size) (leaf : IsLeaf nodes i)
    (same : Ledger.SameBut i L L')
    (dones : (L'.sum i = done ↔ L.sum i = done) ∧ (L'.write i = done ↔ L.write i = done))
    (claims : (p.summed ↔ busy ≤ L'.sum i) ∧ (p.written ↔ busy ≤ L'.write i))
    (told : p.told ↔ first nodes i ≠ 0 ∧ L'.write i ≠ idle) :
    Flagged nodes L' (s.setPhase i p) := by
  have phase := Memory.phase_setPhase lt p
  refine ⟨fun {q l r} h => ?_, fun {j} h => ?_, fun {j} h off => ?_, fun {j} h seen => ?_⟩
  · have apart : q ≠ i := fun eq => IsTree.not_isLeaf h (eq ▸ leaf)
    have flags := flagged.inner h
    have atQ := same q
    have atL := same l
    have atR := same r
    rw [phase, if_neg apart]
    clear same phase
    grind
  · have flags := flagged.leaf h
    have atJ := same j
    grind
  · have flags := flagged.told h off
    have atJ := same j
    grind
  · have flags := flagged.edge h
    have atJ := same j
    obtain ⟨-, start⟩ := h
    grind

/-- The cells and the elements are those that the ledger tells. -/
structure Filled {α : Type} (J : Job α) (L : Ledger) (s : Memory α) : Prop where
  sizes : s.phases.size = J.nodes.size ∧ s.prefixes.size = J.nodes.size ∧
    s.totals.size = J.nodes.size ∧ s.elems.size = J.elems.size
  total : ∀ i, s.total? i = none ∨ s.total? i = J.total i
  before : ∀ i, s.before? i = none ∨ s.before? i = some (J.before i)
  summed : ∀ {i}, i < J.nodes.size → news ≤ L.sum i → s.total? i = J.total i
  told : ∀ {i}, i < J.nodes.size → first J.nodes i ≠ 0 → L.write i ≠ idle →
    s.before? i = some (J.before i)
  leaf : ∀ {i}, IsLeaf J.nodes i →
    (s.elems.slice (first J.nodes i) (last J.nodes i)).toList =
      if news ≤ L.write i then Reference.running J.op J.mode (J.before i) (J.part i)
      else J.part i

namespace Filled
variable {α : Type} {J : Job α} {L L' : Ledger} {s : Memory α} {i : Nat}

theorem setPhase (filled : Filled J L s) (i : Nat) (p : Phase) : Filled J L (s.setPhase i p) := by
  obtain ⟨sizes, total, before, summed, told, leaf⟩ := filled
  refine ⟨?_, total, before, summed, told, leaf⟩
  simpa only [Memory.setPhase, Array.size_setIfInBounds] using sizes

theorem setTotal (filled : Filled J L s) (lt : i < J.nodes.size) {x : α}
    (eq : J.total i = some x) : Filled J L (s.setTotal i x) := by
  obtain ⟨sizes, total, before, summed, told, leaf⟩ := filled
  have cell := Memory.total?_setTotal (i := i) (sizes.2.2.1 ▸ lt) x
  have now : (s.setTotal i x).total? i = J.total i := by
    rw [cell, if_pos rfl, eq]
    rcases total i with h | h <;> rw [h]
    · rfl
    · rw [eq]; rfl
  refine ⟨?_, fun j => ?_, before, fun {j} lt' h => ?_, told, leaf⟩
  · simpa only [Memory.setTotal, Array.size_modify] using sizes
  · by_cases at_i : j = i
    · exact .inr (at_i ▸ now)
    · rw [cell, if_neg at_i]
      exact total j
  · by_cases at_i : j = i
    · exact at_i ▸ now
    · rw [cell, if_neg at_i]
      exact summed lt' h

theorem setPrefix (filled : Filled J L s) (lt : i < J.nodes.size) :
    Filled J L (s.setPrefix i (J.before i)) ∧
      (s.setPrefix i (J.before i)).before? i = some (J.before i) := by
  obtain ⟨sizes, total, before, summed, told, leaf⟩ := filled
  have cell := Memory.before?_setPrefix (i := i) (sizes.2.1 ▸ lt) (J.before i)
  have now : (s.setPrefix i (J.before i)).before? i = some (J.before i) := by
    rw [cell, if_pos rfl]
    rcases before i with h | h <;> rw [h] <;> rfl
  refine ⟨⟨?_, total, fun j => ?_, summed, fun {j} lt' off h => ?_, leaf⟩, now⟩
  · simpa only [Memory.setPrefix, Array.size_modify] using sizes
  · by_cases at_i : j = i
    · exact .inr (at_i ▸ now)
    · rw [cell, if_neg at_i]
      exact before j
  · by_cases at_i : j = i
    · exact at_i ▸ now
    · rw [cell, if_neg at_i]
      exact told lt' off h

/-- An entry that only tells of cells that are set. -/
theorem enter (filled : Filled J L s)
    (sums : ∀ i, i < J.nodes.size → news ≤ L'.sum i → news ≤ L.sum i ∨ s.total? i = J.total i)
    (tells : ∀ i, i < J.nodes.size → L'.write i ≠ idle →
      L.write i ≠ idle ∨ first J.nodes i = 0 ∨ s.before? i = some (J.before i))
    (writes : ∀ i, IsLeaf J.nodes i → (news ≤ L'.write i ↔ news ≤ L.write i)) :
    Filled J L' s where
  sizes := filled.sizes
  total := filled.total
  before := filled.before
  summed lt h := (sums _ lt h).elim (filled.summed lt) id
  told lt off h := by
    rcases tells _ lt h with told | edge | set
    · exact filled.told lt off told
    · exact absurd edge off
    · exact set
  leaf h := by simpa only [writes _ h] using filled.leaf h

/-- The summing of a node goes on. It is summed only once its total is set. -/
theorem setSum {a : Nat} (filled : Filled J L s) (at_a : L.sum i = a) (b : Nat)
    (summed : news ≤ b → news ≤ a ∨ s.total? i = J.total i) : Filled J (L.setSum i b) s := by
  subst at_a
  refine filled.enter (fun j _ => ?_) (fun j _ => .inl) (fun j _ => Iff.rfl)
  rw [Ledger.sum_setSum]
  split
  · next eq => exact eq ▸ summed
  · exact .inl

/-- The writing of a node goes on. It is told to write only once its prefix is set. -/
theorem setWrite {a : Nat} (filled : Filled J L s) (at_a : L.write i = a) (b : Nat)
    (told : b ≠ idle → a ≠ idle ∨ first J.nodes i = 0 ∨ s.before? i = some (J.before i))
    (written : IsLeaf J.nodes i → (news ≤ b ↔ news ≤ a)) : Filled J (L.setWrite i b) s := by
  subst at_a
  refine filled.enter (fun j _ => .inl) (fun j _ => ?_) (fun j leaf => ?_)
  · rw [Ledger.write_setWrite]
    split
    · next eq => exact eq ▸ told
    · exact .inl
  · rw [Ledger.write_setWrite]
    split
    · next eq => exact eq ▸ written (eq ▸ leaf)
    · exact Iff.rfl

/-- A leaf writes its running totals. -/
theorem write (filled : Filled J L s) (leaf : IsLeaf J.nodes i) (told : L.write i ≠ idle)
    {ys : Array α}
    (eq : ys.toList = Reference.running J.op J.mode (J.before i) (J.part i)) :
    Filled J (L.setWrite i news) (s.write (first J.nodes i) ys) := by
  have range := J.isTree.range leaf.1
  have size : first J.nodes i + ys.size = last J.nodes i := by
    rw [← Array.length_toList, eq, Reference.length_running, Job.length_part leaf.1]
    omega
  have elems := filled.sizes.2.2.2
  have room : first J.nodes i + ys.size ≤ s.elems.size := by omega
  have write := Store.toList_overwrite s.elems room
  rw [size] at write
  refine ⟨⟨filled.sizes.1, filled.sizes.2.1, filled.sizes.2.2.1, ?_⟩, filled.total, filled.before,
    filled.summed, fun {j} lt off h => ?_, fun {j} leaf' => ?_⟩
  · rw [← elems, Memory.write, ← Store.length_toList, write]
    simp only [List.length_append, List.length_drop, List.length_take, Array.length_toList,
      Store.length_toList]
    omega
  · refine filled.told lt off fun idle => ?_
    grind
  · rw [Store.toList_slice, Memory.write, write]
    by_cases same : j = i
    · subst same
      rw [slice_same _ (by simpa using size) (by simp; omega), Ledger.write_setWrite, if_pos rfl,
        eq]
      rfl
    · rw [Ledger.write_setWrite, if_neg same, ← filled.leaf leaf', Store.toList_slice]
      exact slice_apart _ (by simpa using size) (by simp; omega)
        (J.isTree.leaves_apart leaf' leaf same)
where
  /-- The part of a list that was replaced. -/
  slice_same {xs : List α} (ys : List α) {a b : Nat} (length : a + ys.length = b)
      (le : b ≤ xs.length) : ((xs.take a ++ ys ++ xs.drop b).take b).drop a = ys := by
    have front : (xs.take a).length = a := by
      rw [List.length_take]
      omega
    rw [List.take_left' (by rw [List.length_append, front, length]), List.drop_left' front]
  /-- A part of a list that has nothing in common with the part that was replaced. -/
  slice_apart {xs : List α} (ys : List α) {a b c d : Nat} (length : a + ys.length = b)
      (le : b ≤ xs.length) (apart : d ≤ a ∨ b ≤ c) :
      ((xs.take a ++ ys ++ xs.drop b).take d).drop c = (xs.take d).drop c := by
    have front : (xs.take a).length = a := by
      rw [List.length_take]
      omega
    rcases apart with before | behind
    · rw [List.append_assoc, List.take_append_of_le_length (by omega), List.take_take,
        Nat.min_eq_left before]
    · obtain ⟨k, rfl⟩ := Nat.exists_eq_add_of_le behind
      have drop : (xs.take a ++ ys ++ xs.drop b).drop (b + k) = xs.drop (b + k) := by
        rw [← List.drop_drop, List.drop_left' (by rw [List.length_append, front, length]),
          List.drop_drop]
      rw [List.drop_take, drop, List.drop_take]

end Filled

end Bisection.Scan
