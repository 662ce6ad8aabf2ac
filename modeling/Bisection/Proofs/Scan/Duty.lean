import Bisection.Proofs.Scan.Cells
import Mathlib.Algebra.BigOperators.Group.Finset.Basic
import Mathlib.Algebra.GroupWithZero.Nat

/-!
# What the tasks of a scan are there to do

A ledger at a stage such as `due` or `busy` counts on a task that carries the node on. The `duties`
of a task are the stages that it carries on, and a ledger fits a list of tasks when each stage that
counts on a task has exactly one: no node is left behind, and no two tasks work on the same one.

The leaf at the left end may be visited a second time for nothing, once it is told to write what it
has written already. This visit is the only one that is nobody's duty.

The module ends with the cost of a ledger and of the tasks, which is what is left to do at most.
-/

namespace Bisection.Scan
set_option autoImplicit false

open Stage

/-- A stage of a node that counts on a task. -/
inductive Duty where
  | visit (node : Nat)
  | sum (node stage : Nat)
  | write (node stage : Nat)
deriving DecidableEq

namespace Duty

/-- The stages at which one task is at work on a node. -/
def Active (s : Nat) : Prop := s = claimed ∨ s = busy ∨ s = handing ∨ s = news

instance (s : Nat) : Decidable (Active s) :=
  inferInstanceAs (Decidable (s = 3 ∨ s = 4 ∨ s = 5 ∨ s = 7))

/-- The duty of a node whose summing is at stage `s`. -/
def ofSum (i s : Nat) : List Duty :=
  if s = due then [visit i] else if Active s then [sum i s] else []

/-- The duty of a node whose writing is at stage `s`. -/
def ofWrite (i s : Nat) : List Duty :=
  if s = due then [visit i] else if Active s then [write i s] else []

/-- The stages of summing that count on a task. -/
theorem ofSum_stages (i : Nat) : ofSum i idle = [] ∧ ofSum i due = [visit i] ∧
    ofSum i claimed = [sum i claimed] ∧ ofSum i busy = [sum i busy] ∧ ofSum i waiting = [] ∧
    ofSum i news = [sum i news] ∧ ofSum i done = [] :=
  ⟨rfl, rfl, rfl, rfl, rfl, rfl, rfl⟩

/-- The stages of writing that count on a task. -/
theorem ofWrite_stages (i : Nat) : ofWrite i idle = [] ∧ ofWrite i promised = [] ∧
    ofWrite i due = [visit i] ∧ ofWrite i claimed = [write i claimed] ∧
    ofWrite i busy = [write i busy] ∧ ofWrite i handing = [write i handing] ∧
    ofWrite i waiting = [] ∧ ofWrite i news = [write i news] ∧ ofWrite i done = [] :=
  ⟨rfl, rfl, rfl, rfl, rfl, rfl, rfl, rfl, rfl⟩

/-- The duties of a report of what node `i` gained. -/
def ofNews (i : Nat) (gained : Phase) : List Duty :=
  (if gained.summed then [sum i news] else []) ++ if gained.written then [write i news] else []

/-- The visit of the leaf at the left end after it has been written. -/
def Exempt (nodes : Array Node) (L : Ledger) (d : Duty) : Prop :=
  ∃ i, d = visit i ∧ IsEdgeLeaf nodes i ∧ busy ≤ L.write i

end Duty

namespace Ledger
variable {L : Ledger} {i s : Nat}

/-- How many tasks the ledger counts on for a duty. -/
def owed (L : Ledger) : Duty → Nat
  | .visit i => (if L.sum i = due then 1 else 0) + if L.write i = due then 1 else 0
  | .sum i s => if Duty.Active s ∧ L.sum i = s then 1 else 0
  | .write i s => if Duty.Active s ∧ L.write i = s then 1 else 0

/-- When the summing of a node goes from one stage to another, the duty of the old stage is no
longer owed, and that of the new one is. -/
theorem owed_setSum (L : Ledger) (i s : Nat) (d : Duty) :
    (L.setSum i s).owed d + (Duty.ofSum i (L.sum i)).count d =
      L.owed d + (Duty.ofSum i s).count d := by
  have inactive : ¬ Duty.Active due := by decide
  cases d <;> simp only [owed, Duty.ofSum, sum_setSum, write_setSum] <;> grind

theorem owed_setWrite (L : Ledger) (i s : Nat) (d : Duty) :
    (L.setWrite i s).owed d + (Duty.ofWrite i (L.write i)).count d =
      L.owed d + (Duty.ofWrite i s).count d := by
  have inactive : ¬ Duty.Active due := by decide
  cases d <;> simp only [owed, Duty.ofWrite, sum_setWrite, write_setWrite] <;> grind

/-- The steps that the summing of a node may still take. -/
def sumCost (s : Nat) : Nat :=
  if s ≤ due then 22 else if s = claimed then 20 else if s = busy then 17
  else if s ≤ waiting then 18 else 0

/-- The steps that the writing of a node may still take. -/
def writeCost (s : Nat) : Nat :=
  if s ≤ due then 24 else if s = claimed then 20 else if s ≤ handing then 17
  else if s = waiting then 14 else 0

theorem sumCost_stages : sumCost idle = 22 ∧ sumCost due = 22 ∧ sumCost claimed = 20 ∧
    sumCost busy = 17 ∧ sumCost waiting = 18 ∧ sumCost news = 0 ∧ sumCost done = 0 := by
  decide

theorem writeCost_stages : writeCost idle = 24 ∧ writeCost promised = 24 ∧ writeCost due = 24 ∧
    writeCost claimed = 20 ∧ writeCost busy = 17 ∧ writeCost handing = 17 ∧
    writeCost waiting = 14 ∧ writeCost news = 0 ∧ writeCost done = 0 := by
  decide

/-- The steps that the first `n` nodes may still take. -/
def cost (n : Nat) (L : Ledger) : Nat :=
  (Finset.range n).sum fun i => sumCost (L.sum i) + writeCost (L.write i)

/-- Where two ledgers differ at one node only, their costs differ by those of this node. -/
theorem cost_of_sameBut {L' : Ledger} {n : Nat} (same : SameBut i L L') (lt : i < n) :
    L'.cost n + (sumCost (L.sum i) + writeCost (L.write i)) =
      L.cost n + (sumCost (L'.sum i) + writeCost (L'.write i)) := by
  have mem := Finset.mem_range.2 lt
  have rest : ((Finset.range n).erase i).sum
        (fun j => sumCost (L'.sum j) + writeCost (L'.write j)) =
      ((Finset.range n).erase i).sum fun j => sumCost (L.sum j) + writeCost (L.write j) := by
    refine Finset.sum_congr rfl fun j h => ?_
    obtain ⟨sum, write⟩ := same j (Finset.ne_of_mem_erase h)
    rw [sum, write]
  rw [cost, cost, ← Finset.add_sum_erase _ _ mem, ← Finset.add_sum_erase _ _ mem, rest]
  omega

/-- The cost of the old stage is traded for that of the new one. -/
theorem cost_setSum {n : Nat} (L : Ledger) (lt : i < n) (s : Nat) :
    (L.setSum i s).cost n + sumCost (L.sum i) = L.cost n + sumCost s := by
  have := cost_of_sameBut (L.sameBut_setSum i s) lt
  rw [sum_setSum, write_setSum, if_pos rfl] at this
  omega

theorem cost_setWrite {n : Nat} (L : Ledger) (lt : i < n) (s : Nat) :
    (L.setWrite i s).cost n + writeCost (L.write i) = L.cost n + writeCost s := by
  have := cost_of_sameBut (L.sameBut_setWrite i s) lt
  rw [sum_setWrite, write_setWrite, if_pos rfl] at this
  omega

/-- An entry takes duties out of the ledger and puts others in, and it pays for what is left to do
after it with what was left to do before. -/
structure Moves (n : Nat) (L L' : Ledger) (out into : List Duty) (paid spent : Nat) : Prop where
  owed : ∀ d, L'.owed d + out.count d = L.owed d + into.count d
  cost : L'.cost n + paid = L.cost n + spent

namespace Moves
variable {L' L'' : Ledger} {n a b : Nat} {out into out' into' : List Duty}
  {paid spent paid' spent' : Nat}

/-- An entry for the summing of one node. -/
theorem sum (lt : i < n) (at_a : L.sum i = a) (b : Nat) : L.Moves n (L.setSum i b)
    (Duty.ofSum i a) (Duty.ofSum i b) (sumCost a) (sumCost b) :=
  ⟨fun d => at_a ▸ L.owed_setSum i b d, at_a ▸ L.cost_setSum lt b⟩

theorem write (lt : i < n) (at_a : L.write i = a) (b : Nat) : L.Moves n (L.setWrite i b)
    (Duty.ofWrite i a) (Duty.ofWrite i b) (writeCost a) (writeCost b) :=
  ⟨fun d => at_a ▸ L.owed_setWrite i b d, at_a ▸ L.cost_setWrite lt b⟩

/-- Two entries in a row take out and put in what each of them does. -/
theorem trans (h : L.Moves n L' out into paid spent) (h' : L'.Moves n L'' out' into' paid' spent') :
    L.Moves n L'' (out ++ out') (into ++ into') (paid + paid') (spent + spent') := by
  constructor
  · intro d
    have := h.owed d
    have := h'.owed d
    rw [List.count_append, List.count_append]
    omega
  · have := h.cost
    have := h'.cost
    omega

end Moves

end Ledger

namespace Task
variable {α : Type}

/-- The stages that a task carries on. -/
def duties (nodes : Array Node) : Task α → List Duty
  | .visit i => [.visit i]
  | .descend l r => [.visit l, .visit r]
  | .readLeftTotal p _ _ => [.write p busy]
  | .readPrefix p _ _ _ => [.write p busy]
  | .handLeft l _ _ _ => [.write ((above nodes l).getD 0) busy]
  | .extend l _ _ _ => [.write ((above nodes l).getD 0) busy]
  | .handRight l _ _ => [.write ((above nodes l).getD 0) busy]
  | .tellRight l _ => [.write ((above nodes l).getD 0) busy]
  | .tellLeft l _ _ => [.write ((above nodes l).getD 0) handing]
  | .claimLeaf i seen => if seen.told then [.write i claimed] else [.sum i claimed]
  | .readStart i _ => [.write i busy]
  | .writeLeaf i gained _ => (if gained.summed then [.sum i busy] else []) ++ [.write i busy]
  | .sumLeaf i => [.sum i busy]
  | .setLeafTotal i gained _ => .sum i busy :: if gained.written then [.write i news] else []
  | .report i gained => Duty.ofNews i gained
  | .leave a => Duty.ofNews a.node a.gained
  | .lookTotal a => Duty.ofNews a.node a.gained
  | .joinLeft a _ _ => Duty.ofNews a.node a.gained
  | .joinRight a _ _ => Duty.ofNews a.node a.gained
  | .joinTotals a _ _ => Duty.ofNews a.node a.gained
  | .setTotal a _ => Duty.ofNews a.node a.gained
  | .mark a => Duty.ofNews a.node a.gained
  | .restart p => [.sum p news, .visit p]

/-- The steps that the total of a parent may still take, for one who reports that it is summed. -/
def openCost (s : Memory α) (parent : Nat) (gained : Phase) : Nat :=
  if gained.summed ∧ (s.total? parent).isNone then 4 else 0

/-- The steps that a task may still take, as long as it does not carry a stage on. It looks at its
parent again only when another task has marked the parent in the meantime. -/
def cost (nodes : Array Node) (s : Memory α) : Task α → Nat
  | .visit _ => 1
  | .descend _ _ => 3
  | .readLeftTotal _ _ _ => 7
  | .readPrefix _ _ _ _ => 6
  | .handLeft _ _ _ _ => 5
  | .extend _ _ _ _ => 4
  | .handRight _ _ _ => 3
  | .tellRight _ _ => 2
  | .tellLeft _ _ _ => 1
  | .claimLeaf _ _ => 1
  | .readStart _ _ => 2
  | .writeLeaf _ _ _ => 1
  | .sumLeaf _ => 2
  | .setLeafTotal _ _ _ => 1
  | .report i gained =>
    match above nodes i with
    | none => 1
    | some p => 3 * (s.phase p).missing + 3 + openCost s p gained
  | .leave a => 3 * a.seen.missing + 1 + openCost s a.parent a.gained
  | .lookTotal a => 3 * a.seen.missing + 2 + openCost s a.parent a.gained
  | .joinLeft a _ _ => 3 * a.seen.missing + 5
  | .joinRight a _ _ => 3 * a.seen.missing + 4
  | .joinTotals a _ _ => 3 * a.seen.missing + 3
  | .setTotal a _ => 3 * a.seen.missing + 2
  | .mark a => 3 * a.seen.missing + 1
  | .restart _ => 18

/-- A report looks at its parent again at most as often as there are marks that the parent may miss,
so its cost is bounded at every node. -/
theorem cost_report_le (nodes : Array Node) (s : Memory α) (i : Nat) (gained : Phase) :
    cost nodes s (.report i gained) ≤ 16 := by
  simp only [cost, openCost]
  split
  · omega
  · next p _ =>
    have := (s.phase p).missing_le
    split <;> omega

/-- A task does not cost more in a later memory. -/
theorem cost_le_of_grows {s s' : Memory α} (grows : s.Grows s') (nodes : Array Node)
    (task : Task α) : task.cost nodes s' ≤ task.cost nodes s := by
  have total (p : Nat) (gained : Phase) : openCost s' p gained ≤ openCost s p gained := by
    simp only [openCost]
    cases h : s.total? p with
    | none => grind
    | some x => simp [grows.total h]
  cases task with
  | report i gained =>
    simp only [cost]
    split
    · exact Nat.le_refl _
    · next p _ =>
      have := total p gained
      have := (grows.phase p).missing_le
      omega
  | leave a => exact Nat.add_le_add_left (total a.parent a.gained) _
  | lookTotal a => exact Nat.add_le_add_left (total a.parent a.gained) _
  | _ => exact Nat.le_refl _

end Task

end Bisection.Scan
