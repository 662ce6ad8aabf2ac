import Bisection.Scan.Tree
import Bisection.Store

/-!
# What the tasks of a scan share

Each node has three shared cells. Its `Phase` is a set of flags that are only
ever added. Its total and its prefix are set at most once. The tasks also share
the scanned elements, and the record of which nodes started to write.

On a leaf the flags say how far the leaf is. On an inner node `told` speaks of the
node, while `summed` and `written` say that one of its two children got there: the
child that comes second finds the flag set and carries the news further up.
-/

namespace Bisection.Scan
set_option autoImplicit false

/-- How far a node is. -/
structure Phase where
  /-- It was told to write its running totals. -/
  told : Bool := false
  /-- Its total is known. -/
  summed : Bool := false
  /-- Its running totals are written. -/
  written : Bool := false
deriving DecidableEq, Repr, Inhabited

/-- The flags of both. -/
def Phase.union (p q : Phase) : Phase :=
  ⟨p.told || q.told, p.summed || q.summed, p.written || q.written⟩

/-- The cells of the nodes, the scanned elements, and the ranges that started to write. -/
structure Memory (α : Type) where
  phases : Array Phase
  prefixes : Array (Option α)
  totals : Array (Option α)
  elems : Store α
  started : Array (Nat × Nat)
deriving Inhabited

namespace Memory
variable {α : Type}

/-- The memory before a scan over a tree of `n` nodes. -/
def fresh (n : Nat) (elems : Store α) : Memory α where
  phases := Array.replicate n {}
  prefixes := Array.replicate n none
  totals := Array.replicate n none
  elems := elems
  started := #[]

/-- The phase of a node. -/
def phase (s : Memory α) (node : Nat) : Phase := s.phases.getD node {}

/-- The prefix of a node, if it was set. -/
def before? (s : Memory α) (node : Nat) : Option α := s.prefixes.getD node none

/-- The total of a node, if it was set. -/
def total? (s : Memory α) (node : Nat) : Option α := s.totals.getD node none

/-- Sets a phase that is still the one that was seen, and tells whether it was. -/
def exchange (s : Memory α) (node : Nat) (seen new : Phase) : Memory α × Bool :=
  if s.phase node = seen then ({ s with phases := s.phases.setIfInBounds node new }, true)
  else (s, false)

/-- Tells a node to write, and whether it had not been told before. -/
def tell (s : Memory α) (node : Nat) : Memory α × Bool :=
  if (s.phase node).told then (s, false)
  else
    let told := (s.phase node).union { told := true }
    ({ s with phases := s.phases.setIfInBounds node told }, true)

/-- Sets the prefix of a node, unless it is set already. -/
def setPrefix (s : Memory α) (node : Nat) (x : α) : Memory α :=
  { s with prefixes := s.prefixes.modify node (· <|> some x) }

/-- Sets the total of a node, unless it is set already. -/
def setTotal (s : Memory α) (node : Nat) (x : α) : Memory α :=
  { s with totals := s.totals.modify node (· <|> some x) }

/-- Writes elements to the positions from `lo` on. -/
def write (s : Memory α) (lo : Nat) (xs : Array α) : Memory α :=
  { s with elems := s.elems.overwrite lo xs }

end Memory

end Bisection.Scan
