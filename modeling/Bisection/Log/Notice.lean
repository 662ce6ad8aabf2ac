/-!
# What the operations report

Operations report their progress as notices: at which sizes they cut, what a
selection kept, what a search found, when a scan turns to writing. `Notice.text`
is the line written for one. `Reports m` lets a computation of `m` report; plain
values report nothing.
-/

namespace Bisection
set_option autoImplicit false

/-- The bulk operations that report the sizes at which they cut. -/
inductive Action where
  | forEach | replaceWith | replaceWithIndex | replaceWithCombined | map | reduce | summary
  | anyIndex | select | removeAll | retain | removeConsecutiveDuplicates | unique
  | cumulate | precumulate | sort | isSorted
deriving DecidableEq, Repr

/-- The name of an action in a notice. -/
def Action.label : Action → String
  | forEach => "for_each"
  | replaceWith => "replace_with"
  | replaceWithIndex => "replace_with_index"
  | replaceWithCombined => "replace_with_combined"
  | map => "map"
  | reduce => "reduce"
  | summary => "summary"
  | anyIndex => "any_index"
  | select => "select"
  | removeAll => "remove_all"
  | retain => "retain"
  | removeConsecutiveDuplicates => "remove_consecutive_duplicates"
  | unique => "unique"
  | cumulate => "cumulate"
  | precumulate => "precumulate"
  | sort => "sort"
  | isSorted => "is_sorted"

/-- One reported fact. -/
inductive Notice where
  /-- A pool of workers was built. -/
  | spawned (workers : Nat)
  /-- An operation starts over `count` elements. -/
  | processing (action : Action) (count threshold : Nat)
  /-- A selection from `lo..hi` kept `kept` elements. -/
  | selected (kept lo hi : Nat)
  /-- A removal keeps `kept` of `count` elements. -/
  | keeping (action : Action) (kept count : Nat)
  /-- A search met a match, which is its answer if `stored`. -/
  | found (index : Nat) (stored : Bool)
  /-- A search left out `lo..hi`. -/
  | skipping (lo hi : Nat)
  /-- A scan knows the total of `lo..hi` and starts to write it. -/
  | cumulating (lo hi : Nat)
deriving DecidableEq, Repr

/-- The line written for a notice. -/
def Notice.text : Notice → String
  | spawned workers => s!"DEBUG Spawned a fork-join pool with {workers} threads"
  | processing action count threshold =>
    s!"DEBUG [{action.label}] Processing {count} elements with leaves of at most {threshold}"
  | selected kept lo hi => s!"TRACE [select] Selected {kept} elements in {lo}..{hi}"
  | keeping action kept count => s!"TRACE [{action.label}] Keeping {kept} out of {count} elements"
  | found index stored => s!"TRACE [search] Found index {index} (stored: {stored})"
  | skipping lo hi => s!"TRACE [search] Skipping range {lo}..{hi}, a match was already found"
  | cumulating lo hi => s!"TRACE [scan] Range {lo}..{hi} is summed, starting to cumulate"

/-- Computations that can report. -/
class Reports (m : Type → Type) where
  note : Notice → m Unit

instance : Reports Id where
  note _ := ()

instance {ε : Type} : Reports (Except ε) where
  note _ := .ok ()

instance {ε : Type} {m : Type → Type} [Monad m] [Reports m] : Reports (ExceptT ε m) where
  note n := ExceptT.lift (Reports.note n)

instance {σ : Type} {m : Type → Type} [Monad m] [Reports m] : Reports (StateT σ m) where
  note n := StateT.lift (Reports.note n)

end Bisection
