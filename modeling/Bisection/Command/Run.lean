import Bisection.Command.Options
import Bisection.Element.Kinds
import Bisection.Random.Sample
import Bisection.Script.Callback
import Bisection.Window.Extremes
import Bisection.Window.Queries
import Bisection.Window.Sorting
import Bisection.Window.Subsets
import Bisection.Window.Totals

/-!
# Running a scenario

Each scenario makes an array of numbers, runs one operation on it, and prints one
line about the result. Random numbers start from the same seed in every run.
-/

namespace Bisection.Command
set_option autoImplicit false

/-- What a program leaves: its exit code and what it wrote. -/
structure Outcome where
  exit : UInt32
  stdout : String
  stderr : String
deriving DecidableEq, Repr

/-- Unsigned numbers of 64 bits. -/
abbrev Word64 : Type := Fixed ⟨false, 64⟩

/-- The seed of all random numbers. -/
def seed : UInt64 := 42

/-- Random numbers lie below this. -/
def randomBound : Nat := 1000000

/-- The numbers below `n`. -/
def ascending (n : Nat) : Array Word64 := (Array.range n).map fun i : Nat => Fixed.ofInt i

/-- Random numbers, `n` of them, behind those of `out`. -/
def drawNumbers (source : Random.Source) : Nat → source.State → Array Word64 → Array Word64
  | 0, _, out => out
  | n + 1, r, out =>
    let (x, r) := source.below randomBound r
    drawNumbers source n r (out.push (Fixed.ofInt x))

/-- Random numbers, `n` of them. -/
def randomNumbers (source : Random.Source) (n : Nat) : Array Word64 :=
  drawNumbers source n (source.ofSeed seed) (Array.emptyWithCapacity n)

/-- The indices of the ones among `n` zeros, at most `density` of them. -/
def needles (source : Random.Source) (n density : Nat) : Array Nat :=
  source.sample n (min density n) (source.ofSeed seed)

/-- Zeros, `n` of them, with a one at each of the needles. -/
def haystack (source : Random.Source) (n density : Nat) : Array Word64 :=
  (needles source n density).foldl (fun xs i => xs.setIfInBounds i (Fixed.ofInt 1))
    (Array.replicate n (Fixed.ofInt 0))

/-- A value that may be missing, as the program prints it. -/
def optional {α : Type} (text : α → String) : Option α → String
  | some x => "Some(" ++ text x ++ ")"
  | none => "None"

/-- The digits of a number. -/
def digits (x : Word64) : String := toString x.val

/-- A summary, as the program prints it. -/
def summaryText (s : Summary Word64) : String :=
  "Summary \x7b count: " ++ toString s.count ++ ", min: " ++ optional digits s.min ++
    ", max: " ++ optional digits s.max ++ ", min_index: " ++ optional toString s.minIndex ++
    ", max_index: " ++ optional toString s.maxIndex ++ " \x7d"

/-- Whether a number is even. -/
def isEven (x : Word64) : Bool := x.val % 2 == 0

/-- What a scenario prints, if there is room for its input. -/
def report (source : Random.Source) (pool : Pool) (o : Options) : Except Abort String := do
  claimRoom o.inputSize (Cell.bytes Word64)
  let window (xs : Array Word64) : Window Word64 :=
    (⟨pool, o.threshold, .cells xs⟩ : BulkArray Word64).whole
  let add (x y : Word64) : Except Abort Word64 := .ok (x + y)
  match o.scenario with
  | .sum =>
    let total ← (window (ascending o.inputSize)).reduce (Fixed.ofInt 0) add
    pure ("sum = " ++ digits total)
  | .summary =>
    let found ← (window (randomNumbers source o.inputSize)).summary
    pure ("summary = " ++ summaryText found)
  | .select =>
    let w := window (randomNumbers source o.inputSize)
    let selected ← w.select fun x => .ok (isEven x)
    pure s!"selected {selected.size} out of {w.size} elements"
  | .cumulate =>
    let w ← (window (ascending o.inputSize)).cumulate (Fixed.ofInt 0) add
    pure ("total = " ++ optional digits w.elems.back?)
  | .sort =>
    let w ← (window (randomNumbers source o.inputSize)).sort
    let sorted ← w.isSorted
    pure s!"sorted {w.size} elements: {sorted}"
  | .findAny =>
    let w := window (haystack source o.inputSize o.density)
    let found ← w.anyIndex fun x => .ok (x == Fixed.ofInt 1)
    pure ("found = " ++ optional toString found)

/-- Runs the program on a machine with the given number of processors, and no terminal. -/
def run (processors : Nat) (args : List String) (source : Random.Source := .stream) : Outcome :=
  match Options.parse args with
  | .error e => ⟨2, "", Terminal.plain e.message ++ "\n"⟩
  | .ok o =>
    match Id.run (Pool.build processors o.workers o.pinning) with
    | .error e => ⟨1, "", s!"failed to build the pool: {e.message}\n"⟩
    | .ok pool =>
      match report source pool o with
      | .ok text => ⟨0, text ++ "\n", ""⟩
      | .error e => ⟨101, "", "\n" ++ e.message ++ "\n"⟩

end Bisection.Command
