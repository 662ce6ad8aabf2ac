import Bisection.Command.Run

/-!
# From lengths to offsets

A program that turns a list of lengths into the offsets at which they start, with
one scan, and prints the total of all lengths.
-/

namespace Bisection.Command
set_option autoImplicit false

/-- The number of lengths. -/
def lengthCount : Nat := 1000000

/-- The lengths: they go through the numbers below 17 again and again. -/
def lengths : Array Word64 := (Array.range lengthCount).map fun i => Fixed.ofInt (i % 17 : Nat)

/-- The offsets at which lengths start one behind the other, and their total. -/
def offsets (pool : Pool) (lengths : Array Word64) : Array Word64 × Word64 :=
  let (w, total) := Id.run ((⟨pool, none, .cells lengths⟩ : BulkArray Word64).whole.precumulate
    (Fixed.ofInt 0) fun x y => pure (x + y))
  (w.elems, total)

/-- Whether each offset is the total of the lengths before it, and `total` that of all. -/
def areOffsets (lengths offsets : Array Word64) (total : Word64) : Bool :=
  let (fits, sum) := (lengths.zip offsets).foldl
    (fun (fits, sum) (length, offset) => (fits && offset == sum, sum + length))
    (true, (Fixed.ofInt 0 : Word64))
  fits && sum == total

/-- Runs the program on a machine with the given number of processors. -/
def runOffsets (processors : Nat) : Outcome :=
  match Id.run (Pool.build processors .available .ifSupported) with
  | .error e => ⟨101, "", e.message ++ "\n"⟩
  | .ok pool =>
    let (offsets, total) := offsets pool lengths
    if areOffsets lengths offsets total then ⟨0, s!"total = {digits total}\n", ""⟩
    else ⟨101, "", "the offsets are wrong\n"⟩

end Bisection.Command
