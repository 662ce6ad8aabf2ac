import Bisection.Fork
import Bisection.Log.Notice
import Bisection.Script.Callback

/-!
# Watching an operation

An operation is watched by running it in `Watched α`, where a journal takes down
what it reports and how it calls its callback. What was taken down stays when the
callback gives up.
-/

namespace Bisection
set_option autoImplicit false

/-- What is asked to be known about the calls of a callback. -/
structure Watch where
  count : Bool
  trace : Bool
deriving DecidableEq, Repr

/-- The arguments of a call. -/
inductive Arguments where
  | element (x : Value)
  | index (i : Nat)
  | pair (x y : Value)
deriving DecidableEq, Repr

/-- What was taken down: notices, the number of calls, and their arguments. -/
structure Journal where
  notices : Array Notice
  calls : Nat
  arguments : Array Arguments
deriving Inhabited

/-- An empty journal. -/
def Journal.empty : Journal := ⟨#[], 0, #[]⟩

/-- Computations that are watched. -/
abbrev Watched : Type → Type := ExceptT Abort (StateM Journal)

instance (priority := high) : Reports (StateM Journal) where
  note n := modify fun j => { j with notices := j.notices.push n }

/-- Watched computations that also gather elements. -/
abbrev Gathering (α : Type) : Type → Type := ExceptT Abort (StateT (Array α) (StateM Journal))

namespace Watched
variable {α β : Type}

/-- Takes down a call. -/
@[inline] def call (w : Watch) (arguments : Unit → Arguments) : Watched Unit :=
  modify fun j => { j with
    calls := j.calls + 1
    arguments := if w.trace then j.arguments.push (arguments ()) else j.arguments }

/-- A callback on an element, watched. -/
@[inline] def onElement [Element α] (w : Watch) (f : α → Except Abort β) (x : α) : Watched β := do
  call w fun _ => .element (Element.written x)
  ExceptT.mk (pure (f x))

/-- A callback on an index, watched. -/
@[inline] def onIndex (w : Watch) (f : Nat → Except Abort β) (i : Nat) : Watched β := do
  call w fun _ => .index i
  ExceptT.mk (pure (f i))

/-- A callback on a pair, watched. -/
@[inline] def onPair [Element α] (w : Watch) (f : α → α → Except Abort β) (x y : α) :
    Watched β := do
  call w fun _ => .pair (Element.written x) (Element.written y)
  ExceptT.mk (pure (f x y))

/-- The result of a watched computation, and its journal. -/
def run' (x : Watched β) : Except Abort β × Journal := (ExceptT.run x).run .empty

end Watched

namespace Gathering
variable {α β : Type}

/-- Gathers the element that a watched computation gives. -/
def gather (x : Watched α) : Gathering α Unit := do
  let y ← ExceptT.mk (StateT.lift (ExceptT.run x))
  modify (·.push y)

/-- The elements that a computation gathers. -/
def gathered (x : Gathering α Unit) : Watched (Array α) := ExceptT.mk do
  let (r, ys) ← (ExceptT.run x).run #[]
  pure (r.map fun _ => ys)

end Gathering

end Bisection
