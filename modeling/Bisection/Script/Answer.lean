import Bisection.Element.Basic
import Bisection.Failure
import Bisection.Log.Notice
import Bisection.Script.Journal
import Bisection.Window.Extremes

/-!
# Answers of a script

What the steps of a script answer, with elements in their written form.
-/

namespace Bisection
set_option autoImplicit false

/-- What is seen of an array, or of a window on one. -/
inductive View where
  | whole (contents : Contents)
  | part (lo hi : Nat) (contents : Contents)
deriving DecidableEq, Repr

/-- What was taken down of a step, as far as it was asked for. -/
structure Record where
  calls : Option Nat
  trace : Option (Array Arguments)
  notices : Option (Array Notice)
deriving DecidableEq, Repr

/-- What an operation answers. -/
inductive Body where
  | state (view : View)
  | info (view : View) (len : Nat)
  | visited (contents : Contents)
  | refused (view : View) (e : Failure)
  | result (x : Value)
  | summary (count : Nat) (min max : Option Value) (minIndex maxIndex : Option Nat)
  | index (i : Option Nat)
  | truth (b : Bool)
  | appended (contents : Contents)
  | total (view : View) (x : Value)
deriving DecidableEq, Repr

/-- What a step answers. -/
inductive Answer where
  /-- The step had nothing to tell. -/
  | settled
  /-- An operation was performed. -/
  | performed (body : Body) (record : Record)
  /-- A new array, and what the steps on it answered, with the array after them if they all ran. -/
  | derived (contents : Contents) (record : Record)
      (sequel : Option (List Answer × Option Contents))
  /-- The answers in a window, and the array after them if they all ran. -/
  | bounded (answers : List Answer) (whole : Option Contents)
  /-- The step was refused. -/
  | refused (e : Failure) (notices : Option (Array Notice))
  /-- A callback gave up. -/
  | aborted (a : Abort)

end Bisection
