import Bisection.Element.Key
import Bisection.Room
import Bisection.Store

/-!
# Elements

The elements of an array have a natural order (`Ord`), an equality (`==`), which
need not be reflexive, a key, and a written form. They can also be generated by a
linear rule.
-/

namespace Bisection
set_option autoImplicit false

/-- The written form of an element. -/
inductive Value where
  /-- An integer, in digits. -/
  | number (i : Int)
  /-- A text. -/
  | text (s : String)
  | truth (b : Bool)
  | pair (x y : Int)
deriving DecidableEq, Repr

/-- A written form as a line of text. -/
def Value.line : Value → String
  | number i => toString i
  | text s => s
  | truth b => if b then "true" else "false"
  | pair x y => "[" ++ toString x ++ "," ++ toString y ++ "]"

/-- The types of elements. -/
class Element (α : Type) extends Ord α, BEq α, UniqueKey α, Cell α where
  /-- The written form. -/
  written : α → Value
  /-- The element that a generator makes of the number `v` at the index `i`. -/
  generated (v : Int) (i : Nat) : α
  /-- The order in which elements are listed when their own order is open: the natural order,
  refined where it does not tell all elements apart. -/
  listingOrder : α → α → Ordering
  /-- That there is one element only, for such types. Their arrays are written as a length. -/
  single : Option (PLift (∀ x y : α, x = y))

/-- That there is one element of the type only, if there is. -/
def Element.only (α : Type) [Element α] : Option (PLift (∀ x y : α, x = y)) := Element.single

/-- The rule `(i * mul + add) mod mod - off` for the `i`-th number. -/
structure Generator where
  mul : Int
  add : Int
  modulus : Int
  off : Int
deriving DecidableEq, Repr

/-- The `i`-th number. -/
def Generator.number (g : Generator) (i : Nat) : Int :=
  (i * g.mul + g.add) % g.modulus - g.off

/-- The `i`-th element. -/
def Generator.element {α : Type} [Element α] (g : Generator) (i : Nat) : α :=
  Element.generated (g.number i) i

/-- A store of `n` elements. -/
def Generator.store {α : Type} [Element α] (g : Generator) (n : Nat) : Store α :=
  match Element.only α with
  | some single => .copies single.down (g.element 0) n
  | none => .cells (Array.ofFn fun i : Fin n => g.element i.val)

/-- A written array: its elements, or their number if there is no telling them apart. -/
inductive Contents where
  | items (xs : Array Value)
  | count (n : Nat)
deriving DecidableEq, Repr

/-- The written form of a store. -/
def Contents.ofStore {α : Type} [Element α] (s : Store α) : Contents :=
  match Element.only α, s with
  | some _, s => .count s.size
  | none, .cells xs => .items (xs.map Element.written)
  | none, .copies _ x n => .items (Array.replicate n (Element.written x))

end Bisection
