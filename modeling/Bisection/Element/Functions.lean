import Bisection.Element.Kinds

/-!
# Functions on elements

The functions, operators, predicates and comparators that belong to one kind of
element.
-/

namespace Bisection
set_option autoImplicit false

namespace Fixed
variable {k : IntKind}

/-- `x * c + y`. -/
def linear (c x y : Fixed k) : Fixed k := x * c + y

/-- Whether `r` is the remainder of `x` by `m`. -/
def hasRemainder (m r x : Fixed k) : Bool := x.remainder m == r

/-- Compares the remainders by `m`. -/
def compareRemainders (m x y : Fixed k) : Ordering := compare (x.remainder m) (y.remainder m)

/-- Equal, greater or less as `x - y` leaves 0, 1 or 2 by three: `0 < 1 < 2 < 0`. -/
def compareCyclic (x y : Fixed k) : Ordering :=
  match (x - y).val % 3 with
  | 0 => .eq
  | 1 => .gt
  | _ => .lt

end Fixed

namespace Binary

/-- Compares numbers. A value that is no number is equal to all others. -/
def compareLoosely {f : BinaryFormat} (x y : Binary f) : Ordering := (x.compareNumbers y).getD .eq

end Binary

namespace Text

/-- The text with its characters in reverse. -/
def reverse (s : String) : String := String.ofList s.toList.reverse

/-- The text with the letters `a` to `z` in upper case. -/
def upper (s : String) : String := s.map Char.toUpper

/-- Whether `part` occurs in a list of characters. -/
def occursIn (part : List Char) : List Char → Bool
  | [] => part.isEmpty
  | c :: cs => part.isPrefixOf (c :: cs) || occursIn part cs

/-- Whether `part` occurs in the text. -/
def contains (part s : String) : Bool := occursIn part.toList s.toList

/-- The two texts in parentheses. -/
def paren (x y : String) : String := "(" ++ x ++ " " ++ y ++ ")"

/-- Compares the numbers of characters. -/
def compareLengths (x y : String) : Ordering := compare x.length y.length

/-- Whether the number of characters leaves `r` by `m`. -/
def lengthHasRemainder (m r : Nat) (s : String) : Bool := s.length % m == r

end Text

namespace Keyed

/-- The pair with the remainder of its key by `m` for a key. -/
def keyRemainder (m : Word32) (x : Keyed) : Keyed := { x with key := x.key.remainder m }

/-- The pair with key and tag exchanged. -/
def swap (x : Keyed) : Keyed := ⟨x.tag, x.key⟩

/-- Adds the keys, and mixes the tags. -/
def mix (x y : Keyed) : Keyed := ⟨x.key + y.key, x.tag * Fixed.ofInt 31 + y.tag⟩

/-- Compares the tags. -/
def compareTags (x y : Keyed) : Ordering := compare x.tag y.tag

/-- Whether `r` is the remainder of the tag by `m`. -/
def tagHasRemainder (m r : Word32) (x : Keyed) : Bool := Fixed.hasRemainder m r x.tag

end Keyed

end Bisection
