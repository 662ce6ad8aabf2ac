/-!
# Binary floating-point numbers

A number of a `BinaryFormat` is its bits: a sign, a biased exponent and a
fraction. Sums and products are worked out exactly in integers and rounded once,
to the nearest number, a tie to the even one. A result that is no number is
always the same one, `canonicalNaN`; the other operations keep the bits of such
values.
-/

namespace Bisection
set_option autoImplicit false

/-- The widths of a format's exponent and fraction. -/
structure BinaryFormat where
  exponentBits : Nat
  fractionBits : Nat
deriving DecidableEq, Repr

namespace BinaryFormat

/-- Single precision. -/
def single : BinaryFormat := ⟨8, 23⟩

/-- Double precision. -/
def double : BinaryFormat := ⟨11, 52⟩

/-- The number of bits. -/
def width (f : BinaryFormat) : Nat := 1 + f.exponentBits + f.fractionBits

/-- The bits below the sign. -/
def magnitudeCount (f : BinaryFormat) : Nat := 1 <<< (f.exponentBits + f.fractionBits)

/-- The bits of positive infinity. -/
def infinityBits (f : BinaryFormat) : Nat := (1 <<< f.exponentBits - 1) <<< f.fractionBits

/-- The exponent of the last place of the smallest numbers. -/
def leastExponent (f : BinaryFormat) : Int :=
  2 - (1 <<< (f.exponentBits - 1) : Nat) - f.fractionBits

end BinaryFormat

/-- A number of a format. -/
structure Binary (f : BinaryFormat) where
  bits : Nat
  bits_lt : bits < 1 <<< f.width
deriving DecidableEq

namespace Binary
variable {f : BinaryFormat}

/-- The number with the given bits, as far as there is room for them. -/
def ofBits (bits : Nat) : Binary f :=
  ⟨bits % (1 <<< f.width), Nat.mod_lt _ (Nat.one_shiftLeft _ ▸ Nat.two_pow_pos _)⟩

instance : Inhabited (Binary f) := ⟨ofBits 0⟩

/-- Whether the sign bit is set. -/
def negative (x : Binary f) : Bool := f.magnitudeCount ≤ x.bits

/-- The bits below the sign. -/
def magnitude (x : Binary f) : Nat := x.bits % f.magnitudeCount

/-- The number with the given sign and other bits. -/
def ofParts (negative : Bool) (magnitude : Nat) : Binary f :=
  ofBits (if negative then f.magnitudeCount + magnitude else magnitude)

/-- Whether it is no number. -/
def isNaN (x : Binary f) : Bool := f.infinityBits < x.magnitude

/-- Whether it is infinite. -/
def isInfinite (x : Binary f) : Bool := x.magnitude == f.infinityBits

/-- The value of an operation that has no number for a result. -/
def canonicalNaN : Binary f := ofBits (f.infinityBits + 1 <<< (f.fractionBits - 1))

/-- The integer `m` and exponent `e` for which the absolute value is `m * 2 ^ e`. -/
def finite (x : Binary f) : Nat × Int :=
  let exponent := x.magnitude >>> f.fractionBits
  let fraction := x.magnitude % (1 <<< f.fractionBits)
  if exponent = 0 then (fraction, f.leastExponent)
  else (1 <<< f.fractionBits + fraction, f.leastExponent + (exponent - 1))

/-- The quotient by `2 ^ n`, rounded to the nearest integer, a tie to the even one. -/
def roundShift (m n : Nat) : Nat :=
  let q := m >>> n
  let twice := 2 * (m % (1 <<< n))
  if 1 <<< n < twice ∨ (twice = 1 <<< n ∧ q % 2 = 1) then q + 1 else q

/-- The number nearest to `m * 2 ^ e`, with the given sign. -/
def round (negative : Bool) (m : Nat) (e : Int) : Binary f :=
  if m = 0 then ofParts negative 0
  else
    let place := max (e + Nat.log2 m - f.fractionBits) f.leastExponent
    let units := if place ≤ e then m <<< (e - place).toNat else roundShift m (place - e).toNat
    let magnitude := ((place - f.leastExponent).toNat <<< f.fractionBits) + units
    ofParts negative (min magnitude f.infinityBits)

/-- The number nearest to an integer. -/
def ofInt (i : Int) : Binary f := round (i < 0) i.natAbs 0

/-- The number with the opposite sign. -/
def neg (x : Binary f) : Binary f := ofParts (!x.negative) x.magnitude

/-- The number without its sign. -/
def abs (x : Binary f) : Binary f := ofParts false x.magnitude

/-- The integer `s` and exponent `e` for which a finite number is `s * 2 ^ e`. -/
def signedFinite (x : Binary f) : Int × Int :=
  let (m, e) := x.finite
  (if x.negative then -m else m, e)

/-- The sum. -/
def add (x y : Binary f) : Binary f :=
  if x.isNaN ∨ y.isNaN then canonicalNaN
  else if x.isInfinite then
    if y.isInfinite ∧ x.negative ≠ y.negative then canonicalNaN else x
  else if y.isInfinite then y
  else
    let (a, d) := x.signedFinite
    let (b, e) := y.signedFinite
    let place := min d e
    let sum := a <<< (d - place).toNat + b <<< (e - place).toNat
    if sum = 0 then ofParts (x.negative && y.negative) 0
    else round (sum < 0) sum.natAbs place

/-- The difference. -/
def sub (x y : Binary f) : Binary f := add x y.neg

/-- The product. -/
def mul (x y : Binary f) : Binary f :=
  let negative := x.negative != y.negative
  if x.isNaN ∨ y.isNaN then canonicalNaN
  else if x.isInfinite ∨ y.isInfinite then
    if x.magnitude = 0 ∨ y.magnitude = 0 then canonicalNaN else ofParts negative f.infinityBits
  else
    let (a, d) := x.finite
    let (b, e) := y.finite
    round negative (a * b) (d + e)

/-- The position in the total order: negative values in reverse, `-0` before `0`, values that are no
numbers outermost. -/
def rank (x : Binary f) : Int := if x.negative then -x.magnitude - 1 else x.magnitude

/-- The position among the numbers, where both zeros are one. -/
def position (x : Binary f) : Int := if x.negative then -x.magnitude else x.magnitude

/-- The total order of all values. -/
instance : Ord (Binary f) := ⟨fun x y => compare x.rank y.rank⟩

/-- The order of numbers, which says nothing about values that are none. -/
def compareNumbers (x y : Binary f) : Option Ordering :=
  if x.isNaN ∨ y.isNaN then none else some (compare x.position y.position)

/-- Equality of numbers: both zeros are equal, and a value that is no number equals nothing. -/
instance : BEq (Binary f) := ⟨fun x y => x.compareNumbers y == some .eq⟩

/-- The bits, where all values that are no numbers have the same. -/
def canonicalBits (x : Binary f) : Nat :=
  if x.isNaN then (canonicalNaN : Binary f).bits else x.bits

/-- The bits in hexadecimal digits. -/
def hex (x : Binary f) : String :=
  let digits := Nat.toDigits 16 x.bits
  String.ofList (List.replicate ((f.width + 3) / 4 - digits.length) '0' ++ digits)

end Binary

end Bisection
