import Bisection.Element.Basic

/-!
# Kinds of elements

Integers, floating-point numbers, characters, truth values, texts, keyed pairs,
and the single value `()`.
-/

namespace Bisection
set_option autoImplicit false

/-- Integers of up to this many bits are written as numbers, wider ones as text. -/
def widestNumber : Nat := 32

/-- Whether integers of a kind are narrow enough to be written as numbers. -/
def IntKind.asNumber (k : IntKind) : Bool := k.bits ≤ widestNumber

instance {k : IntKind} : Element (Fixed k) where
  written x := if k.asNumber then .number x.val else .text (toString x.val)
  generated v _ := Fixed.ofInt v
  bytes := (k.bits + 7) / 8
  listingOrder := compare
  single := none

instance {f : BinaryFormat} : Element (Binary f) where
  written x := .text x.hex
  generated v _ := Binary.ofInt v
  bytes := (f.width + 7) / 8
  listingOrder := compare
  single := none

instance : Element Char where
  written c := .text c.toString
  generated v _ := Char.ofNat (97 + (v % 26).toNat)
  bytes := 4
  listingOrder := compare
  single := none

instance : Element Bool where
  written := .truth
  generated v _ := v % 2 == 1
  bytes := 1
  listingOrder := compare
  single := none

instance : Element String where
  written := .text
  generated v _ := toString v
  bytes := 24
  listingOrder := compare
  single := none

/-- The only element without a content. -/
instance : Element Unit where
  compare _ _ := .eq
  beq _ _ := true
  written _ := .text "unit"
  generated _ _ := ()
  bytes := 0
  listingOrder _ _ := .eq
  single := some ⟨fun _ _ => rfl⟩

/-- Signed integers of 32 bits. -/
abbrev Word32 : Type := Fixed ⟨true, 32⟩

/-- A key with a tag. Equality, order and key look at the key only. -/
structure Keyed where
  key : Word32
  tag : Word32
deriving Inhabited

namespace Keyed

instance : Ord Keyed := ⟨fun x y => compare x.key y.key⟩
instance : BEq Keyed := ⟨fun x y => x.key == y.key⟩

instance : UniqueKey Keyed where
  sameKey x y := x.key == y.key
  keyBytes x := x.key.bytes

instance : Element Keyed where
  written x := .pair x.key.val x.tag.val
  generated v i := ⟨Fixed.ofInt v, Fixed.ofInt i⟩
  bytes := 8
  listingOrder x y := (compare x.key y.key).then (compare x.tag y.tag)
  single := none

end Keyed

end Bisection
