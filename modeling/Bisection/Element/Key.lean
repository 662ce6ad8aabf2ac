import Bisection.Number.Binary
import Bisection.Number.Fixed

/-!
# Keys of distinct elements

Elements with the same key count as one when distinct elements are looked for.
`UniqueKey.keyBytes` are the bytes from which a key is hashed: elements with the
same key have the same bytes.
-/

namespace Bisection
set_option autoImplicit false

/-- Elements that have a key. -/
class UniqueKey (α : Type) where
  /-- Whether two elements have the same key. -/
  sameKey : α → α → Bool
  /-- The bytes from which the key is hashed. -/
  keyBytes : α → List UInt8

/-- A hash of bytes, which mixes them in one after the other. -/
def hashBytes (bytes : List UInt8) : UInt64 :=
  bytes.foldl (fun h b => (h ^^^ b.toUInt64) * 0x100000001b3) 0xcbf29ce484222325

/-- A hash of an element's key. -/
def UniqueKey.hash {α : Type} [UniqueKey α] (x : α) : UInt64 := hashBytes (keyBytes x)

/-- The bytes of a natural number, `n` of them, lowest first. -/
def littleEndian (n x : Nat) : List UInt8 :=
  (List.range n).map fun i => UInt8.ofNat (x >>> (8 * i))

instance {k : IntKind} : UniqueKey (Fixed k) where
  sameKey x y := x == y
  keyBytes := Fixed.bytes

/-- The key of a number is its bits. Values that are no numbers have one key. -/
instance {f : BinaryFormat} : UniqueKey (Binary f) where
  sameKey x y := x.canonicalBits == y.canonicalBits
  keyBytes x := littleEndian ((f.width + 7) / 8) x.canonicalBits

instance : UniqueKey Char where
  sameKey x y := x == y
  keyBytes x := littleEndian 4 x.toNat

instance : UniqueKey Bool where
  sameKey x y := x == y
  keyBytes x := [if x then 1 else 0]

instance : UniqueKey String where
  sameKey x y := x == y
  keyBytes x := x.toUTF8.toList ++ [0xff]

instance : UniqueKey Unit where
  sameKey _ _ := true
  keyBytes _ := []

end Bisection
