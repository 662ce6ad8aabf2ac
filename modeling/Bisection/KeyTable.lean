import Bisection.Failure
import Bisection.Threshold

/-!
# A table of the first index of each key

A `KeyTable` finds, for the elements whose indices were entered, the lowest
index that holds a given key. It is an open hash table: a slot holds nothing or
an index, an index is looked for from the slot that its hash names, and each
slot passed over holds another key. At most half of the slots ever fill up.

Entering an index takes three kinds of step that act on one slot each, in the
order of `Entry`: load a slot, claim it if it is vacant, and lower the index that
it holds. Indices may be entered by several tasks at a time.
-/

namespace Bisection
set_option autoImplicit false

/-- The least power of two that is at least `n`. -/
def leastPowerOfTwo (n : Nat) : Nat := if n ≤ 1 then 1 else 1 <<< (Nat.log2 (n - 1) + 1)

/-- Slots that hold an index each, counted from one, or zero if they are vacant. -/
structure KeyTable where
  slots : Array Nat

namespace KeyTable

/-- The number of slots for `len` elements. Refused if twice as many are no size, or if there is no
room for the slots. -/
def capacity (len : Nat) : Except Failure Nat :=
  let slots := leastPowerOfTwo (2 * len)
  if 2 * len ≤ maxSize ∧ hasRoom slots indexBytes then .ok slots
  else .error (.tableOverflow len)

/-- A table for up to `len` elements, with nothing entered. -/
def make (len : Nat) : Except Failure KeyTable :=
  (capacity len).map fun n => ⟨Array.replicate n 0⟩

/-- The slot that follows slot `s`, where the first follows the last. -/
def next (t : KeyTable) (s : Nat) : Nat := (s + 1) &&& (t.slots.size - 1)

/-- The slot named by a hash. -/
def home (t : KeyTable) (hash : UInt64) : Nat := hash.toNat &&& (t.slots.size - 1)

/-- The index held by a slot, if any. -/
def held (t : KeyTable) (s : Nat) : Option Nat :=
  match t.slots[s]? with
  | some (i + 1) => some i
  | _ => none

/-- Where the entering of an index stands. -/
inductive Entry where
  /-- About to look at a slot. -/
  | load (slot : Nat)
  /-- About to claim a slot that was seen vacant. -/
  | claim (slot : Nat)
  /-- About to lower the index of a slot that holds the same key. -/
  | lower (slot : Nat)
deriving DecidableEq, Repr

section
variable (same : Nat → Nat → Bool)

/-- What to do on finding index `j` in a slot: it holds the same key, or the next slot is tried. -/
def Entry.onHeld (t : KeyTable) (index slot j : Nat) : Entry :=
  if same index j then .lower slot else .load (t.next slot)

/-- One step of entering `index`, where `same i j` tells whether two indices hold one key. Gives
what is left to do, or nothing once the index is entered. -/
def Entry.step (index : Nat) (t : KeyTable) : Entry → KeyTable × Option Entry
  | .load slot =>
    match t.held slot with
    | none => (t, some (.claim slot))
    | some j => (t, some (onHeld same t index slot j))
  | .claim slot =>
    match t.held slot with
    | none => (⟨t.slots.setIfInBounds slot (index + 1)⟩, none)
    | some j => (t, some (onHeld same t index slot j))
  | .lower slot => (⟨t.slots.modify slot (min (index + 1))⟩, none)

/-- Enters `index` with nobody else at the table, in at most `fuel` steps. -/
def insertFrom (index : Nat) : Nat → Entry → KeyTable → KeyTable
  | 0, _, t => t
  | fuel + 1, e, t =>
    match e.step same index t with
    | (t, none) => t
    | (t, some e) => insertFrom index fuel e t

/-- Enters `index`, whose key has the given hash. Each slot is passed at most once, with one step
on each and two on the last. -/
def insert (t : KeyTable) (hash : UInt64) (index : Nat) : KeyTable :=
  insertFrom same index (t.slots.size + 2) (.load (t.home hash)) t

end

/-- One step of looking for a key, a look at one slot. Gives the index found, or nothing if the
slot is vacant, or the slot to look at next. -/
def look (t : KeyTable) (sameKey : Nat → Bool) (slot : Nat) : Option Nat ⊕ Nat :=
  match t.held slot with
  | none => .inl none
  | some j => if sameKey j then .inl (some j) else .inr (t.next slot)

/-- Looks for a key in at most `fuel` slots from `slot` on. -/
def firstIndexFrom (t : KeyTable) (sameKey : Nat → Bool) : Nat → Nat → Option Nat
  | 0, _ => none
  | fuel + 1, slot =>
    match t.look sameKey slot with
    | .inl found => found
    | .inr slot => firstIndexFrom t sameKey fuel slot

/-- The lowest index entered that holds a key with the given hash. -/
def firstIndex (t : KeyTable) (hash : UInt64) (sameKey : Nat → Bool) : Option Nat :=
  t.firstIndexFrom sameKey t.slots.size (t.home hash)

end KeyTable

end Bisection
