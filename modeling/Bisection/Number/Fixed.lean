/-!
# Integers of fixed width

`Fixed k` holds the integers of a kind, signed or unsigned, of some number of
bits. Arithmetic is exact arithmetic followed by `IntKind.wrap`, which keeps the
low bits and reads them in the kind.
-/

namespace Bisection
set_option autoImplicit false

/-- A kind of integer: whether it is signed, and its width in bits. -/
structure IntKind where
  signed : Bool
  bits : Nat
deriving DecidableEq, Repr

namespace IntKind

/-- The number of integers of a kind. -/
def count (k : IntKind) : Nat := 1 <<< k.bits

/-- The integer of the kind with the same low bits. -/
def wrap (k : IntKind) (i : Int) : Int := if k.signed then i.bmod k.count else i % k.count

@[simp] theorem wrap_wrap (k : IntKind) (i : Int) : k.wrap (k.wrap i) = k.wrap i := by
  unfold wrap
  split
  · exact Int.bmod_bmod
  · exact Int.emod_emod_of_dvd i (Int.dvd_refl _)

/-- Whether an integer is plainly one of the kind: not negative, and without the highest bit. -/
def fits (k : IntKind) (i : Int) : Bool := 0 ≤ i && i.toNat >>> (k.bits - 1) == 0

theorem wrap_of_fits {k : IntKind} {i : Int} (h : k.fits i) : k.wrap i = i := by
  obtain ⟨signed, bits⟩ := k
  simp only [fits, Bool.and_eq_true, decide_eq_true_eq, beq_iff_eq, Nat.shiftRight_eq_div_pow] at h
  obtain ⟨pos, h⟩ := h
  have low : i.toNat < 2 ^ (bits - 1) := by
    rcases Nat.div_eq_zero_iff.mp h with h | h
    · exact absurd h (Nat.ne_of_gt (Nat.two_pow_pos _))
    · exact h
  rw [wrap, count, Nat.one_shiftLeft]
  cases bits with
  | zero =>
    have : i = 0 := by simp at low; omega
    subst this
    split <;> simp
  | succ n =>
    simp only [Nat.add_sub_cancel] at low
    have : i < (2 ^ n : Nat) := by omega
    rw [Nat.pow_succ]
    split
    · exact Int.bmod_eq_of_le (by omega) (by omega)
    · exact Int.emod_eq_of_lt pos (by omega)

end IntKind

/-- An integer of a kind. -/
structure Fixed (k : IntKind) where
  val : Int
  wrapped : k.wrap val = val

namespace Fixed
variable {k : IntKind}

/-- The integer of the kind with the same low bits. -/
def ofInt (i : Int) : Fixed k :=
  if h : k.fits i then ⟨i, IntKind.wrap_of_fits h⟩ else ⟨k.wrap i, k.wrap_wrap i⟩

@[simp] theorem val_ofInt (i : Int) : (ofInt i : Fixed k).val = k.wrap i := by
  unfold ofInt
  split
  · next h => exact (IntKind.wrap_of_fits h).symm
  · rfl

theorem ext {x y : Fixed k} (h : x.val = y.val) : x = y := by
  cases x
  cases y
  cases h
  rfl

instance : DecidableEq (Fixed k) := fun x y =>
  if h : x.val = y.val then .isTrue (ext h) else .isFalse fun e => h (e ▸ rfl)

instance : Ord (Fixed k) := ⟨fun x y => compare x.val y.val⟩

instance : Inhabited (Fixed k) := ⟨ofInt 0⟩

instance : Add (Fixed k) := ⟨fun x y => ofInt (x.val + y.val)⟩
instance : Sub (Fixed k) := ⟨fun x y => ofInt (x.val - y.val)⟩
instance : Mul (Fixed k) := ⟨fun x y => ofInt (x.val * y.val)⟩
instance : Neg (Fixed k) := ⟨fun x => ofInt (-x.val)⟩

/-- The low bits as a natural number. -/
def pattern (x : Fixed k) : Nat := (x.val % k.count).toNat

instance : XorOp (Fixed k) := ⟨fun x y => ofInt (x.pattern ^^^ y.pattern : Nat)⟩

/-- The remainder that is not negative. -/
def remainder (x y : Fixed k) : Fixed k := ofInt (x.val % y.val)

/-- The bytes of the integer, lowest first. -/
def bytes (x : Fixed k) : List UInt8 :=
  (List.range ((k.bits + 7) / 8)).map fun i => UInt8.ofNat (x.pattern >>> (8 * i))

end Fixed

end Bisection
