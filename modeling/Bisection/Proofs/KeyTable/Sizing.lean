import Bisection.KeyTable
import Mathlib.Algebra.GroupWithZero.Nat
import Mathlib.Tactic.ByContra

/-!
# How many slots a table has

A table has the least power of two slots that is at least twice the number of its elements. Making
one is refused if twice the number is no size, if the power of two is none, or if there is no room
for the slots. All of this comes to one limit on the number of elements, since the last condition
is the strictest one.
-/

namespace Bisection.KeyTable
set_option autoImplicit false

theorem leastPowerOfTwo_spec (n : Nat) : ∃ k, leastPowerOfTwo n = 2 ^ k ∧ n ≤ 2 ^ k := by
  unfold leastPowerOfTwo
  split
  · next small => exact ⟨0, rfl, small⟩
  · refine ⟨Nat.log2 (n - 1) + 1, Nat.one_shiftLeft _, ?_⟩
    have := Nat.lt_log2_self (n := n - 1)
    omega

theorem leastPowerOfTwo_le {n k : Nat} (le : n ≤ 2 ^ k) : leastPowerOfTwo n ≤ 2 ^ k := by
  unfold leastPowerOfTwo
  split
  · exact Nat.two_pow_pos k
  · have below : Nat.log2 (n - 1) < k := (Nat.log2_lt (by omega)).mpr (by omega)
    rw [Nat.one_shiftLeft]
    exact Nat.pow_le_pow_right (by decide) below

theorem leastPowerOfTwo_lt {n : Nat} (pos : 0 < n) : leastPowerOfTwo n < 2 * n := by
  unfold leastPowerOfTwo
  split
  · omega
  · have le := Nat.log2_self_le (n := n - 1) (by omega)
    rw [Nat.one_shiftLeft, Nat.pow_succ]
    omega

/-- The slots for some elements are at least twice as many, and less than twice that number unless
there is one slot for no element. -/
theorem leastPowerOfTwo_twice (len : Nat) :
    max 1 (2 * len) ≤ leastPowerOfTwo (2 * len) ∧ leastPowerOfTwo (2 * len) < max 2 (4 * len) := by
  obtain ⟨k, pow, le⟩ := leastPowerOfTwo_spec (2 * len)
  have pos := Nat.two_pow_pos k
  refine ⟨by omega, ?_⟩
  rcases Nat.eq_zero_or_pos len with rfl | some
  · decide
  · have lt := leastPowerOfTwo_lt (n := 2 * len) (by omega)
    omega

/-- Each of the conditions under which a table is refused implies the last one. -/
theorem limit_iff (len : Nat) :
    2 ^ 58 < len ↔ blockLimit < leastPowerOfTwo (2 * len) * indexBytes := by
  have block : blockLimit = 2 ^ 63 - 1 := by decide
  rw [show indexBytes = 8 from rfl]
  constructor
  · intro above
    obtain ⟨k, pow, le⟩ := leastPowerOfTwo_spec (2 * len)
    have lt : 59 < k := by
      by_contra small
      have := Nat.pow_le_pow_right (n := 2) (by decide) (Nat.le_of_not_lt small)
      omega
    have := Nat.pow_le_pow_right (n := 2) (by decide) (Nat.succ_le_of_lt lt)
    omega
  · intro large
    by_contra below
    have := leastPowerOfTwo_le (n := 2 * len) (k := 59) (by omega)
    omega

/-- There is one limit on the number of elements of a table. -/
theorem refused_iff (len : Nat) : 2 ^ 58 < len ↔
    maxSize < 2 * len ∨ maxSize < leastPowerOfTwo (2 * len) ∨
      blockLimit < leastPowerOfTwo (2 * len) * indexBytes := by
  have most : maxSize = 2 ^ 64 - 1 := by decide
  have block : blockLimit = 2 ^ 63 - 1 := by decide
  obtain ⟨k, pow, le⟩ := leastPowerOfTwo_spec (2 * len)
  refine (limit_iff len).trans ⟨fun large => .inr (.inr large), ?_⟩
  rw [show indexBytes = 8 from rfl]
  rintro (large | large | large)
  · omega
  · omega
  · exact large

theorem make_eq (len : Nat) : make len = if len ≤ 2 ^ 58 then
    .ok ⟨Array.replicate (leastPowerOfTwo (2 * len)) 0⟩ else .error (.tableOverflow len) := by
  have refused := refused_iff len
  have room : (2 * len ≤ maxSize ∧ hasRoom (leastPowerOfTwo (2 * len)) indexBytes) ↔
      len ≤ 2 ^ 58 := by
    rw [hasRoom, Bool.and_eq_true, decide_eq_true_iff, decide_eq_true_iff]
    omega
  unfold make capacity
  by_cases fits : len ≤ 2 ^ 58
  · rw [if_pos fits, if_pos (room.mpr fits)]
    rfl
  · rw [if_neg fits, if_neg (mt room.mp fits)]
    rfl

theorem exists_make_iff (len : Nat) : (∃ table, make len = .ok table) ↔ len ≤ 2 ^ 58 := by
  rw [make_eq]
  by_cases fits : len ≤ 2 ^ 58
  · rw [if_pos fits]
    exact iff_of_true ⟨_, rfl⟩ fits
  · rw [if_neg fits]
    exact iff_of_false (fun ⟨_, made⟩ => nomatch made) fits

theorem make_error_iff (len : Nat) : make len = .error (.tableOverflow len) ↔ 2 ^ 58 < len := by
  rw [make_eq]
  by_cases fits : len ≤ 2 ^ 58
  · rw [if_pos fits]
    exact iff_of_false nofun (Nat.not_lt.mpr fits)
  · rw [if_neg fits]
    exact iff_of_true rfl (Nat.lt_of_not_le fits)

/-- A new table has nothing but vacant slots. -/
theorem slots_of_make {len : Nat} {table : KeyTable} (made : make len = .ok table) :
    table.slots = Array.replicate (leastPowerOfTwo (2 * len)) 0 := by
  have fits := (exists_make_iff len).mp ⟨table, made⟩
  rw [make_eq, if_pos fits] at made
  cases made
  rfl

end Bisection.KeyTable
