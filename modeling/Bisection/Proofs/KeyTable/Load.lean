import Bisection.Proofs.KeyTable.Entering

/-!
# How full a table gets

A slot that is filled holds a key that no other slot holds. So a table made for as many elements as
there are keys keeps half of its slots vacant, however many indices are entered, and in whatever
order the steps of those who enter them are taken.
-/

namespace Bisection.KeyTable
set_option autoImplicit false

section
variable {same : Nat → Nat → Bool} {hash : Nat → UInt64} {indices : List Nat} {t : KeyTable}

theorem held_eq_none_iff {s : Nat} (lt : s < t.slots.size) : t.held s = none ↔ t.slots[s] = 0 := by
  rw [held, Array.getElem?_eq_getElem lt]
  cases t.slots[s] <;> simp

/-- The slots that hold an index. -/
def filled (t : KeyTable) : List Nat :=
  (List.range t.slots.size).filter fun s => (t.held s).isSome

/-- A slot is vacant or filled. -/
theorem count_vacant_add (t : KeyTable) :
    t.slots.count 0 + t.filled.length = t.slots.size := by
  have cells : t.slots.toList = (List.range t.slots.size).map fun s => t.slots.getD s 0 := by
    refine List.ext_getElem (by simp) fun s h _ => ?_
    rw [Array.length_toList] at h
    simp [h]
  have vacant : t.slots.count 0 =
      (List.range t.slots.size).countP fun s => ¬ (t.held s).isSome := by
    rw [← Array.count_toList, cells, List.count, List.countP_map]
    refine List.countP_congr fun s mem => ?_
    have lt := List.mem_range.mp mem
    simp [lt, held_eq_none_iff lt]
  have all := List.length_eq_countP_add_countP (fun s => (t.held s).isSome)
    (l := List.range t.slots.size)
  rw [List.length_range] at all
  rw [vacant, filled, ← List.countP_eq_length_filter, Nat.add_comm]
  exact all.symm

/-- The slots that are not vacant are no more than the keys. -/
theorem Placed.size_le (placed : Placed same hash indices t) (keyed : Keyed same hash indices)
    {n : Nat} (within : KeysWithin same indices n) : t.slots.size ≤ t.slots.count 0 + n := by
  have filled : t.filled.length ≤ n :=
    placed.length_filled_le keyed within (List.nodup_range.filter _) fun s mem =>
      Option.isSome_iff_exists.mp (List.mem_filter.mp mem).2
  have all := count_vacant_add t
  omega

/-- A table for as many elements as there are keys keeps half of its slots vacant. -/
theorem Placed.half_vacant (placed : Placed same hash indices t) (keyed : Keyed same hash indices)
    {n : Nat} (within : KeysWithin same indices n) (twice : 2 * n ≤ t.slots.size) :
    t.slots.size ≤ 2 * t.slots.count 0 := by
  have le := placed.size_le keyed within
  omega

end

section
variable {α : Type} (w : Window α) {same : α → α → Bool} {hash : α → UInt64}
  (equiv : Equivalence fun x y => same x y = true)
include equiv

/-- Indices that each hold one of some keys hold no more keys than these. -/
theorem keysWithin_of_covered {keys : List α} {indices : List Nat}
    (covered : ∀ i ∈ indices, ∃ x ∈ keys, w.holdsKey same x i) :
    KeysWithin (w.sameKeyAt same) indices keys.length := by
  intro picked _ subset apart
  let key (i : Nat) : Option α := keys.find? fun x => w.holdsKey same x i
  have found {i : Nat} (mem : i ∈ picked) : ∃ x, key i = some x ∧ w.holdsKey same x i := by
    obtain ⟨x, hx, holds⟩ := covered i (subset mem)
    obtain ⟨y, at_i⟩ := Option.isSome_iff_exists.mp
      (List.find?_isSome.mpr ⟨x, hx, holds⟩ : (key i).isSome)
    exact ⟨y, at_i, List.find?_some (p := fun x => w.holdsKey same x i) at_i⟩
  have distinct : (picked.map key).Nodup := by
    refine List.pairwise_map.mpr (apart.imp_of_mem fun {i j} hi hj differ eq => ?_)
    obtain ⟨x, key_i, holds⟩ := found hi
    obtain ⟨x', key_j, holds'⟩ := found hj
    rw [key_i, key_j, Option.some.injEq] at eq
    obtain ⟨y, at_i, alike⟩ := (holdsKey_iff w same).mp holds
    obtain ⟨z, at_j, alike'⟩ := (holdsKey_iff w same).mp (eq ▸ holds')
    have both := (sameKeyAt_iff w same).mpr
      ⟨y, at_i, z, at_j, equiv.trans alike' (equiv.symm alike)⟩
    rw [both] at differ
    cases differ
  have subset : picked.map key ⊆ keys.map some := by
    intro x hx
    obtain ⟨i, hi, rfl⟩ := List.mem_map.mp hx
    obtain ⟨x, key_i, -⟩ := found hi
    rw [key_i]
    exact List.mem_map_of_mem (List.mem_of_find?_eq_some key_i)
  have le := (distinct.subperm subset).length_le
  rwa [List.length_map, List.length_map] at le

variable (compat : ∀ x y, same x y → hash x = hash y)
include compat

theorem keyed_of_covered {keys : List α} {indices : List Nat}
    (covered : ∀ i ∈ indices, ∃ x ∈ keys, w.holdsKey same x i) :
    Keyed (w.sameKeyAt same) (w.hashAt hash) indices :=
  keyed_window w equiv compat fun i mem => by
    obtain ⟨x, -, holds⟩ := covered i mem
    obtain ⟨y, at_i, -⟩ := (holdsKey_iff w same).mp holds
    exact (w.array.store.isSome_get? i).mp (Option.isSome_of_eq_some at_i)

end

/-- A table for some elements can be made exactly if they are at most `2 ^ 58`, which is what comes
of the three conditions together: that twice as many are a size, that the next power of two is one,
and that there is room for as many slots. Its slots are a power of two in number, at least twice as
many as the elements and less than twice that, and a mask takes remainders by their number. While
indices are entered that hold no more keys than there are elements, half of the slots are vacant at
all times, in whatever order the steps are taken, and so they are when one index is entered after
the other. -/
theorem make_half_vacant (len : Nat) :
    (make len = .error (.tableOverflow len) ↔ 2 ^ 58 < len) ∧
    ((∃ table, make len = .ok table) ↔ len ≤ 2 ^ 58) ∧
    (2 ^ 58 < len ↔ maxSize < 2 * len ∨ maxSize < leastPowerOfTwo (2 * len) ∨
      blockLimit < leastPowerOfTwo (2 * len) * indexBytes) ∧
    ∀ table, make len = .ok table →
      (∃ k, table.slots.size = 2 ^ k) ∧
      max 1 (2 * len) ≤ table.slots.size ∧ table.slots.size < max 2 (4 * len) ∧
      (∀ n, n &&& (table.slots.size - 1) = n % table.slots.size ∧
        n % table.slots.size < table.slots.size) ∧
      (∀ hash, table.home hash = hash.toNat % table.slots.size) ∧
      (∀ s, table.next s = (s + 1) % table.slots.size) ∧
      ∀ {α : Type} (w : Window α) (same : α → α → Bool) (hash : α → UInt64),
        (Equivalence fun x y => same x y = true) → (∀ x y, same x y → hash x = hash y) →
        ∀ (keys : List α) (indices : List Nat), keys.length ≤ len →
        (∀ i ∈ indices, ∃ x ∈ keys, w.holdsKey same x i) →
        (∀ (values : List α) (schedule : List Nat),
          let start := Shared.start table (w.hashAt hash) indices
            (values.map fun x => (hash x, w.holdsKey same x))
          let now := start.run (w.sameKeyAt same) schedule
          table.slots.size ≤ 2 * now.table.slots.count 0) ∧
        table.slots.size ≤ 2 * (indices.foldl
          (fun t i => t.insert (w.sameKeyAt same) (w.hashAt hash i) i) table).slots.count 0 := by
  refine ⟨make_error_iff len, exists_make_iff len, refused_iff len, fun table made => ?_⟩
  have size : table.slots.size = leastPowerOfTwo (2 * len) := by
    rw [slots_of_make made, Array.size_replicate]
  obtain ⟨least, most⟩ := leastPowerOfTwo_twice len
  rw [← size] at least most
  obtain ⟨pow, lt, -⟩ := make_spec made
  have mask (n : Nat) : n &&& (table.slots.size - 1) = n % table.slots.size := by
    obtain ⟨k, pow⟩ := pow
    rw [pow, Nat.and_two_pow_sub_one_eq_mod]
  refine ⟨pow, least, most, fun n => ⟨mask n, Nat.mod_lt n (by omega)⟩, fun _ => mask _,
    fun _ => mask _, ?_⟩
  intro α w same hash equiv compat keys indices fewKeys covered
  have keyed := keyed_of_covered w equiv compat covered
  have within := keysWithin_of_covered w equiv covered
  have sound (values : List (UInt64 × (Nat → Bool))) :
      (Shared.start table (w.hashAt hash) indices values).Sound (w.sameKeyAt same)
        (w.hashAt hash) indices :=
    Shared.sound_start_of_keys made within (by omega) values
  refine ⟨fun values schedule => ?_, ?_⟩
  · obtain ⟨later, grows⟩ := (sound (values.map fun x => (hash x, w.holdsKey same x))).run keyed
      schedule
    have same : _ = table.slots.size := grows.size_eq
    have half := later.placed.half_vacant keyed within (by omega)
    rwa [same] at half
  · obtain ⟨grows, placed, -⟩ := foldl_insert_grows keyed (sound []).placed indices fun _ => id
    have same : _ = table.slots.size := grows.size_eq
    have half := placed.half_vacant keyed within (by omega)
    rwa [same] at half

/-- Three elements and two keys: of the eight slots six are vacant when all is entered, whoever was
first. -/
theorem make_half_vacant_three :
    let w : Window Nat := (BulkArray.mk default none (.cells #[7, 5, 7])).whole
    let table : KeyTable := ⟨Array.replicate 8 0⟩
    make 3 = .ok table ∧ (∀ schedule, 8 ≤ 2 * ((Shared.start table (w.hashAt UInt64.ofNat)
      [2, 0, 1] []).run (w.sameKeyAt (· == ·)) schedule).table.slots.count 0) ∧
      make (2 ^ 58 + 1) = .error (.tableOverflow (2 ^ 58 + 1)) := by
  intro w table
  have made : make 3 = .ok table := rfl
  obtain ⟨-, -, -, spec⟩ := make_half_vacant 3
  obtain ⟨-, -, -, -, -, -, load⟩ := spec table made
  have equiv : Equivalence fun x y : Nat => (x == y) = true := by
    refine ⟨fun x => BEq.rfl, fun h => BEq.symm h, fun h h' => BEq.trans h h'⟩
  have compat (x y : Nat) (h : x == y) : UInt64.ofNat x = UInt64.ofNat y := by
    rw [eq_of_beq h]
  have half := (load w (· == ·) UInt64.ofNat equiv compat [5, 7] [2, 0, 1] (by decide)
    (by decide)).1 []
  exact ⟨made, half, (make_half_vacant (2 ^ 58 + 1)).1.mpr (by decide)⟩

end Bisection.KeyTable
