import Bisection.Proofs.KeyTable.Sizing
import Mathlib.Data.List.Nodup
import Mathlib.Data.List.Perm.Subperm
import Mathlib.Data.Nat.Find
import Mathlib.Data.Nat.ModEq

/-!
# The probes of a table

A key is looked for from the slot that its hash names, one slot after the other. In a table that is
`Placed` the slots on the way to an index all hold other keys, so a key is held by one slot at most,
and a search that meets a vacant slot has seen all there is. A table never fills up, so there is
a vacant slot on the way of every search.
-/

namespace Bisection.KeyTable
set_option autoImplicit false

/-- The slots of a new table are vacant, a power of two in number and more than the elements. -/
theorem make_spec {len : Nat} {t : KeyTable} (h : make len = .ok t) :
    (∃ k, t.slots.size = 2 ^ k) ∧ len < t.slots.size ∧ ∀ s, t.held s = none := by
  obtain ⟨k, pow, le⟩ := leastPowerOfTwo_spec (2 * len)
  have pos := Nat.two_pow_pos k
  have slots := slots_of_make h
  have size : t.slots.size = 2 ^ k := by rw [slots, Array.size_replicate, pow]
  refine ⟨⟨k, size⟩, by omega, fun s => ?_⟩
  unfold held
  rw [slots]
  split
  · next i at_s =>
    rw [Array.getElem?_replicate] at at_s
    split at at_s <;> cases at_s
  · rfl

/-! ## Slots ahead of a home -/

/-- The slot `d` places ahead of the one that a hash names, where the first follows the last. -/
def ahead (t : KeyTable) (hash : UInt64) (d : Nat) : Nat := (hash.toNat + d) % t.slots.size

section
variable {t : KeyTable} {hash : UInt64} {d d' : Nat}

theorem ahead_lt (pos : 0 < t.slots.size) : t.ahead hash d < t.slots.size := Nat.mod_lt _ pos

theorem ahead_inj (hd : d < t.slots.size) (hd' : d' < t.slots.size)
    (eq : t.ahead hash d = t.ahead hash d') : d = d' := by
  have cong : d ≡ d' [MOD t.slots.size] := Nat.ModEq.add_left_cancel' hash.toNat eq
  exact cong.eq_of_lt_of_lt hd hd'

variable (pow : ∃ k, t.slots.size = 2 ^ k)
include pow

theorem home_eq : t.home hash = t.ahead hash 0 := by
  obtain ⟨k, pow⟩ := pow
  rw [home, ahead, pow, Nat.and_two_pow_sub_one_eq_mod]
  rfl

theorem next_ahead : t.next (t.ahead hash d) = t.ahead hash (d + 1) := by
  obtain ⟨k, pow⟩ := pow
  rw [next, ahead, ahead, pow, Nat.and_two_pow_sub_one_eq_mod, Nat.mod_add_mod, Nat.add_assoc]

end

/-! ## What slots hold -/

section
variable {t : KeyTable} {s i j : Nat}

theorem held_eq_some : t.held s = some j ↔ t.slots[s]? = some (j + 1) := by
  unfold held
  split
  · next i at_s =>
    rw [at_s]
    simp
  · next other =>
    constructor
    · intro h
      cases h
    · intro h
      exact absurd h (other j)

theorem held_claim (hs : s < t.slots.size) (s' : Nat) :
    (⟨t.slots.setIfInBounds s (i + 1)⟩ : KeyTable).held s' =
      if s' = s then some i else t.held s' := by
  unfold held
  dsimp only
  rw [Array.getElem?_setIfInBounds]
  by_cases here : s' = s
  · subst here
    rw [if_pos rfl, if_pos rfl, if_pos hs]
  · rw [if_neg (Ne.symm here), if_neg here]

theorem held_lower (h : t.held s = some j) (s' : Nat) :
    (⟨t.slots.modify s (min (i + 1))⟩ : KeyTable).held s' =
      if s' = s then some (min i j) else t.held s' := by
  have at_s : t.slots[s]? = some (j + 1) := held_eq_some.mp h
  unfold held
  dsimp only
  rw [Array.getElem?_modify]
  by_cases here : s' = s
  · subst here
    rw [if_pos rfl, if_pos rfl, at_s, Option.map_some, Nat.add_min_add_right]
  · rw [if_neg (Ne.symm here), if_neg here]

end

/-! ## Keys -/

/-- Which of some indices hold the same key, and the hashes of their keys. -/
structure Keyed (same : Nat → Nat → Bool) (hash : Nat → UInt64) (indices : List Nat) : Prop where
  refl : ∀ i ∈ indices, same i i
  symm : ∀ {i j}, same i j → same j i
  trans : ∀ {i j k}, same i j → same j k → same i k
  hash_eq : ∀ {i j}, same i j → hash i = hash j

/-- The indices that hold one key, of the hash `h`. -/
structure OneKey (same : Nat → Nat → Bool) (hash : Nat → UInt64) (key : Nat → Bool) (h : UInt64) :
    Prop where
  closed : ∀ i j, same i j → key i = key j
  same : ∀ {i j}, key i → key j → same i j
  hash_eq : ∀ {i}, key i → hash i = h

variable {same : Nat → Nat → Bool} {hash : Nat → UInt64} {indices : List Nat}

theorem Keyed.oneKey (keyed : Keyed same hash indices) (i : Nat) :
    OneKey same hash (same i) (hash i) where
  closed _ _ h := Bool.eq_iff_iff.mpr
    ⟨fun hi => keyed.trans hi h, fun hj => keyed.trans hj (keyed.symm h)⟩
  same hi hj := keyed.trans (keyed.symm hi) hj
  hash_eq hi := (keyed.hash_eq hi).symm

theorem Keyed.symm_eq (keyed : Keyed same hash indices) (i j : Nat) : same j i = same i j :=
  Bool.eq_iff_iff.mpr ⟨keyed.symm, keyed.symm⟩

/-- Some indices hold at most `n` keys: of any more, two hold the same. -/
def KeysWithin (same : Nat → Nat → Bool) (indices : List Nat) (n : Nat) : Prop :=
  ∀ picked : List Nat, picked.Nodup → picked ⊆ indices →
    picked.Pairwise (fun i j => same i j = false) → picked.length ≤ n

/-- There are no more keys than indices. -/
theorem keysWithin_length (same : Nat → Nat → Bool) (indices : List Nat) :
    KeysWithin same indices indices.length :=
  fun _ nodup subset _ => (nodup.subperm subset).length_le

/-- The first `d` slots from the home of `h` on hold indices that do not satisfy `key`. -/
def Passed (t : KeyTable) (key : Nat → Bool) (h : UInt64) (d : Nat) : Prop :=
  ∀ k < d, ∃ j, t.held (t.ahead h k) = some j ∧ key j = false

section
variable {t t' : KeyTable} {key : Nat → Bool} {h : UInt64} {d : Nat}

theorem Passed.zero : t.Passed key h 0 := fun k hk => absurd hk (Nat.not_lt_zero k)

theorem Passed.succ (passed : t.Passed key h d) {j : Nat} (held : t.held (t.ahead h d) = some j)
    (other : key j = false) : t.Passed key h (d + 1) := by
  intro k hk
  rcases Nat.lt_or_eq_of_le (Nat.le_of_lt_succ hk) with before | rfl
  · exact passed k before
  · exact ⟨j, held, other⟩

/-- What may happen to a table: a vacant slot is filled, or a slot takes a lower index that holds
the same key. -/
structure Grows (same : Nat → Nat → Bool) (t t' : KeyTable) : Prop where
  size_eq : t'.slots.size = t.slots.size
  kept : ∀ {s j}, t.held s = some j → ∃ j', t'.held s = some j' ∧ j' ≤ j ∧ (j' = j ∨ same j j')

theorem Grows.ahead_eq (grows : Grows same t t') : t'.ahead h d = t.ahead h d := by
  rw [ahead, ahead, grows.size_eq]

theorem Passed.mono (passed : t.Passed key h d) (grows : Grows same t t')
    (closed : ∀ i j, same i j → key i = key j) : t'.Passed key h d := by
  intro k hk
  obtain ⟨j, held, other⟩ := passed k hk
  obtain ⟨j', held', -, rfl | alike⟩ := grows.kept held
  · exact ⟨j', grows.ahead_eq ▸ held', other⟩
  · exact ⟨j', grows.ahead_eq ▸ held', closed _ _ alike ▸ other⟩

/-- A search from the home of a hash reaches the slot behind those passed. -/
theorem firstIndexFrom_passed (pow : ∃ k, t.slots.size = 2 ^ k) (passed : t.Passed key h d)
    (fuel : Nat) : t.firstIndexFrom key (d + fuel) (t.home h) =
      t.firstIndexFrom key fuel (t.ahead h d) := by
  induction d generalizing fuel with
  | zero => rw [Nat.zero_add, home_eq pow]
  | succ d ih =>
    obtain ⟨j, held, other⟩ := passed d (Nat.lt_succ_self d)
    rw [Nat.add_right_comm, Nat.add_assoc, ih fun k hk => passed k (Nat.lt_succ_of_lt hk),
      firstIndexFrom, look, held]
    simp only [other]
    rw [← next_ahead pow]
    rfl

end

/-! ## Tables whose indices are placed -/

/-- A table with more slots than there are keys. Every slot holds one of the indices, and all slots
on the way to it hold other keys. -/
structure Placed (same : Nat → Nat → Bool) (hash : Nat → UInt64) (indices : List Nat)
    (t : KeyTable) : Prop where
  pow : ∃ k, t.slots.size = 2 ^ k
  few : ∃ n < t.slots.size, KeysWithin same indices n
  entered : ∀ {s j}, t.held s = some j → j ∈ indices
  reached : ∀ {s j}, t.held s = some j →
    ∃ d, s = t.ahead (hash j) d ∧ t.Passed (same j) (hash j) d

namespace Placed
variable {t : KeyTable} (placed : Placed same hash indices t) (keyed : Keyed same hash indices)
include placed keyed

/-- A key is held by one slot at most. -/
theorem unique {s s' i j : Nat} (hi : t.held s = some i) (hj : t.held s' = some j)
    (alike : same i j) : s = s' := by
  obtain ⟨d, rfl, passed⟩ := placed.reached hi
  obtain ⟨d', rfl, passed'⟩ := placed.reached hj
  rw [keyed.hash_eq alike] at passed hi ⊢
  rcases Nat.lt_trichotomy d d' with before | rfl | behind
  · obtain ⟨k, held, other⟩ := passed' d before
    rw [hi, Option.some.injEq] at held
    rw [← held, keyed.symm alike] at other
    cases other
  · rfl
  · obtain ⟨k, held, other⟩ := passed d' behind
    rw [hj, Option.some.injEq] at held
    rw [← held, alike] at other
    cases other

/-- Slots that are filled hold a key each, so they are no more than the keys. -/
theorem length_filled_le {n : Nat} (within : KeysWithin same indices n) {slots : List Nat}
    (nodup : slots.Nodup) (filled : ∀ s ∈ slots, ∃ j, t.held s = some j) : slots.length ≤ n := by
  let found := slots.map fun s => (t.held s).getD 0
  have at_slot {s : Nat} (mem : s ∈ slots) : t.held s = some ((t.held s).getD 0) := by
    obtain ⟨j, held⟩ := filled s mem
    rw [held, Option.getD_some]
  have other {s s' : Nat} (mem : s ∈ slots) (mem' : s' ∈ slots) (ne : s ≠ s') :
      same ((t.held s).getD 0) ((t.held s').getD 0) = false := by
    by_contra alike
    exact ne (placed.unique keyed (at_slot mem) (at_slot mem') (Bool.not_eq_false _ ▸ alike))
  have apart : found.Pairwise fun i j => same i j = false :=
    List.pairwise_map.mpr (nodup.imp_of_mem fun mem mem' ne => other mem mem' ne)
  have distinct : found.Nodup := by
    refine List.Nodup.map_on (fun s mem s' mem' eq => ?_) nodup
    by_contra ne
    have alike := keyed.refl _ (placed.entered (at_slot mem))
    have differ := other mem mem' ne
    rw [← eq, alike] at differ
    cases differ
  have subset : found ⊆ indices := by
    intro x hx
    obtain ⟨s, mem, rfl⟩ := List.mem_map.mp hx
    exact placed.entered (at_slot mem)
  have le := within found distinct subset apart
  rwa [List.length_map] at le

/-- There is a vacant slot ahead of every home. -/
theorem exists_vacant (h : UInt64) : ∃ d < t.slots.size, t.held (t.ahead h d) = none := by
  by_contra full
  obtain ⟨n, less, within⟩ := placed.few
  have nodup : ((List.range t.slots.size).map (t.ahead h)).Nodup :=
    List.Nodup.map_on (fun d hd d' hd' eq =>
      ahead_inj (List.mem_range.mp hd) (List.mem_range.mp hd') eq) List.nodup_range
  have le := placed.length_filled_le keyed within nodup fun s mem => by
    obtain ⟨d, hd, rfl⟩ := List.mem_map.mp mem
    exact Option.ne_none_iff_exists'.mp fun vacant => full ⟨d, List.mem_range.mp hd, vacant⟩
  rw [List.length_map, List.length_range] at le
  omega

variable {key : Nat → Bool} {h : UInt64}

/-- Slots that were passed are fewer than all. -/
theorem lt_of_passed {d : Nat} (passed : t.Passed key h d) : d < t.slots.size := by
  obtain ⟨e, he, vacant⟩ := placed.exists_vacant keyed h
  refine Nat.lt_of_le_of_lt (Nat.le_of_not_lt fun before => ?_) he
  obtain ⟨j, held, -⟩ := passed e before
  rw [vacant] at held
  cases held

/-- A search ends before it has looked at all slots: at a vacant slot, or one that holds the key. -/
theorem exists_end (key : Nat → Bool) (h : UInt64) : ∃ d < t.slots.size, t.Passed key h d ∧
    ∀ j, t.held (t.ahead h d) = some j → key j := by
  have vacant : ∃ d < t.slots.size, ∀ j, t.held (t.ahead h d) = some j → key j := by
    obtain ⟨d, hd, none⟩ := placed.exists_vacant keyed h
    refine ⟨d, hd, fun j held => ?_⟩
    rw [none] at held
    cases held
  obtain ⟨hd, ends⟩ := Nat.find_spec vacant
  refine ⟨Nat.find vacant, hd, fun k hk => ?_, ends⟩
  have goes := Nat.find_min vacant hk
  push Not at goes
  obtain ⟨j, held, other⟩ := goes (Nat.lt_trans hk hd)
  exact ⟨j, held, Bool.not_eq_true _ ▸ other⟩

/-- A search finds the index that holds its key, and nothing if there is none. It never comes to
the end of its fuel. -/
theorem firstIndexFrom_eq (oneKey : OneKey same hash key h) {fuel : Nat}
    (enough : t.slots.size ≤ fuel) {found : Option Nat}
    (spec : ∀ s j, t.held s = some j → key j → found = some j)
    (none : (∀ s j, t.held s = some j → key j = false) → found = none) :
    t.firstIndexFrom key fuel (t.home h) = found := by
  obtain ⟨d, hd, passed, ends⟩ := placed.exists_end keyed key h
  have split : fuel = d + (fuel - d - 1 + 1) := by omega
  rw [split, firstIndexFrom_passed placed.pow passed, firstIndexFrom, look]
  cases held : t.held (t.ahead h d) with
  | some j =>
    rw [spec _ j held (ends j held)]
    simp only [ends j held, if_true]
  | none =>
    refine (none fun s j hj => ?_).symm
    -- The way to an index of the key would lead over the vacant slot.
    by_contra alike
    rw [Bool.not_eq_false] at alike
    obtain ⟨e, rfl, passed'⟩ := placed.reached hj
    rw [oneKey.hash_eq alike] at passed' hj
    rcases Nat.lt_trichotomy d e with before | rfl | behind
    · obtain ⟨i, hi, -⟩ := passed' d before
      rw [held] at hi
      cases hi
    · rw [held] at hj
      cases hj
    · obtain ⟨i, hi, other⟩ := passed e behind
      rw [hj, Option.some.injEq] at hi
      rw [← hi, alike] at other
      cases other

/-- A table that grows stays placed if every index in it was there, or took the place of one of its
key, or came behind slots that hold other keys. -/
theorem of_grows {t' : KeyTable} (grows : Grows same t t')
    (origin : ∀ {s j}, t'.held s = some j → j ∈ indices ∧
      ((∃ i, t.held s = some i ∧ (i = j ∨ same i j)) ∨
        ∃ d, s = t.ahead (hash j) d ∧ t.Passed (same j) (hash j) d)) :
    Placed same hash indices t' where
  pow := grows.size_eq ▸ placed.pow
  few := grows.size_eq ▸ placed.few
  entered held := (origin held).1
  reached := by
    intro s j held
    have closed := (keyed.oneKey j).closed
    rcases (origin held).2 with ⟨i, held', rfl | alike⟩ | ⟨d, rfl, passed⟩
    · obtain ⟨d, rfl, passed⟩ := placed.reached held'
      exact ⟨d, grows.ahead_eq.symm, passed.mono grows closed⟩
    · obtain ⟨d, rfl, passed⟩ := placed.reached held'
      have keys : same i = same j :=
        funext fun k => keyed.symm_eq i k ▸ keyed.symm_eq j k ▸ (keyed.oneKey k).closed _ _ alike
      rw [keys, keyed.hash_eq alike] at passed
      rw [keyed.hash_eq alike]
      exact ⟨d, grows.ahead_eq.symm, passed.mono grows closed⟩
    · exact ⟨d, grows.ahead_eq.symm, passed.mono grows closed⟩

/-- A vacant slot behind slots that hold other keys may be claimed. -/
theorem claim {i d : Nat} (mem : i ∈ indices) (vacant : t.held (t.ahead (hash i) d) = none)
    (passed : t.Passed (same i) (hash i) d) :
    let t' : KeyTable := ⟨t.slots.setIfInBounds (t.ahead (hash i) d) (i + 1)⟩
    Grows same t t' ∧ Placed same hash indices t' ∧ t'.held (t.ahead (hash i) d) = some i := by
  intro t'
  obtain ⟨n, less, -⟩ := placed.few
  have inside : t.ahead (hash i) d < t.slots.size := ahead_lt (Nat.zero_lt_of_lt less)
  have held := held_claim (i := i) inside
  have grows : Grows same t t' := by
    refine ⟨Array.size_setIfInBounds, fun {s j} hj => ⟨j, ?_, Nat.le_refl j, .inl rfl⟩⟩
    rw [held, if_neg, hj]
    rintro rfl
    rw [vacant] at hj
    cases hj
  refine ⟨grows, placed.of_grows keyed grows ?_, ?_⟩
  · intro s j hj
    rw [held] at hj
    split at hj
    · next here =>
      cases hj
      exact ⟨mem, .inr ⟨d, here, passed⟩⟩
    · exact ⟨placed.entered hj, .inl ⟨j, hj, .inl rfl⟩⟩
  · rw [held, if_pos rfl]

/-- A slot may take a lower index that holds its key. -/
theorem lower {s i j : Nat} (mem : i ∈ indices) (hj : t.held s = some j) (alike : same i j) :
    let t' : KeyTable := ⟨t.slots.modify s (min (i + 1))⟩
    Grows same t t' ∧ Placed same hash indices t' ∧ t'.held s = some (min i j) := by
  intro t'
  have held := held_lower (i := i) hj
  have same_min : min i j = j ∨ same j (min i j) := by
    rcases Nat.le_total i j with le | le
    · rw [Nat.min_eq_left le]
      exact .inr (keyed.symm alike)
    · exact .inl (Nat.min_eq_right le)
  have grows : Grows same t t' := by
    refine ⟨Array.size_modify, fun {s' k} hk => ?_⟩
    by_cases here : s' = s
    · subst here
      rw [hj, Option.some.injEq] at hk
      subst hk
      exact ⟨min i j, by rw [held, if_pos rfl], Nat.min_le_right i j, same_min⟩
    · exact ⟨k, by rw [held, if_neg here, hk], Nat.le_refl k, .inl rfl⟩
  refine ⟨grows, placed.of_grows keyed grows ?_, ?_⟩
  · intro s' k hk
    rw [held] at hk
    split at hk
    · next here =>
      cases hk
      subst here
      refine ⟨?_, .inl ⟨j, hj, same_min.imp_left Eq.symm⟩⟩
      rcases Nat.le_total i j with le | le
      · rw [Nat.min_eq_left le]
        exact mem
      · rw [Nat.min_eq_right le]
        exact placed.entered hj
    · exact ⟨placed.entered hk, .inl ⟨k, hk, .inl rfl⟩⟩
  · rw [held, if_pos rfl]

end Placed

end Bisection.KeyTable
