import Bisection.Proofs.KeyTable.Users
import Bisection.Window.Subsets

/-!
# A table in many hands

Indices are entered into a table, and keys are looked for in it, by any number of users whose steps
interleave in any order. The table is placed at all times, every user looks at the slots ahead of
its home one by one, and each entered index leaves its key in the table with an index that is not
greater. So what is found in the end does not depend on the order of the steps.
-/

namespace Bisection.KeyTable
set_option autoImplicit false

/-! ## Interleaved steps -/

/-- A table and those who use it. -/
structure Shared where
  table : KeyTable
  users : List User

namespace Shared

/-- A table where some indices are about to be entered, and some keys of given hashes to be looked
for. -/
def start (t : KeyTable) (hash : Nat → UInt64) (indices : List Nat)
    (keys : List (UInt64 × (Nat → Bool))) : Shared where
  table := t
  users := (indices.map fun i => .entering i (.load (t.home (hash i)))) ++
    keys.map fun (h, key) => .looking h key (t.home h)

/-- One step of the user in a place. -/
def stepAt (same : Nat → Nat → Bool) (st : Shared) (p : Nat) : Shared :=
  match st.users[p]? with
  | some u => ⟨(u.step same st.table).1, st.users.set p (u.step same st.table).2⟩
  | none => st

/-- The steps of a schedule, which names the place of a user for each. -/
def run (same : Nat → Nat → Bool) (schedule : List Nat) (st : Shared) : Shared :=
  schedule.foldl (stepAt same) st

/-- The slots that the user in a place looks at along a schedule. -/
def probes (same : Nat → Nat → Bool) (p : Nat) : List Nat → Shared → List Nat
  | [], _ => []
  | q :: schedule, st =>
    (if q = p then st.users[p]?.bind User.probe? else none).toList ++
      probes same p schedule (st.stepAt same q)

/-- The table is placed, and every user stands somewhere. -/
structure Sound (same : Nat → Nat → Bool) (hash : Nat → UInt64) (indices : List Nat)
    (st : Shared) : Prop where
  placed : Placed same hash indices st.table
  stands : ∀ u ∈ st.users, ∃ h d, u.Stands same hash indices st.table h d

end Shared

section
variable {same : Nat → Nat → Bool} {hash : Nat → UInt64} {indices : List Nat}
variable (keyed : Keyed same hash indices) {st : Shared}
include keyed

theorem Grows.trans {t t' t'' : KeyTable} (grows : Grows same t t') (grows' : Grows same t' t'') :
    Grows same t t'' := by
  refine ⟨grows'.size_eq.trans grows.size_eq, fun {s j} held => ?_⟩
  obtain ⟨j', held', le, alike⟩ := grows.kept held
  obtain ⟨j'', held'', le', alike'⟩ := grows'.kept held'
  refine ⟨j'', held'', Nat.le_trans le' le, ?_⟩
  rcases alike with rfl | alike
  · exact alike'
  · rcases alike' with rfl | alike'
    · exact .inr alike
    · exact .inr (keyed.trans alike alike')

namespace Shared

variable (same) in
omit keyed in
theorem stepAt_of_some {p : Nat} {u : User} (at_p : st.users[p]? = some u) :
    st.stepAt same p =
      ⟨(u.step same st.table).1, st.users.set p (u.step same st.table).2⟩ := by
  rw [stepAt, at_p]

omit keyed in
theorem users_stepAt_ne {p q : Nat} (ne : q ≠ p) :
    (st.stepAt same q).users[p]? = st.users[p]? := by
  cases at_q : st.users[q]? with
  | none => rw [Shared.stepAt, at_q]
  | some v =>
    rw [stepAt_of_some same at_q]
    exact List.getElem?_set_ne ne

theorem Sound.stepAt (sound : Sound same hash indices st) (p : Nat) :
    Sound same hash indices (st.stepAt same p) ∧ Grows same st.table (st.stepAt same p).table := by
  cases at_p : st.users[p]? with
  | none =>
    rw [Shared.stepAt, at_p]
    exact ⟨sound, .refl⟩
  | some u =>
    obtain ⟨h, d, stands⟩ := sound.stands u (List.mem_of_getElem? at_p)
    have stepped := stands.step sound.placed keyed
    rw [stepAt_of_some same at_p]
    refine ⟨⟨stepped.placed, fun v hv => ?_⟩, stepped.grows⟩
    rcases List.mem_or_eq_of_mem_set hv with hv | rfl
    · obtain ⟨h', d', stands'⟩ := sound.stands v hv
      exact ⟨h', d', stands'.mono stepped.grows keyed⟩
    · exact ⟨h, _, stepped.stands⟩

theorem Sound.run (sound : Sound same hash indices st) (schedule : List Nat) :
    Sound same hash indices (st.run same schedule) ∧
      Grows same st.table (st.run same schedule).table := by
  induction schedule generalizing st with
  | nil => exact ⟨sound, .refl⟩
  | cons p schedule ih =>
    obtain ⟨sound', grows⟩ := sound.stepAt keyed p
    obtain ⟨sound'', grows'⟩ := ih sound'
    exact ⟨sound'', grows.trans keyed grows'⟩

/-- A user looks at the slots ahead of its home one by one, and has fewer steps left with each. -/
theorem Sound.own_run (sound : Sound same hash indices st) (schedule : List Nat) {p : Nat}
    {u : User} (at_p : st.users[p]? = some u) {h : UInt64} {d : Nat}
    (stands : u.Stands same hash indices st.table h d) :
    ∃ u' m, (st.run same schedule).users[p]? = some u' ∧
      st.probes same p schedule = (List.range' d m).map (st.table.ahead h) ∧
      (m = 0 ∨ d + m ≤ st.table.slots.size) ∧
      (u'.isDone = false → u.isDone = false ∧
        schedule.count p < u.stepsLeft st.table.slots.size d) := by
  induction schedule generalizing st u d with
  | nil =>
    exact ⟨u, 0, at_p, rfl, .inl rfl, fun goes =>
      ⟨goes, stands.stepsLeft_pos sound.placed keyed goes⟩⟩
  | cons q schedule ih =>
    obtain ⟨sound', grows⟩ := sound.stepAt keyed q
    have ahead : (st.stepAt same q).table.ahead h = st.table.ahead h :=
      funext fun _ => grows.ahead_eq
    by_cases own : q = p
    · subst own
      have stepped := stands.step sound.placed keyed
      have next := stepAt_of_some same at_p
      have at_p' : (st.stepAt same q).users[q]? = some (u.step same st.table).2 := by
        rw [next]
        exact List.getElem?_set_self (List.getElem?_eq_some_iff.mp at_p).1
      obtain ⟨u', m, ends, probes, bound, left⟩ :=
        ih sound' at_p' (by rw [next]; exact stepped.stands)
      rw [ahead] at probes
      rw [grows.size_eq] at bound left
      refine ⟨u', u.probe?.toList.length + m, ends, ?_, ?_, fun goes => ?_⟩
      · rw [Shared.probes, if_pos rfl, at_p, Option.bind_some, probes, ← List.range'_append_1,
          List.map_append]
        congr 1
        cases look : u.probe? with
        | none => rfl
        | some s =>
          rw [(stepped.probes s look).1]
          rfl
      · cases look : u.probe? with
        | none =>
          rw [look] at bound
          simpa using bound
        | some s =>
          have inside := (stepped.probes s look).2
          rw [look] at bound
          rw [Option.toList_some, List.length_singleton] at bound ⊢
          omega
      · obtain ⟨goes', left⟩ := left goes
        have goes : u.isDone = false := by
          by_contra done
          rw [Bool.not_eq_false] at done
          rw [User.isDone_step done] at goes'
          cases goes'
        have less := stepped.less goes
        refine ⟨goes, ?_⟩
        rw [List.count_cons_self]
        omega
    · rw [← users_stepAt_ne own] at at_p
      obtain ⟨u', m, ends, probes, bound, left⟩ := ih sound' at_p (stands.mono grows keyed)
      rw [ahead] at probes
      rw [grows.size_eq] at bound left
      refine ⟨u', m, ends, ?_, bound, fun goes => ?_⟩
      · rw [Shared.probes, if_neg own]
        exact probes
      · rw [List.count_cons_of_ne own]
        exact left goes

variable (same) in
omit keyed in
theorem index?_run (schedule : List Nat) (p : Nat) :
    (st.run same schedule).users[p]?.bind User.index? = st.users[p]?.bind User.index? := by
  induction schedule generalizing st with
  | nil => rfl
  | cons q schedule ih =>
    refine (@ih (st.stepAt same q)).trans ?_
    by_cases own : q = p
    · subst own
      cases at_q : st.users[q]? with
      | none => rw [Shared.stepAt, at_q, at_q]
      | some u =>
        rw [stepAt_of_some same at_q]
        show ((st.users.set q _)[q]?).bind User.index? = _
        rw [List.getElem?_set_self (List.getElem?_eq_some_iff.mp at_q).1, Option.bind_some,
          Option.bind_some, User.index?_step]
    · rw [users_stepAt_ne own]

omit keyed in
theorem probes_of_none {p : Nat} (none : st.users[p]? = none) (schedule : List Nat) :
    st.probes same p schedule = [] ∧ (st.run same schedule).users[p]? = .none := by
  induction schedule generalizing st with
  | nil => exact ⟨rfl, none⟩
  | cons q schedule ih =>
    have none' : (st.stepAt same q).users[p]? = .none := by
      by_cases own : q = p
      · subst own
        rw [Shared.stepAt, none, none]
      · rw [users_stepAt_ne own, none]
    obtain ⟨probes, ends⟩ := ih none'
    refine ⟨?_, ends⟩
    rw [Shared.probes, probes, none]
    split <;> rfl

/-- Nobody looks at a slot twice, or takes more than two steps for each slot and one more. -/
theorem Sound.own_bounds (sound : Sound same hash indices st) (schedule : List Nat) (p : Nat) :
    (st.probes same p schedule).Nodup ∧
      (2 * st.table.slots.size < schedule.count p →
        ∀ u ∈ (st.run same schedule).users[p]?, u.isDone) := by
  cases at_p : st.users[p]? with
  | none =>
    obtain ⟨probes, ends⟩ := probes_of_none at_p schedule
    rw [probes, ends]
    exact ⟨.nil, fun _ => nofun⟩
  | some u =>
    obtain ⟨h, d, stands⟩ := sound.stands u (List.mem_of_getElem? at_p)
    obtain ⟨u', m, ends, probes, bound, left⟩ := sound.own_run keyed schedule at_p stands
    rw [probes, ends]
    refine ⟨List.Nodup.map_on ?_ (List.nodup_range' ..), fun enough v hv => ?_⟩
    · intro k hk k' hk' eq
      rw [List.mem_range'_1] at hk hk'
      exact ahead_inj (by omega) (by omega) eq
    · cases hv
      by_contra goes
      rw [Bool.not_eq_true] at goes
      have left := (left goes).2
      have most := stands.stepsLeft_le sound.placed keyed
      omega

omit keyed in
/-- An index that is not being entered any more is entered. -/
theorem entered_of_run {keys : List (UInt64 × (Nat → Bool))} {t : KeyTable} {schedule : List Nat}
    (done : ∀ i e, .entering i e ∉ ((start t hash indices keys).run same schedule).users) :
    ∀ i ∈ indices, .entered i ∈ ((start t hash indices keys).run same schedule).users := by
  intro i mem
  obtain ⟨p, at_p⟩ := List.mem_iff_getElem?.mp mem
  have first : (start t hash indices keys).users[p]?.bind User.index? = some i := by
    rw [start, List.getElem?_append_left (by simpa using (List.getElem?_eq_some_iff.mp at_p).1),
      List.getElem?_map, at_p]
    rfl
  rw [← index?_run same schedule] at first
  obtain ⟨u, at_p, index⟩ := Option.bind_eq_some_iff.mp first
  have mem := List.mem_of_getElem? at_p
  cases u with
  | entering j e => exact absurd mem (done j e)
  | entered j =>
    cases index
    exact mem
  | looking h key slot => cases index
  | looked found => cases index

omit keyed in
theorem sound_start_of_keys {len n : Nat} {t : KeyTable} (made : make len = .ok t)
    (few : KeysWithin same indices n) (less : n < t.slots.size)
    (keys : List (UInt64 × (Nat → Bool))) :
    Sound same hash indices (start t hash indices keys) := by
  obtain ⟨pow, -, vacant⟩ := make_spec made
  constructor
  · refine ⟨pow, ⟨n, less, few⟩, fun {s j} held => ?_, fun {s j} held => ?_⟩
    · rw [start, vacant] at held
      cases held
    · rw [start, vacant] at held
      cases held
  · intro u hu
    rcases List.mem_append.mp hu with hu | hu
    · obtain ⟨i, mem, rfl⟩ := List.mem_map.mp hu
      exact ⟨hash i, 0, mem, rfl, home_eq pow, .zero⟩
    · obtain ⟨⟨h, key⟩, -, rfl⟩ := List.mem_map.mp hu
      exact ⟨h, 0, rfl, home_eq pow, .zero⟩

omit keyed in
theorem sound_start {len : Nat} {t : KeyTable} (made : make len = .ok t)
    (few : indices.length ≤ len) (keys : List (UInt64 × (Nat → Bool))) :
    Sound same hash indices (start t hash indices keys) :=
  sound_start_of_keys made (keysWithin_length same indices)
    (Nat.lt_of_le_of_lt few (make_spec made).2.1) keys

/-- Once no index is being entered, a search finds the lowest index of its key. -/
theorem Sound.firstIndexFrom_eq (sound : Sound same hash indices st)
    (entered : ∀ i ∈ indices, .entered i ∈ st.users) {key : Nat → Bool} {h : UInt64}
    (oneKey : OneKey same hash key h) {fuel : Nat} (enough : st.table.slots.size ≤ fuel) :
    st.table.firstIndexFrom key fuel (st.table.home h) = (indices.filter key).min? := by
  -- What an index left in the table is of its key, and not greater.
  have left (i : Nat) (mem : i ∈ indices) (hi : key i) :
      ∃ s j, st.table.held s = some j ∧ key j ∧ j ≤ i := by
    obtain ⟨_, _, _, s, j, held, alike, le⟩ := sound.stands _ (entered i mem)
    exact ⟨s, j, held, oneKey.closed i j alike ▸ hi, le⟩
  apply sound.placed.firstIndexFrom_eq keyed oneKey enough
  · intro s j held hj
    refine List.min?_eq_some_iff.mpr ⟨List.mem_filter.mpr ⟨sound.placed.entered held, hj⟩, ?_⟩
    intro i hi
    obtain ⟨mem, hi⟩ := List.mem_filter.mp hi
    obtain ⟨s', j', held', hj', le⟩ := left i mem hi
    have here := sound.placed.unique keyed held held' (oneKey.same hj hj')
    rw [here, held', Option.some.injEq] at held
    exact held ▸ le
  · intro other
    rw [List.min?_eq_none_iff, List.filter_eq_nil_iff]
    intro i mem hi
    obtain ⟨s, j, held, hj, -⟩ := left i mem hi
    rw [other s j held] at hj
    cases hj

end Shared

end

/-! ## The keys of elements -/

section
variable {α : Type} (w : Window α) (same : α → α → Bool) (hash : α → UInt64)

theorem holdsKey_iff {x : α} {j : Nat} :
    w.holdsKey same x j ↔ ∃ y, w.get? j = some y ∧ same y x := by
  rw [Window.holdsKey, Option.any_eq_true]

theorem sameKeyAt_iff {i j : Nat} : w.sameKeyAt same i j ↔
    ∃ x, w.get? i = some x ∧ ∃ y, w.get? j = some y ∧ same y x := by
  rw [Window.sameKeyAt, Option.any_eq_true]
  simp only [holdsKey_iff]

theorem hashAt_of_get? {i : Nat} {x : α} (at_i : w.get? i = some x) :
    w.hashAt hash i = hash x := by
  rw [Window.hashAt, at_i]
  rfl

variable {same hash} (equiv : Equivalence fun x y => same x y = true)
variable (compat : ∀ x y, same x y → hash x = hash y)
include equiv compat

theorem keyed_window {indices : List Nat} (inside : ∀ i ∈ indices, i < w.array.size) :
    Keyed (w.sameKeyAt same) (w.hashAt hash) indices where
  refl i mem := by
    obtain ⟨x, at_i⟩ := w.array.store.exists_get? (inside i mem)
    exact (sameKeyAt_iff w same).mpr ⟨x, at_i, x, at_i, equiv.refl x⟩
  symm := by
    intro i j h
    obtain ⟨x, at_i, y, at_j, alike⟩ := (sameKeyAt_iff w same).mp h
    exact (sameKeyAt_iff w same).mpr ⟨y, at_j, x, at_i, equiv.symm alike⟩
  trans := by
    intro i j k h h'
    obtain ⟨x, at_i, y, at_j, alike⟩ := (sameKeyAt_iff w same).mp h
    obtain ⟨y', at_j', z, at_k, alike'⟩ := (sameKeyAt_iff w same).mp h'
    rw [at_j, Option.some.injEq] at at_j'
    subst at_j'
    exact (sameKeyAt_iff w same).mpr ⟨x, at_i, z, at_k, equiv.trans alike' alike⟩
  hash_eq := by
    intro i j h
    obtain ⟨x, at_i, y, at_j, alike⟩ := (sameKeyAt_iff w same).mp h
    rw [hashAt_of_get? w hash at_i, hashAt_of_get? w hash at_j]
    exact (compat y x alike).symm

theorem oneKey_window (x : α) :
    OneKey (w.sameKeyAt same) (w.hashAt hash) (w.holdsKey same x) (hash x) where
  closed i j h := by
    obtain ⟨y, at_i, z, at_j, alike⟩ := (sameKeyAt_iff w same).mp h
    rw [Window.holdsKey, Window.holdsKey, at_i, at_j, Option.any_some, Option.any_some]
    exact Bool.eq_iff_iff.mpr ⟨equiv.trans alike, equiv.trans (equiv.symm alike)⟩
  same := by
    intro i j hi hj
    obtain ⟨y, at_i, alike⟩ := (holdsKey_iff w same).mp hi
    obtain ⟨z, at_j, alike'⟩ := (holdsKey_iff w same).mp hj
    exact (sameKeyAt_iff w same).mpr
      ⟨y, at_i, z, at_j, equiv.trans alike' (equiv.symm alike)⟩
  hash_eq := by
    intro i hi
    obtain ⟨y, at_i, alike⟩ := (holdsKey_iff w same).mp hi
    rw [hashAt_of_get? w hash at_i]
    exact compat y x alike

end

/-- Indices are entered and keys looked for by steps that interleave as a schedule says. At all
times every key is in one slot at most, and a slot that is filled keeps its key. Once all indices
are entered a search finds the lowest index of its key, if there is one, with any fuel that is
enough for all slots. Nobody looks at a slot twice, or takes more than two steps for each slot and
one more. -/
theorem entries_interleave {α : Type} (w : Window α) (same : α → α → Bool) (hash : α → UInt64)
    (equiv : Equivalence fun x y => same x y = true)
    (compat : ∀ x y, same x y → hash x = hash y) {len : Nat} {table : KeyTable}
    (made : make len = .ok table) (indices : List Nat) (few : indices.length ≤ len)
    (inside : ∀ i ∈ indices, i < w.array.size) (values : List α) (schedule : List Nat) :
    let alike := w.sameKeyAt same
    let start := Shared.start table (w.hashAt hash) indices
      (values.map fun x => (hash x, w.holdsKey same x))
    let now := start.run alike schedule
    (∀ s s' i j, now.table.held s = some i → now.table.held s' = some j → alike i j → s = s') ∧
    (∀ later s i, now.table.held s = some i →
      ∃ j, (now.run alike later).table.held s = some j ∧ alike i j) ∧
    ((∀ i e, .entering i e ∉ now.users) → ∀ x,
      let lowest := (indices.filter (w.holdsKey same x)).min?
      now.table.firstIndex (hash x) (w.holdsKey same x) = lowest ∧
      ∀ fuel, table.slots.size ≤ fuel → now.table.firstIndexFrom (w.holdsKey same x) fuel
        (now.table.home (hash x)) = lowest) ∧
    ∀ p, (start.probes alike p schedule).Nodup ∧
      (2 * table.slots.size < schedule.count p → ∀ u ∈ now.users[p]?, u.isDone) := by
  intro alike start now
  have keyed : Keyed alike (w.hashAt hash) indices := keyed_window w equiv compat inside
  have atStart : start.Sound alike (w.hashAt hash) indices := Shared.sound_start made few _
  obtain ⟨sound, grows⟩ := atStart.run keyed schedule
  refine ⟨?_, ?_, ?_, atStart.own_bounds keyed schedule⟩
  · intro s s' i j hi hj h
    exact sound.placed.unique keyed hi hj h
  · intro later s i hi
    obtain ⟨-, grows'⟩ := sound.run keyed later
    obtain ⟨j, held, -, rfl | h⟩ := grows'.kept hi
    · exact ⟨j, held, keyed.refl j (sound.placed.entered hi)⟩
    · exact ⟨j, held, h⟩
  · intro done x lowest
    have entered := Shared.entered_of_run done
    have found {fuel : Nat} (enough : now.table.slots.size ≤ fuel) :=
      sound.firstIndexFrom_eq keyed entered (oneKey_window w equiv compat x) enough
    refine ⟨found (Nat.le_refl _), fun fuel enough => found ?_⟩
    rw [grows.size_eq]
    exact enough

/-- Two indices of one key race for a slot. The lower one loses, and lowers the index of the other,
which a search has found in between. -/
theorem entries_interleave_race :
    let w : Window Nat := (BulkArray.mk default none (.cells #[7, 5, 7])).whole
    let start := Shared.start ⟨Array.replicate 8 0⟩ (w.hashAt UInt64.ofNat) [2, 0, 1]
      [(UInt64.ofNat 7, w.holdsKey (· == ·) 7)]
    let now := start.run (w.sameKeyAt (· == ·)) [0, 1, 0, 3, 1, 1, 2, 2]
    now.users = [.entered 2, .entered 0, .entered 1, .looked (some 2)] ∧
      now.table.firstIndex (UInt64.ofNat 7) (w.holdsKey (· == ·) 7) = some 0 := by
  intro w start now
  have users : now.users = [.entered 2, .entered 0, .entered 1, .looked (some 2)] := by
    unfold now start w
    rfl
  have equiv : Equivalence fun x y : Nat => (x == y) = true := by
    refine ⟨fun x => BEq.rfl, fun h => BEq.symm h, fun h h' => BEq.trans h h'⟩
  have compat (x y : Nat) (h : x == y) : UInt64.ofNat x = UInt64.ofNat y := by
    rw [eq_of_beq h]
  have made : make 3 = .ok ⟨Array.replicate 8 0⟩ := rfl
  have spec := entries_interleave w (· == ·) UInt64.ofNat equiv compat made [2, 0, 1] (by decide)
    (by decide) [7] [0, 1, 0, 3, 1, 1, 2, 2]
  obtain ⟨-, -, found, -⟩ := spec
  refine ⟨users, (found (fun i e => ?_) 7).1⟩
  show .entering i e ∉ now.users
  rw [users]
  simp

end Bisection.KeyTable
