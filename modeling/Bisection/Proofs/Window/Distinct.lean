import Bisection.Proofs.Agreement.Lawful
import Bisection.Proofs.KeyTable.Entering
import Bisection.Proofs.Window.Selections

/-!
# The first element of each key

The distinct elements of a window are those with another key than every element before them. This
says nothing of the table by which they are found, so neither the hash nor the order in which the
indices are entered makes a difference. Of the elements that have one key the first is left, and
nothing more is left out when distinct elements are looked for again.
-/

namespace Bisection
set_option autoImplicit false

/-! ## Lists -/

section
variable {α : Type} (same : α → α → Bool)

/-- The elements with another key than those of `before`, and than those in front of them. -/
def firstsAfter : (before xs : List α) → List α
  | _, [] => []
  | before, x :: xs =>
    if before.any (same · x) then firstsAfter (x :: before) xs
    else x :: firstsAfter (x :: before) xs

/-- The elements with another key than those in front of them. -/
def firsts (xs : List α) : List α := firstsAfter same [] xs

variable {same}

theorem not_same_of_mem_firstsAfter {before xs : List α} {y : α}
    (mem : y ∈ firstsAfter same before xs) : ∀ x ∈ before, same x y = false := by
  induction xs generalizing before with
  | nil => cases mem
  | cons x xs ih =>
    have later (mem : y ∈ firstsAfter same (x :: before) xs) : ∀ x ∈ before, same x y = false :=
      fun z mem' => ih mem z (List.mem_cons_of_mem x mem')
    rw [firstsAfter] at mem
    split at mem
    · exact later mem
    · next new =>
      rcases List.mem_cons.mp mem with rfl | mem
      · intro z mem'
        exact Bool.eq_false_iff.mpr fun alike => new (List.any_eq_true.mpr ⟨z, mem', alike⟩)
      · exact later mem

theorem pairwise_firstsAfter (before xs : List α) :
    (firstsAfter same before xs).Pairwise fun x y => same x y = false := by
  induction xs generalizing before with
  | nil => exact .nil
  | cons x xs ih =>
    rw [firstsAfter]
    split
    · exact ih _
    · refine List.pairwise_cons.mpr ⟨fun y mem => ?_, ih _⟩
      exact not_same_of_mem_firstsAfter mem x List.mem_cons_self

/-- Elements that differ in their keys are all first. -/
theorem firstsAfter_eq_self {before xs : List α}
    (apart : xs.Pairwise fun x y => same x y = false)
    (new : ∀ x ∈ before, ∀ y ∈ xs, same x y = false) : firstsAfter same before xs = xs := by
  induction xs generalizing before with
  | nil => rfl
  | cons x xs ih =>
    obtain ⟨first, apart⟩ := List.pairwise_cons.mp apart
    have front : before.any (same · x) = false := by
      rw [List.any_eq_false]
      intro y mem
      exact Bool.eq_false_iff.mp (new y mem x List.mem_cons_self)
    rw [firstsAfter, front, if_neg Bool.false_ne_true, ih apart]
    intro y mem z mem'
    rcases List.mem_cons.mp mem with rfl | mem
    · exact first z mem'
    · exact new y mem z (List.mem_cons_of_mem x mem')

/-- Of the elements that a key belongs to the first is left, if it is the key of none before. -/
theorem filter_firstsAfter {key : α → Bool} (one : ∀ x y, key x → key y → same x y)
    (closed : ∀ x y, same x y → key y → key x) (before xs : List α) :
    (firstsAfter same before xs).filter key =
      if before.any key then [] else (xs.find? key).toList := by
  induction xs generalizing before with
  | nil =>
    rw [firstsAfter]
    split <;> rfl
  | cons x xs ih =>
    have seen : before.any (same · x) → key x → before.any key := by
      intro alike hit
      obtain ⟨y, mem, alike⟩ := List.any_eq_true.mp alike
      exact List.any_eq_true.mpr ⟨y, mem, closed y x alike hit⟩
    have unseen : before.any key → key x → before.any (same · x) := by
      intro hit hit'
      obtain ⟨y, mem, hit⟩ := List.any_eq_true.mp hit
      exact List.any_eq_true.mpr ⟨y, mem, one y x hit hit'⟩
    have rest := ih (x :: before)
    rw [List.any_cons] at rest
    rw [firstsAfter]
    cases hit : key x with
    | false =>
      rw [hit, Bool.false_or] at rest
      rw [List.find?_cons_of_neg (by rw [hit]; decide), ← rest]
      split
      · rfl
      · rw [List.filter_cons_of_neg (by rw [hit]; decide)]
    | true =>
      rw [hit, Bool.true_or, if_pos rfl] at rest
      rw [List.find?_cons_of_pos hit]
      split
      · next old => rw [rest, if_pos (seen old hit)]
      · next new =>
        rw [List.filter_cons_of_pos hit, rest, if_neg (fun old => new (unseen old hit))]
        rfl

theorem filter_firsts (key : α → Bool) (one : ∀ x y, key x → key y → same x y)
    (closed : ∀ x y, same x y → key y → key x) (xs : List α) :
    (firsts same xs).filter key = (xs.find? key).toList :=
  filter_firstsAfter one closed [] xs

/-- What holds for no element holds at no index. -/
theorem any_eq_false_iff {get : Nat → Option α} {lo : Nat} {before : List α}
    (front : (List.range' lo before.length).map get = before.reverse.map some) (q : α → Bool) :
    before.any q = false ↔ ∀ j < lo + before.length, lo ≤ j → (get j).any q = false := by
  have all : before.any q = (before.reverse.map some).any (Option.any q) := by
    rw [List.any_map, List.any_reverse]
    rfl
  rw [all, ← front, List.any_map, List.any_eq_false]
  constructor
  · intro none j below above
    exact Bool.eq_false_iff.mpr (none j (List.mem_range'_1.mpr ⟨above, below⟩))
  · intro none j mem
    obtain ⟨above, below⟩ := List.mem_range'_1.mp mem
    exact Bool.eq_false_iff.mp (none j below above)

variable (same) in
/-- Whether an index holds another key than those from `lo` up to it. -/
def isNew (get : Nat → Option α) (lo i : Nat) : Bool :=
  decide (∀ j < i, lo ≤ j → ((get i).any fun x => (get j).any (same · x)) = false)

/-- The elements at the indices that hold another key than those before them. -/
theorem map_firstsAfter {get : Nat → Option α} {lo : Nat} {before xs : List α}
    (front : (List.range' lo before.length).map get = before.reverse.map some)
    (rest : (List.range' (lo + before.length) xs.length).map get = xs.map some) :
    ((List.range' (lo + before.length) xs.length).filter (isNew same get lo)).map get =
      (firstsAfter same before xs).map some := by
  induction xs generalizing before with
  | nil => rfl
  | cons x xs ih =>
    rw [List.length_cons, List.range'_succ, List.map_cons, List.map_cons, List.cons.injEq] at rest
    obtain ⟨here, rest⟩ := rest
    have front' : (List.range' lo (x :: before).length).map get =
        (x :: before).reverse.map some := by
      rw [List.length_cons, List.range'_concat, Nat.one_mul, List.map_append, front,
        List.reverse_cons, List.map_append, List.map_singleton, here]
      rfl
    have later := ih front' rest
    have first : isNew same get lo (lo + before.length) = !before.any (same · x) := by
      rw [Bool.eq_iff_iff, isNew, decide_eq_true_iff, here, Bool.not_eq_true',
        any_eq_false_iff front]
      rfl
    rw [List.length_cons, List.range'_succ, List.filter_cons, first, firstsAfter]
    cases before.any (same · x) with
    | true => exact later
    | false =>
      show get (lo + before.length) :: _ = some x :: _
      rw [here]
      exact congrArg _ later

end

namespace Window
variable {α : Type} (w : Window α) {same : α → α → Bool} {hash : α → UInt64}

variable (same) in
/-- The indices of a window that hold another key than those before them in it. -/
theorem map_firsts :
    ((List.range' w.lo w.size).filter (isNew same w.get? w.lo)).map w.get? =
      (firsts same (w.upTo w.hi)).map some := by
  have elems := w.map_get?_range
  rw [← w.length_upTo] at elems ⊢
  have none : (List.range' w.lo ([] : List α).length).map w.get? = [].reverse.map some := rfl
  exact map_firstsAfter none elems

section
variable (equiv : Equivalence fun x y => same x y = true)
  (compat : ∀ x y, same x y → hash x = hash y)
include equiv

theorem holdsFirst_eq {i : Nat} (mem : i ∈ List.range' w.lo w.size) :
    w.holdsFirst same i = isNew same w.get? w.lo i := by
  obtain ⟨above, below⟩ := List.mem_range'_1.mp mem
  have self : w.sameKeyAt same i i := by
    rw [w.lo_add_size] at below
    obtain ⟨x, at_i⟩ := w.exists_get? below
    exact (KeyTable.sameKeyAt_iff w same).mpr ⟨x, at_i, x, at_i, equiv.refl x⟩
  rw [Bool.eq_iff_iff, holdsFirst, beq_iff_eq, List.min?_eq_some_iff, isNew, decide_eq_true_iff]
  constructor
  · rintro ⟨-, least⟩ j before above'
    apply Bool.eq_false_iff.mpr
    intro alike
    have inside := List.mem_range'_1.mpr ⟨above', Nat.lt_trans before below⟩
    exact Nat.not_le.mpr before (least j (List.mem_filter.mpr ⟨inside, alike⟩))
  · intro new
    refine ⟨List.mem_filter.mpr ⟨mem, self⟩, fun j alike => Nat.le_of_not_lt fun before => ?_⟩
    obtain ⟨inside, alike⟩ := List.mem_filter.mp alike
    exact Bool.eq_false_iff.mp (new j before (List.mem_range'_1.mp inside).1) alike

theorem fetched_firsts :
    ((List.range' w.lo w.size).filter (w.holdsFirst same)).filterMap w.get? =
      firsts same (w.upTo w.hi) := by
  have first : (List.range' w.lo w.size).filter (w.holdsFirst same) =
      (List.range' w.lo w.size).filter (isNew same w.get? w.lo) :=
    List.filter_congr fun i mem => w.holdsFirst_eq equiv mem
  have elems := congrArg (List.filterMap id) (w.map_firsts same)
  rw [List.filterMap_map, List.filterMap_map, ← first] at elems
  exact elems.trans (List.filterMap_some ..)

include compat

theorem uniqueBy_id {table : KeyTable} (made : KeyTable.make w.size = .ok table) :
    w.uniqueBy (m := Id) same hash =
      .ok (w.array.derive (firsts same (w.upTo w.hi)).toArray) := by
  have unique : w.uniqueBy (m := Id) same hash = _ :=
    same_uniqueBy (T := Tracking.plain w.lo) equiv compat
  rw [made, fetched_firsts w equiv] at unique
  exact unique

end

/-- What the distinct elements of a window are. -/
structure DistinctOf (same : α → α → Bool) (xs : List α) : Prop where
  /-- They are what is at the indices with another key than all indices before them. -/
  indices : ∃ indices : List Nat, indices.Pairwise (· < ·) ∧
    (∀ i, i ∈ indices ↔ w.lo ≤ i ∧ i < w.hi ∧
      ∀ j, w.lo ≤ j → j < i → w.sameKeyAt same i j = false) ∧
    xs.map some = indices.map w.get?
  /-- Their keys differ. -/
  apart : xs.Pairwise fun x y => same x y = false
  /-- There is one for each key in the window. -/
  covers : ∀ x ∈ w.upTo w.hi, ∃ y ∈ xs, same y x

theorem length_firsts_le : (firsts same (w.upTo w.hi)).length ≤ w.size := by
  have lengths := congrArg List.length (w.map_firsts same)
  rw [List.length_map, List.length_map] at lengths
  rw [← lengths]
  exact (List.length_filter_le _ _).trans (Nat.le_of_eq List.length_range')

theorem distinctOf_firsts (equiv : Equivalence fun x y => same x y = true) :
    w.DistinctOf same (firsts same (w.upTo w.hi)) where
  indices := by
    refine ⟨_, (List.pairwise_lt_range' _).filter _, fun i => ?_, (w.map_firsts same).symm⟩
    rw [List.mem_filter, List.mem_range'_1, w.lo_add_size, isNew, decide_eq_true_iff, and_assoc]
    refine and_congr_right fun _ => and_congr_right fun _ => ?_
    exact forall_congr' fun j => forall_comm
  apart := pairwise_firstsAfter [] _
  covers := by
    intro x mem
    have kept : (firsts same (w.upTo w.hi)).filter (same · x) =
        ((w.upTo w.hi).find? (same · x)).toList :=
      filter_firsts (same · x) (fun y z hy hz => equiv.trans hy (equiv.symm hz))
        (fun y z alike hz => equiv.trans alike hz) (w.upTo w.hi)
    have some : ((w.upTo w.hi).find? (same · x)).isSome :=
      List.find?_isSome.mpr ⟨x, mem, equiv.refl x⟩
    obtain ⟨y, found⟩ := Option.isSome_iff_exists.mp some
    rw [found] at kept
    have mem : y ∈ (firsts same (w.upTo w.hi)).filter (same · x) := kept ▸ List.mem_singleton_self y
    exact ⟨y, List.mem_filter.mp mem⟩

end Window

/-! ## Tables -/

namespace KeyTable

/-- There is a table for fewer elements if there is one. -/
theorem make_of_le {len len' : Nat} {table : KeyTable} (made : make len = .ok table)
    (fewer : len' ≤ len) : ∃ table', make len' = .ok table' :=
  (exists_make_iff len').mpr (Nat.le_trans fewer ((exists_make_iff len).mp ⟨table, made⟩))

end KeyTable

/-! ## Numbers -/

namespace Binary
variable {f : BinaryFormat}

theorem ext {x y : Binary f} (bits : x.bits = y.bits) : x = y := by
  cases x
  cases bits
  rfl

/-- The key of a number is its bits, and all values that are no numbers have one key. -/
theorem sameKey_iff (nan : (canonicalNaN : Binary f).isNaN) (x y : Binary f) :
    UniqueKey.sameKey x y ↔ x.bits = y.bits ∨ (x.isNaN ∧ y.isNaN) := by
  have other {z : Binary f} (number : ¬ z.isNaN) : z.bits ≠ (canonicalNaN : Binary f).bits := by
    intro bits
    exact number (ext bits ▸ nan)
  show (x.canonicalBits == y.canonicalBits) = true ↔ _
  rw [beq_iff_eq, canonicalBits, canonicalBits]
  by_cases hx : x.isNaN
  · by_cases hy : y.isNaN
    · rw [if_pos hx, if_pos hy]
      exact ⟨fun _ => .inr ⟨hx, hy⟩, fun _ => rfl⟩
    · rw [if_pos hx, if_neg hy]
      constructor
      · intro bits
        exact absurd bits.symm (other hy)
      · rintro (bits | ⟨-, hy'⟩)
        · exact absurd (ext bits ▸ hx) hy
        · exact absurd hy' hy
  · rw [if_neg hx]
    constructor
    · intro bits
      split at bits
      · exact absurd bits (other hx)
      · exact .inl bits
    · rintro (bits | ⟨hx', -⟩)
      · rw [if_neg (ext bits ▸ hx), bits]
      · exact absurd hx' hx

end Binary

/-! ## What is found -/

namespace Window
variable {α : Type} (w : Window α) {same : α → α → Bool}

theorem upTo_whole (a : BulkArray α) : a.whole.upTo a.whole.hi = a.toList := by
  show (a.toList.take a.size).drop 0 = a.toList
  rw [List.drop_zero]
  exact List.take_of_length_le (Nat.le_of_eq a.store.length_toList)

/-- All distinct elements are found again among themselves. -/
theorem uniqueBy_again (equiv : Equivalence fun x y => same x y = true) {hash : α → UInt64}
    (compat : ∀ x y, same x y → hash x = hash y) {table : KeyTable}
    (made : KeyTable.make w.size = .ok table) :
    let out := w.array.derive (firsts same (w.upTo w.hi)).toArray
    out.whole.uniqueBy (m := Id) same hash = .ok out := by
  intro out
  have elems : out.whole.upTo out.whole.hi = firsts same (w.upTo w.hi) := upTo_whole out
  have fewer : out.whole.size ≤ w.size := by
    rw [← out.whole.length_upTo, elems]
    exact w.length_firsts_le
  obtain ⟨table', made'⟩ := KeyTable.make_of_le made fewer
  have all : firsts same (firsts same (w.upTo w.hi)) = firsts same (w.upTo w.hi) :=
    firstsAfter_eq_self (pairwise_firstsAfter [] _) nofun
  rw [uniqueBy_id out.whole equiv compat made', elems, all]
  rfl

end Window

namespace Binary
variable {f : BinaryFormat} (nan : (canonicalNaN : Binary f).isNaN) (xs : List (Binary f))
include nan

/-- Of the values that are no numbers the first is left. -/
theorem filter_isNaN_firsts :
    (firsts UniqueKey.sameKey xs).filter isNaN = (xs.find? isNaN).toList := by
  apply filter_firsts
  · intro x y hx hy
    exact (sameKey_iff nan x y).mpr (.inr ⟨hx, hy⟩)
  · intro x y alike hy
    rcases (sameKey_iff nan x y).mp alike with bits | ⟨hx, -⟩
    · exact ext bits ▸ hy
    · exact hx

/-- A number that is there is left once. -/
theorem filter_bits_firsts {x : Binary f} (mem : x ∈ xs) (number : x.isNaN = false) :
    (firsts UniqueKey.sameKey xs).filter (fun y => y.bits == x.bits) = [x] := by
  have kept : (firsts UniqueKey.sameKey xs).filter (fun y => y.bits == x.bits) =
      (xs.find? fun y => y.bits == x.bits).toList := by
    apply filter_firsts
    · intro y z hy hz
      exact (sameKey_iff nan y z).mpr (.inl ((eq_of_beq hy).trans (eq_of_beq hz).symm))
    · intro y z alike hz
      have eq : z = x := ext (eq_of_beq hz)
      rw [eq] at alike
      rcases (sameKey_iff nan y x).mp alike with bits | ⟨-, hx⟩
      · exact beq_iff_eq.mpr bits
      · exact absurd hx (Bool.eq_false_iff.mp number)
  have some : (xs.find? fun y => y.bits == x.bits).isSome :=
    List.find?_isSome.mpr ⟨x, mem, beq_iff_eq.mpr rfl⟩
  obtain ⟨y, found⟩ := Option.isSome_iff_exists.mp some
  have hit := List.find?_some found
  have eq : y = x := ext (eq_of_beq hit)
  rw [kept, found, eq]
  rfl

end Binary

/-- Whatever the hash, the threshold and the order of the workers' steps at the table, the distinct
elements of a window are found if there is room for a table: those at the indices with another key
than all indices of the window before them, in their order. They depend on nothing but the elements
and their keys, and are all found again among themselves. A floating-point number has its bits for
a key, so both zeros are found, and of the values that are no numbers the first. -/
theorem uniqueBy_firsts {ε : Type} :
    (∀ {α : Type} (w : Window α) (same : α → α → Bool) (hash : α → UInt64) (table : KeyTable),
      Equivalence (fun x y => same x y = true) → (∀ x y, same x y → hash x = hash y) →
      KeyTable.make w.size = .ok table →
      ∃ out : BulkArray α, w.uniqueBy (m := Id) same hash = .ok out ∧
        w.DistinctOf same out.toList ∧
        (∀ (w' : Window α) (hash' : α → UInt64), w'.upTo w'.hi = w.upTo w.hi →
          (∀ x y, same x y → hash' x = hash' y) →
          ∃ out', w'.uniqueBy (m := Id) same hash' = .ok out' ∧ out'.toList = out.toList) ∧
        (∀ hash' : α → UInt64, (∀ x y, same x y → hash' x = hash' y) →
          out.whole.uniqueBy (m := Id) same hash' = .ok out) ∧
        (∃ schedule, ∀ u ∈ ((w.entries hash table).run (w.sameKeyAt same) schedule).users,
          u.isDone) ∧
        ∀ schedule,
          (∀ u ∈ ((w.entries hash table).run (w.sameKeyAt same) schedule).users, u.isDone) →
          let table' := ((w.entries hash table).run (w.sameKeyAt same) schedule).table
          ∀ t, (Selection.build t (fun i => .call i (.ok (w.isFirst same hash table' i)))
              w.lo w.size : Concurrent Nat ε Selection).Always fun asked r =>
            asked.Perm (List.range' w.lo w.size) ∧
              ∃ tree, r = .ok tree ∧ (tree.fetchAll w.get?).toList = out.toList) ∧
    ∀ f, f = BinaryFormat.single ∨ f = BinaryFormat.double →
      (∀ x y : Binary f, UniqueKey.sameKey x y ↔ x.bits = y.bits ∨ (x.isNaN ∧ y.isNaN)) ∧
      ∀ (w : Window (Binary f)) (hash : Binary f → UInt64) (table : KeyTable),
        (∀ x y, UniqueKey.sameKey x y → hash x = hash y) → KeyTable.make w.size = .ok table →
        ∃ out, w.uniqueBy (m := Id) UniqueKey.sameKey hash = .ok out ∧
          (∀ x ∈ w.upTo w.hi, x.isNaN = false →
            out.toList.filter (fun y => y.bits == x.bits) = [x]) ∧
          out.toList.filter Binary.isNaN = ((w.upTo w.hi).find? Binary.isNaN).toList := by
  constructor
  · intro α w same hash table equiv compat made
    refine ⟨_, w.uniqueBy_id equiv compat made, w.distinctOf_firsts equiv, ?_, ?_, ?_, ?_⟩
    · intro w' hash' elems compat'
      have size : w'.size = w.size := by
        rw [← w'.length_upTo, elems, w.length_upTo]
      refine ⟨_, w'.uniqueBy_id equiv compat' (size ▸ made), ?_⟩
      show firsts same (w'.upTo w'.hi) = firsts same (w.upTo w.hi)
      rw [elems]
    · intro hash' compat'
      exact w.uniqueBy_again equiv compat' made
    · exact KeyTable.Shared.Sound.exists_done (w.keyed_range equiv compat)
        (w.sound_entries same hash made)
    · intro schedule done table' t
      have first : w.isFirst same hash table' = w.holdsFirst same :=
        funext fun i => w.isFirst_run equiv compat made done i
      rw [first]
      refine (Concurrent.always_build t _ w.lo w.size).mono fun asked r ends => ?_
      obtain ⟨perm, tree, ok, sized, indices⟩ := ends
      refine ⟨perm, tree, ok, ?_⟩
      rw [sized.fetchAll_eq, indices, w.fetched_firsts equiv]
      rfl
  · intro f format
    have nan : (Binary.canonicalNaN : Binary f).isNaN := by
      rcases format with rfl | rfl
      · decide
      · decide
    have key := Binary.sameKey_iff nan
    refine ⟨key, fun w hash table compat made => ?_⟩
    have equiv : Equivalence fun x y : Binary f => UniqueKey.sameKey x y = true :=
      LawfulElement.equivalence_of_key Binary.canonicalBits
    refine ⟨_, w.uniqueBy_id equiv compat made, ?_, ?_⟩
    · intro x mem number
      exact Binary.filter_bits_firsts nan _ mem number
    · exact Binary.filter_isNaN_firsts nan _

/-- All hashes collide, and each of the workers has one element. Among the numbers are both zeros
and two values that are no numbers. -/
theorem uniqueBy_firsts_collisions :
    (let w : Window Nat := (BulkArray.mk default (some ⟨1, by decide⟩) (.cells #[7, 4, 5, 8])).whole
      let same (x y : Nat) : Bool := x % 3 == y % 3
      ∃ out : BulkArray Nat, w.uniqueBy (m := Id) same (fun _ => 0) = .ok out ∧
        w.DistinctOf same out.toList) ∧
    let numbers : List (Binary .single) :=
      [.ofBits 0xffc00001, .ofBits 0x80000000, .ofBits 0, .ofBits 0x7fc00000]
    let w : Window (Binary .single) := (BulkArray.mk default none (.cells numbers.toArray)).whole
    ∃ out : BulkArray (Binary .single),
      w.uniqueBy (m := Id) UniqueKey.sameKey UniqueKey.hash = .ok out ∧
        out.toList.filter Binary.isNaN = [.ofBits 0xffc00001] := by
  obtain ⟨distinct, numbers⟩ := @uniqueBy_firsts Empty
  constructor
  · intro w same
    have equiv : Equivalence fun x y => same x y = true :=
      LawfulElement.equivalence_of_key (· % 3)
    have made : KeyTable.make 4 = .ok ⟨Array.replicate 8 0⟩ := rfl
    obtain ⟨out, ok, found, -⟩ := distinct w same (fun _ => 0) _ equiv (fun _ _ _ => rfl) made
    exact ⟨out, ok, found⟩
  · intro list w
    have compat (x y : Binary .single) (alike : UniqueKey.sameKey x y) :
        UniqueKey.hash x = UniqueKey.hash y := congrArg hashBytes (LawfulElement.bytes x y alike)
    have made : KeyTable.make 4 = .ok ⟨Array.replicate 8 0⟩ := rfl
    obtain ⟨-, found⟩ := numbers .single (.inl rfl)
    obtain ⟨out, ok, -, nan⟩ := found w UniqueKey.hash _ compat made
    refine ⟨out, ok, nan.trans ?_⟩
    decide

end Bisection
