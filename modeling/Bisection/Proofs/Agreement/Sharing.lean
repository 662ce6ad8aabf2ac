import Bisection.Proofs.Agreement.Endings
import Bisection.Proofs.Agreement.Runs
import Bisection.Proofs.Window.Folds

/-!
# What many workers come to

Workers that share a cell, the memory of a scan or a table come to the same as a plain computation,
in all orders of their steps: a search tells whether there is a match, and finds the only one; a
scan by an associative operator leaves the running totals; a table finds the lowest index of each
key.
-/

namespace Bisection
set_option autoImplicit false

/-! ## Searches -/

namespace Hunt
variable {pool : Pool} {t : Threshold} {accepts : Nat → Bool} {lo n : Nat} {found : Option Nat}

theorem exists_ends (pool : Pool) (t : Threshold) (accepts : Nat → Bool) (lo hi : Nat) :
    ∃ found, Ends pool t accepts lo hi found := by
  by_cases alone : pool.workers = 1
  · exact ⟨_, by rw [Ends, if_pos alone]⟩
  · obtain ⟨n, run⟩ := Reaches.of_searchRange t accepts .empty [] lo hi
    exact ⟨_, by rw [Ends, if_neg alone]; exact ⟨n, _, run, rfl, rfl⟩⟩

/-- A search ends with a match, if there is one. -/
theorem Ends.spec (ends : Ends pool t accepts lo (lo + n) found) (small : lo + n ≤ maxSize) :
    (found = none ↔ ∀ i ∈ List.range' lo n, accepts i = false) ∧
      (∀ i, found = some i → i ∈ List.range' lo n ∧ accepts i) ∧
      (pool.workers = 1 → found = (List.range' lo n).find? accepts) := by
  rw [Ends] at ends
  by_cases alone : pool.workers = 1
  · rw [if_pos alone, findAny_eq_find? t accepts small] at ends
    subst ends
    refine ⟨?_, fun i first => ?_, fun _ => rfl⟩
    · simp only [List.find?_eq_none, Bool.not_eq_true]
    · exact ⟨List.mem_of_find?_eq_some first, List.find?_some first⟩
  · rw [if_neg alone] at ends
    obtain ⟨k, now, run, done, rfl⟩ := ends
    have sound := (run.sound small (sound_start lo (lo + n))).1
    refine ⟨?_, fun i got => ?_, fun single => absurd single alone⟩
    · simp only [sound.get_eq_none_iff done, List.mem_range'_1, and_imp]
    · obtain ⟨above, below, hit⟩ := sound.of_get_eq_some small got
      exact ⟨List.mem_range'_1.mpr ⟨above, below⟩, hit⟩

theorem Ends.isSome_eq (ends : Ends pool t accepts lo (lo + n) found) (small : lo + n ≤ maxSize) :
    found.isSome = ((List.range' lo n).find? accepts).isSome := by
  have none_iff := (ends.spec small).1
  cases found with
  | none =>
    have none : (List.range' lo n).find? accepts = none :=
      List.find?_eq_none.mpr fun i mem => by simp [none_iff.mp rfl i mem]
    rw [none]
  | some i =>
    obtain ⟨mem, hit⟩ := (ends.spec small).2.1 i rfl
    exact (List.find?_isSome.mpr ⟨i, mem, hit⟩).symm

/-- A single worker finds the first match, and any number of workers the only one. -/
theorem Ends.eq_find? (ends : Ends pool t accepts lo (lo + n) found) (small : lo + n ≤ maxSize)
    (determined : pool.workers = 1 ∨ ∀ i ∈ List.range' lo n, ∀ j ∈ List.range' lo n,
      accepts i → accepts j → i = j) :
    found = (List.range' lo n).find? accepts := by
  rcases determined with alone | one
  · exact (ends.spec small).2.2 alone
  · have isSome := ends.isSome_eq small
    cases first : (List.range' lo n).find? accepts with
    | none => simpa [first] using isSome
    | some j =>
      rw [first, Option.isSome_some, Option.isSome_iff_exists] at isSome
      obtain ⟨i, rfl⟩ := isSome
      obtain ⟨mem, hit⟩ := (ends.spec small).2.1 i rfl
      exact congrArg some
        (one i mem j (List.mem_of_find?_eq_some first) hit (List.find?_some first))

end Hunt

/-! ## Scans -/

namespace Scan
variable {α : Type} {t : Threshold} {op : α → α → α} {mode : Mode} {base : α} {elems : Store α}

theorem exists_ends (t : Threshold) (op : α → α → α) (mode : Mode) (base : α) (elems : Store α) :
    ∃ left, EndsWith t op mode base elems left := by
  by_cases empty : elems.size = 0
  · exact ⟨_, by rw [EndsWith, dif_pos empty]⟩
  · let J : Job α := ⟨t, op, mode, base, elems, Nat.pos_of_ne_zero empty⟩
    obtain ⟨n, run, -⟩ :=
      Machine.exists_reaches_run J.plan (Machine.stepBound J.nodes.size) J.start
    exact ⟨_, by rw [EndsWith, dif_neg empty]; exact ⟨n, _, run, Machine.tasks_run J, rfl⟩⟩

/-- A scan by an associative operator leaves the running totals and the total of all. -/
theorem EndsWith.spec {left : Store α × α} (ends : EndsWith t op mode base elems left)
    (assoc : Std.Associative op) :
    left.1.toArray = (Reference.running op mode base elems.toList).toArray ∧
      left.2 = elems.toList.foldl op base := by
  rw [EndsWith] at ends
  by_cases empty : elems.size = 0
  · rw [dif_pos empty] at ends
    have nil : elems.toList = [] := List.eq_nil_of_length_eq_zero (by rwa [Store.length_toList])
    rw [ends, nil]
    refine ⟨?_, rfl⟩
    apply Array.toList_inj.mp
    rw [Store.toList_toArray, nil]
    cases mode <;> rfl
  · rw [dif_neg empty] at ends
    obtain ⟨n, m, run, tasks, rfl⟩ := ends
    let J : Job α := ⟨t, op, mode, base, elems, Nat.pos_of_ne_zero empty⟩
    obtain ⟨L, accounts, -⟩ := run.accounts (.start J)
    obtain ⟨-, final, total⟩ := accounts.result tasks
    have total : (m.memory.total? 0).getD base = Reference.edgeTotal t op base elems.toList := by
      rw [show (m.memory.total? 0).getD base = _ from congrArg (·.getD base) total, J.total_root]
      rfl
    refine ⟨?_, total.trans (edgeTotal_eq_foldl assoc t base _)⟩
    apply Array.toList_inj.mp
    rw [Store.toList_toArray]
    exact final.trans (result_eq_running assoc t mode base _)

end Scan

/-! ## Computations of many workers -/

namespace Concurrent
variable {ι ε α β γ : Type} {d : Nat}

theorem rel_oneOf {R : β → γ → Prop} {possible : β → Prop} {c : γ} (some : ∃ b, possible b)
    (each : ∀ b, possible b → R b c) :
    (total d : Tracking d (Concurrent ι ε) Id).Rel R (oneOf possible) c := by
  obtain ⟨b, hb⟩ := some
  refine ⟨⟨[], .ok b, rfl, b, hb, rfl⟩, ?_⟩
  rintro calls r ⟨-, b, hb, rfl⟩
  exact .ok (each b hb)

/-- A callback that never gives up computes one plain function. -/
theorem oneOf_computes {f : α → Except Abort β} {g : α → β} (computes : Callback.Computes f g) :
    oneOf (Callback.Computes f) = (pure g : Concurrent ι ε (α → β)) := by
  have only (g' : α → β) (computes' : Callback.Computes f g') : g' = g :=
    funext fun x => Except.ok.inj ((computes' x).symm.trans (computes x))
  refine ext fun calls r => and_congr_right fun _ => ⟨?_, fun eq => ⟨g, computes, eq⟩⟩
  rintro ⟨g', computes', rfl⟩
  rw [only g' computes']

theorem oneOf_computes₂ {f : α → β → Except Abort γ} {g : α → β → γ}
    (computes : Callback.Computes₂ f g) :
    oneOf (Callback.Computes₂ f) = (pure g : Concurrent ι ε (α → β → γ)) := by
  have only (g' : α → β → γ) (computes' : Callback.Computes₂ f g') : g' = g :=
    funext₂ fun x y => Except.ok.inj ((computes' x y).symm.trans (computes x y))
  refine ext fun calls r => and_congr_right fun _ => ⟨?_, fun eq => ⟨g, computes, eq⟩⟩
  rintro ⟨g', computes', rfl⟩
  rw [only g' computes']

/-- The calls of a computation are those that a plain loop gathers, in some order. -/
theorem rel_gathered {x : Concurrent ι ε Unit} {y : StateM (Array ι) Unit}
    (rel : (gathering d).Rel Eq x y) :
    (total d : Tracking d (Concurrent ι ε) Id).Rel (fun calls ys => calls.toList.Perm ys.toList)
      (gathered x) (y.run #[]).2 := by
  obtain ⟨⟨calls, r, run⟩, each⟩ := rel
  refine ⟨⟨calls, _, r, run, rfl⟩, ?_⟩
  rintro calls _ ⟨r, run, rfl⟩
  obtain ⟨_, rfl, gathered⟩ := each calls r run
  exact .ok (gathered #[]).2.symm

theorem same_ends {r : Except ε β} {b : β} (ends : r = .ok b) :
    (total d : Tracking d (Concurrent ι ε) Id).Same (.ends r) b := by
  subst ends
  exact (total d).pure rfl

end Concurrent

namespace Window
variable {ι α : Type} {w : Window α}

section
variable {p : α → Except Abort Bool} {g : α → Bool} (computes : Callback.Computes p g)
  (fits : w.hi ≤ maxSize)
include computes fits

/-- Whether there is a match does not depend on who searches. -/
theorem rel_hunt : (Concurrent.total w.lo).Rel (fun i j => i.isSome = j.isSome)
    (w.hunt p : Concurrent ι Abort _) (w.lowest g) := by
  rw [hunt, Concurrent.oneOf_computes computes, pure_bind]
  refine Concurrent.rel_oneOf (Hunt.exists_ends ..) fun found ends => ?_
  rw [← w.lo_add_size] at ends fits
  exact ends.isSome_eq fits

/-- The index of the match, if there is one at most or one worker only. -/
theorem same_hunt (determined : w.array.pool.workers = 1 ∨
    ∀ i ∈ List.range' w.lo w.size, ∀ j ∈ List.range' w.lo w.size,
      (w.get? i).any g → (w.get? j).any g → i = j) :
    (Concurrent.total w.lo).Same (w.hunt p : Concurrent ι Abort _) (w.lowest g) := by
  rw [hunt, Concurrent.oneOf_computes computes, pure_bind]
  refine Concurrent.rel_oneOf (Hunt.exists_ends ..) fun found ends => ?_
  rw [← w.lo_add_size] at ends fits
  exact ends.eq_find? fits determined

end

theorem same_checkOrder {cmp : α → α → Except Abort Ordering} {g : α → α → Ordering}
    (computes : Callback.Computes₂ cmp g) (fits : w.hi ≤ maxSize) :
    (Concurrent.total w.lo).Same (w.checkOrder cmp : Concurrent ι Abort _) (w.ascending g) := by
  rw [checkOrder, ascending]
  by_cases few : w.size < 2
  · rw [if_pos few, decide_eq_true few]
    exact (Concurrent.total w.lo).pure rfl
  · have hi : w.hi = w.lo + 1 + (w.size - 1) := by
      have := w.lo_add_size
      omega
    rw [if_neg few, decide_eq_false few, Bool.false_or, Concurrent.oneOf_computes₂ computes,
      pure_bind]
    have found : (Concurrent.total w.lo).Rel (fun i j => i.isSome = j.isSome)
        (.oneOf (Hunt.Ends w.array.pool (w.array.leafThreshold (w.size - 1)) (w.descends g)
          (w.lo + 1) w.hi) : Concurrent ι Abort _)
        ((List.range' (w.lo + 1) (w.size - 1)).find? (w.descends g)) := by
      refine Concurrent.rel_oneOf (Hunt.exists_ends ..) fun found ends => ?_
      rw [hi] at ends fits
      exact ends.isSome_eq fits
    exact found.map (g := Option.isNone) fun i j isSome => by
      rw [← Option.not_isSome, isSome, Option.not_isSome]

theorem same_runTotals {op : α → α → Except Abort α} {g : α → α → α}
    (computes : Callback.Computes₂ op g) (assoc : Std.Associative g) (mode : Scan.Mode) (base : α) :
    (Concurrent.total w.lo).Same (w.runTotals mode base op : Concurrent ι Abort _)
      (w.refill (Scan.Reference.running g mode base (w.upTo w.hi)).toArray,
        (w.upTo w.hi).foldl g base) := by
  rw [runTotals, Concurrent.oneOf_computes₂ computes, pure_bind, ← toList_part]
  have left : (Concurrent.total w.lo).Rel
      (fun (s : Store α × α) (r : Array α × α) => s.1.toArray = r.1 ∧ s.2 = r.2)
      (.oneOf (Scan.EndsWith (w.array.leafThreshold w.size) g mode base w.part) :
        Concurrent ι Abort _)
      ((Scan.Reference.running g mode base w.part.toList).toArray, w.part.toList.foldl g base) :=
    Concurrent.rel_oneOf (Scan.exists_ends ..) fun left ends => ends.spec assoc
  exact (Concurrent.total w.lo).bind (g := fun r => pure (w.refill r.1, r.2)) left
    fun s r ⟨elems, total⟩ => (Concurrent.total w.lo).pure (by rw [elems, total])

theorem same_distinct [UniqueKey α]
    (equiv : Equivalence fun x y : α => UniqueKey.sameKey x y = true)
    (compat : ∀ x y : α, UniqueKey.sameKey x y → UniqueKey.hash x = UniqueKey.hash y) :
    (Concurrent.total w.lo).Same (w.distinct : Concurrent ι Abort _)
      ((KeyTable.make w.size).map fun _ => w.array.derive
        (((List.range' w.lo w.size).filter (w.holdsFirst UniqueKey.sameKey)).filterMap
          w.get?).toArray) := by
  rw [distinct]
  cases made : KeyTable.make w.size with
  | error e => exact (Concurrent.total w.lo).pure rfl
  | ok table =>
    dsimp only
    have sound := w.sound_entries UniqueKey.sameKey UniqueKey.hash made
    obtain ⟨schedule, done⟩ := sound.exists_done (w.keyed_range equiv compat)
    have entered : (Concurrent.total w.lo).Rel
        (fun table' _ => ∀ i, w.isFirst UniqueKey.sameKey UniqueKey.hash table' i =
          w.holdsFirst UniqueKey.sameKey i)
        (.oneOf (w.Enters UniqueKey.sameKey UniqueKey.hash table) : Concurrent ι Abort _) () := by
      refine Concurrent.rel_oneOf ⟨_, schedule, done, rfl⟩ ?_
      rintro _ ⟨schedule, done, rfl⟩ i
      exact w.isFirst_run equiv compat made done i
    refine (Concurrent.total w.lo).bind (γ := Unit) (g := fun _ => Except.ok _) entered
      fun table' _ first => ?_
    rw [funext first]
    exact same_derived _ (w.holdsFirst UniqueKey.sameKey)

end Window

end Bisection
