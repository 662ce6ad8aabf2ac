import Bisection.Proofs.Agreement.Thresholds

/-!
# Results do not depend on who runs a script

A script has a run by many workers, and each such run tells and leaves what the script does when its
steps are run one after the other by a single worker (`Steps.runs_tell`). With this, and since other
thresholds change nothing, the results and the final array are the same for all numbers of workers
and all thresholds (`Steps.results_agree`).
-/

namespace Bisection
set_option autoImplicit false

/-! ## Many workers -/

/-- On the pool of the window itself. -/
theorem Window.Makes.own {α β : Type} {w : Window α}
    {watched : Watch → Window α → Watched (Except Failure (BulkArray β))}
    {runs : Window α → Concurrent α Abort (Except Failure (BulkArray β))}
    {made : Except Abort (Except Failure (BulkArray β))} (makes : w.Makes watched runs made) :
    ∃ r, (∀ o, (watched o w).run'.1 = r) ∧ (Concurrent.tracking w.lo).Same (runs w) r ∧
      ∀ a, r = .ok (.ok a) → a.size ≤ w.size := by
  refine ⟨_, fun o => Watched.run'_of_same (makes.performed w.array.pool w.array.threshold o),
    makes.concurrent w.array.pool w.array.threshold, fun a eq => ?_⟩
  rcases made with e | (e | a')
  · cases eq
  · cases eq
  · cases eq
    exact makes.small a' rfl

/-- A step that makes an array stays in its place. It has a run, and each tells of the array what a
plain computation does, if that is so for the steps on it. -/
theorem Window.Makes.derived {α β : Type} [Element β] {place : Place α}
    {watched : Watch → Window α → Watched (Except Failure (BulkArray β))}
    {runs : Window α → Concurrent α Abort (Except Failure (BulkArray β))}
    {made : Except Abort (Except Failure (BulkArray β))}
    (makes : place.window.Makes watched runs made) (o : Watch)
    {told : BulkArray β → Option (List Told × Option Contents) → Prop}
    {tells : BulkArray β → Option (List Told × Option Contents)}
    (same : ∀ a, (watched o place.window).run'.1 = .ok (.ok a) → a.size ≤ place.array.size →
      (∃ inner, told a inner) ∧ ∀ inner, told a inner → inner = tells a) :
    (∃ all after, after = some place ∧ Told.Derived (runs place.window) told all) ∧
      ∀ all after, after = some place ∧ Told.Derived (runs place.window) told all →
        (all, after) = (Told.made tells (watched o place.window).run'.1, some place) := by
  obtain ⟨r, performed, concurrent, small⟩ := makes.own
  rw [performed] at same ⊢
  have same (a : BulkArray β) (eq : r = .ok (.ok a)) :=
    same a eq (Nat.le_trans (small a eq) place.size_window_le)
  constructor
  · obtain ⟨calls, r', run⟩ := concurrent.1
    cases Concurrent.eq_of_same concurrent run
    refine ⟨_, _, rfl, calls, r, tells, run, fun a eq => ?_, rfl⟩
    obtain ⟨⟨inner, tell⟩, only⟩ := same a eq
    exact only inner tell ▸ tell
  · rintro all after ⟨rfl, calls, r', tells', run, tell, rfl⟩
    cases Concurrent.eq_of_same concurrent run
    rcases r with e | (e | a)
    · rfl
    · rfl
    · have eq : tells' a = tells a := (same a rfl).2 _ (tell a rfl)
      exact congrArg (fun told => ([Told.derived (.ofStore a.store) told], some place)) eq

mutual

/-- A step has a run by many workers, and each tells and leaves what the step does when it is run by
one after the other. -/
theorem Step.runs_tell {α : Type} [Element α] [LawfulElement α] (log : Bool) (s : Step α)
    (lawful : s.Lawful) (place : Place α) (fits : place.array.size ≤ maxSize)
    (determined : s.Determined log place) :
    (∃ told after, s.Runs place told after) ∧
      ∀ told after, s.Runs place told after → (told, after) = s.tells log place := by
  cases s with
  | withThreshold t =>
    cases place with
    | whole a =>
      refine ⟨⟨_, _, rfl, rfl⟩, ?_⟩
      rintro told after ⟨rfl, rfl⟩
      rfl
    | part w =>
      refine ⟨⟨_, _, rfl, rfl⟩, ?_⟩
      rintro told after ⟨rfl, rfl⟩
      rfl
  | bounds lo hi steps =>
    cases window : place.array.window lo hi with
    | error e =>
      rw [Step.tells_bounds_error log place window]
      simp only [Step.Runs, window]
      refine ⟨⟨_, _, rfl, rfl⟩, ?_⟩
      rintro told after ⟨rfl, rfl⟩
      rfl
    | ok w =>
      have same : (Place.part w).array = place.array := BulkArray.array_of_window window
      obtain ⟨⟨inner, left, run⟩, only⟩ :=
        steps.runs_tell log lawful (.part w) (by rwa [same]) (determined w window)
      rw [Step.tells_bounds_ok log place window]
      simp only [Step.Runs, window]
      refine ⟨⟨_, _, inner, left, run, rfl, rfl⟩, ?_⟩
      rintro told after ⟨inner, left, run, rfl, rfl⟩
      rw [← only inner left run]
  | perform op o =>
    obtain ⟨out, settled⟩ := lawful.settled (Place.fits_window fits)
    let r := Operation.on place.window.array.pool place.window.array.threshold <$> out
    have performed : Results Eq Operation.Alike (op.run o place.window).run'.1 r :=
      settled.performed _ _ o .empty
    have concurrent : (Concurrent.tracking place.window.lo).Rel Operation.Alike
        (op.concurrent place.window) r := settled.concurrent _ _ determined
    obtain ⟨⟨calls, r', run⟩, each⟩ := concurrent
    rw [Step.tells_perform, Operation.ended_eq performed]
    refine ⟨⟨_, _, calls, r', run, rfl⟩, ?_⟩
    rintro told after ⟨calls, r', run, ended⟩
    rw [ended, Operation.ended_eq (each calls r' run)]
  | map elem f o sequel =>
    obtain ⟨elements, ⟨g, computes⟩, lawful⟩ := lawful
    rw [Step.tells_map]
    exact (Window.makes_mapped computes).derived o fun a made le =>
      sequel.runs_tell log lawful a (Nat.le_trans le fits) (determined a made)
  | select p o sequel =>
    obtain ⟨⟨g, computes⟩, lawful⟩ := lawful
    rw [Step.tells_select]
    exact (Window.makes_picked computes).derived o fun a made le =>
      sequel.runs_tell log lawful a (Nat.le_trans le fits) (determined a made)
  | unique o sequel =>
    rw [Step.tells_unique]
    exact Window.makes_distinct.derived o fun a made le =>
      sequel.runs_tell log lawful a (Nat.le_trans le fits) (determined a made)
termination_by sizeOf s
decreasing_by all_goals subst_vars; simp +arith

/-- Steps have a run by many workers, and each tells and leaves what the steps do when they are run
by one after the other. -/
theorem Steps.runs_tell {α : Type} [Element α] [LawfulElement α] (log : Bool) (steps : Steps α)
    (lawful : steps.Lawful) (place : Place α) (fits : place.array.size ≤ maxSize)
    (determined : steps.Determined log place) :
    (∃ told after, steps.Runs place told after) ∧
      ∀ told after, steps.Runs place told after → (told, after) = steps.tells log place := by
  cases steps with
  | nil =>
    refine ⟨⟨_, _, rfl, rfl⟩, ?_⟩
    rintro told after ⟨rfl, rfl⟩
    rfl
  | cons first rest =>
    obtain ⟨lawful, lawful'⟩ := lawful
    obtain ⟨determined, later⟩ := determined
    obtain ⟨⟨now, next, run⟩, only⟩ := first.runs_tell log lawful place fits determined
    have smaller := first.size_run_le log place fits
    rw [Steps.tells_cons]
    cases told : first.tells log place with | mk now' next'
    rw [told] at only smaller later
    cases only now next run
    cases next with
    | none =>
      refine ⟨⟨now, none, now, none, run, rfl, rfl⟩, ?_⟩
      rintro told after ⟨now', next, run', ends⟩
      cases only now' next run'
      obtain ⟨rfl, rfl⟩ := ends
      rfl
    | some next =>
      obtain ⟨⟨rest_told, after, run'⟩, only'⟩ := rest.runs_tell log lawful' next
        (Nat.le_trans (smaller next rfl) fits) (later next rfl)
      refine ⟨⟨_, after, now, some next, run, rest_told, run', rfl⟩, ?_⟩
      rintro told after ⟨now', next', first', ends⟩
      cases only now' next' first'
      obtain ⟨rest_told, run', rfl⟩ := ends
      show _ = (now ++ (rest.tells log next).1, (rest.tells log next).2)
      rw [← only' rest_told after run']
termination_by sizeOf steps
decreasing_by all_goals subst_vars; simp +arith

/-- The steps on a new array have a run by many workers, and each tells what they do when they are
run by one after the other. -/
theorem Sequel.runs_tell {α : Type} [Element α] [LawfulElement α] (log : Bool)
    (sequel : Sequel α) (lawful : sequel.Lawful) (a : BulkArray α) (fits : a.size ≤ maxSize)
    (determined : sequel.Determined log a) :
    (∃ told, sequel.Runs a told) ∧ ∀ told, sequel.Runs a told → told = sequel.tells log a := by
  cases sequel with
  | absent => exact ⟨⟨none, rfl⟩, fun told none => none⟩
  | steps steps =>
    obtain ⟨⟨inner, after, run⟩, only⟩ := steps.runs_tell log lawful (.whole a) fits determined
    refine ⟨⟨_, inner, after, run, rfl⟩, ?_⟩
    rintro told ⟨inner, after, run, rfl⟩
    have told := only inner after run
    exact congrArg (fun p : List Told × Option (Place α) =>
      some (p.1, p.2.map fun p => Contents.ofStore p.array.store)) told
termination_by sizeOf sequel
decreasing_by all_goals subst_vars; simp +arith

end

/-! ## All workers and thresholds -/

/-- Steps come to certain results and a final array, unless its contents are lost: they do so when
run by one worker after the other, and many workers have a run and do so in each. -/
structure Steps.ComesTo {α : Type} [Element α] (log : Bool) (steps : Steps α) (place : Place α)
    (told : List Told) (final : Option (Store α)) : Prop where
  performed : (steps.tells log place).1 = told ∧
    (steps.tells log place).2.map (fun p => p.array.store) = final
  possible : ∃ told after, steps.Runs place told after
  concurrent : ∀ told' after, steps.Runs place told' after →
    told' = told ∧ after.map (fun p => p.array.store) = final

theorem Steps.comes_to {α : Type} [Element α] [LawfulElement α] (log : Bool) (steps : Steps α)
    (lawful : steps.Lawful) (place : Place α) (fits : place.array.size ≤ maxSize)
    (determined : steps.Determined log place) :
    steps.ComesTo log place (steps.tells log place).1
      ((steps.tells log place).2.map fun p => p.array.store) := by
  obtain ⟨possible, only⟩ := steps.runs_tell log lawful place fits determined
  refine ⟨⟨rfl, rfl⟩, possible, fun told' after run => ?_⟩
  rw [← only told' after run]
  exact ⟨rfl, rfl⟩

/-- Lawful steps that search for no more than is determined come to the same results and the same
final array for any two numbers of workers and any thresholds, whether set for the array, left to
the pool or set along the way. -/
theorem Steps.results_agree {α : Type} [Element α] [LawfulElement α] (log : Bool)
    {steps steps' : Steps α} (twin : steps.Twin steps') (lawful : steps.Lawful) (s : Store α)
    (fits : s.size ≤ maxSize) (pool pool' : Pool) (t t' : Option Threshold)
    (determined : steps.Determined log (.whole ⟨pool, t, s⟩))
    (determined' : steps'.Determined log (.whole ⟨pool', t', s⟩)) :
    ∃ told final, steps.ComesTo log (.whole ⟨pool, t, s⟩) told final ∧
      steps'.ComesTo log (.whole ⟨pool', t', s⟩) told final := by
  obtain ⟨told, left⟩ := twin.tells log lawful (.whole ⟨pool, t, s⟩) pool' t' fits
  have final := Place.store_eq (f := fun s => s) left
  refine ⟨_, _, steps.comes_to log lawful _ fits determined, ?_⟩
  rw [told, final]
  exact steps'.comes_to log (twin.lawful lawful) _ fits determined'

/-- One worker, and four that cut everything in pieces of one element: the truth is found, whether
something in a window is true is told, and the opposites are sorted. -/
theorem Steps.results_agree_flags :
    let o : Watch := ⟨false, false⟩
    let s : Store Bool := .cells #[false, true, false]
    let sorts : Steps Bool := .cons (.perform .sort o) .nil
    let asks : Steps Bool := .cons (.perform (.reduce false (Callback.ofFun₂ or)) o) .nil
    let steps : Steps Bool := .ofList
      [.perform (.anyIndex (Callback.ofFun id)) o, .bounds 0 2 asks,
        .map inferInstance (Callback.ofFun not) o (.steps sorts)]
    let finer : Steps Bool := .cons (.withThreshold ⟨1, Nat.one_pos⟩) steps
    ∃ told final, steps.ComesTo false (.whole ⟨.single, none, s⟩) told final ∧
      finer.ComesTo false (.whole ⟨⟨4, by decide⟩, some ⟨7, by decide⟩, s⟩) told final := by
  intro o s sorts asks steps finer
  have same : sorts.Twin sorts := .cons (.perform _ _) .nil
  have twin : steps.Twin finer := by
    refine .right _ (.cons (.perform _ _) (.cons (.bounds 0 2 ?_) (.cons (.map _ _ _ ?_) .nil)))
    · exact .cons (.perform _ _) .nil
    · exact .steps same
  have lawful : steps.Lawful := by
    have sort : ∀ x y : Bool, compare x y = .eq → x = y := by decide
    exact ⟨⟨id, fun _ => rfl⟩, ⟨⟨or, fun _ _ => rfl, ⟨Bool.or_assoc⟩⟩, trivial⟩,
      ⟨inferInstance, ⟨not, fun _ => rfl⟩, sort, trivial⟩, trivial⟩
  have alone : steps.Determined false (.whole ⟨.single, none, s⟩) :=
    ⟨.inl rfl, fun _ _ => ⟨fun _ _ => ⟨trivial, fun _ _ => trivial⟩,
      fun _ _ => ⟨fun _ _ => ⟨trivial, fun _ _ => trivial⟩, fun _ _ => trivial⟩⟩⟩
  have one : (BulkArray.whole ⟨⟨4, by decide⟩, some ⟨1, by decide⟩, s⟩).OneMatch
      (Callback.ofFun id) := by
    have only : ∀ i ∈ List.range' 0 3, s.get? i = some true → i = 1 := by decide
    have found {i : Nat} (found : (s.get? i).map (Callback.ofFun id) = some (.ok true)) :
        s.get? i = some true := by
      obtain ⟨x, eq, ok⟩ := Option.map_eq_some_iff.mp found
      cases ok
      exact eq
    intro i inside j inside' found_i found_j
    rw [only i inside (found found_i), only j inside' (found found_j)]
  have together :
      finer.Determined false (.whole ⟨⟨4, by decide⟩, some ⟨7, by decide⟩, s⟩) := by
    refine ⟨trivial, ?_⟩
    rintro _ ⟨⟩
    exact ⟨.inr one, fun _ _ => ⟨fun _ _ => ⟨trivial, fun _ _ => trivial⟩,
      fun _ _ => ⟨fun _ _ => ⟨trivial, fun _ _ => trivial⟩, fun _ _ => trivial⟩⟩⟩
  exact results_agree false twin lawful s (by decide) _ _ _ _ alone together

end Bisection
