import Bisection.Proofs.Agreement.Telling

/-!
# Scripts under other thresholds

Two scripts that differ only in the thresholds they set, run on the same elements by pools of any
sizes: by induction over both, step by step, they tell the same and leave the same elements. A step
that sets a threshold tells nothing, and moves its place to one that is alike.
-/

namespace Bisection
set_option autoImplicit false

mutual

/-- The same step, but for the thresholds that are set in it. -/
inductive Step.Twin : {α : Type} → Step α → Step α → Prop where
  | bounds {α : Type} {steps steps' : Steps α} (lo hi : Nat) (inner : Steps.Twin steps steps') :
    Step.Twin (.bounds lo hi steps) (.bounds lo hi steps')
  | perform {α : Type} (op : Operation α) (o : Watch) : Step.Twin (.perform op o) (.perform op o)
  | map {α β : Type} {sequel sequel' : Sequel β} (elem : Element β) (f : α → Except Abort β)
    (o : Watch) (after : Sequel.Twin sequel sequel') :
    Step.Twin (.map elem f o sequel) (.map elem f o sequel')
  | select {α : Type} {sequel sequel' : Sequel α} (p : α → Except Abort Bool) (o : Watch)
    (after : Sequel.Twin sequel sequel') : Step.Twin (.select p o sequel) (.select p o sequel')
  | unique {α : Type} {sequel sequel' : Sequel α} (o : Watch)
    (after : Sequel.Twin sequel sequel') : Step.Twin (.unique o sequel) (.unique o sequel')

/-- The same steps, but for those that set a threshold. -/
inductive Steps.Twin : {α : Type} → Steps α → Steps α → Prop where
  | nil {α : Type} : Steps.Twin (.nil : Steps α) .nil
  | cons {α : Type} {first first' : Step α} {rest rest' : Steps α} (here : Step.Twin first first')
    (later : Steps.Twin rest rest') : Steps.Twin (.cons first rest) (.cons first' rest')
  | left {α : Type} {steps steps' : Steps α} (t : Threshold) (later : Steps.Twin steps steps') :
    Steps.Twin (.cons (.withThreshold t) steps) steps'
  | right {α : Type} {steps steps' : Steps α} (t : Threshold) (later : Steps.Twin steps steps') :
    Steps.Twin steps (.cons (.withThreshold t) steps')

/-- The same steps on a new array, but for the thresholds. -/
inductive Sequel.Twin : {α : Type} → Sequel α → Sequel α → Prop where
  | absent {α : Type} : Sequel.Twin (.absent : Sequel α) .absent
  | steps {α : Type} {steps steps' : Steps α} (inner : Steps.Twin steps steps') :
    Sequel.Twin (.steps steps) (.steps steps')

end

/-- What is told of a new array and of the steps on it does not depend on the pool and the threshold
of the array if that is so for the steps. -/
theorem Told.made_on {β : Type} [Element β] {n : Nat}
    {tells tells' : BulkArray β → Option (List Told × Option Contents)}
    (same : ∀ a pool t, a.size ≤ n → tells a = tells' (a.on pool t))
    {made : Except Abort (Except Failure (BulkArray β))}
    (small : ∀ a, made = .ok (.ok a) → a.size ≤ n) (pool pool' : Pool) (t t' : Option Threshold) :
    Told.made tells (BulkArray.madeOn pool t <$> made) =
      Told.made tells' (BulkArray.madeOn pool' t' <$> made) := by
  rcases made with e | (e | a)
  · rfl
  · rfl
  · have told := same (a.on pool t) pool' t' (small a rfl)
    exact congrArg (fun told => [derived (.ofStore a.store) told]) told

/-- A new array and the steps on it. -/
theorem Window.Makes.same_made {α β : Type} [Element β] {place : Place α}
    {watched : Watch → Window α → Watched (Except Failure (BulkArray β))}
    {runs : Window α → Concurrent α Abort (Except Failure (BulkArray β))}
    {made : Except Abort (Except Failure (BulkArray β))}
    (makes : place.window.Makes watched runs made)
    {tells tells' : BulkArray β → Option (List Told × Option Contents)}
    (same : ∀ a pool t, a.size ≤ place.array.size → tells a = tells' (a.on pool t))
    (pool : Pool) (t : Option Threshold) (o : Watch) :
    Told.Same (Told.made tells (watched o place.window).run'.1, some place)
      (Told.made tells' (watched o (place.on pool t).window).run'.1, some (place.on pool t)) := by
  have ended (pool : Pool) (t : Option Threshold) :
      (watched o (place.on pool t).window).run'.1 = BulkArray.madeOn pool t <$> made := by
    rw [place.window_on]
    exact Watched.run'_of_same (makes.performed pool t o)
  have here := ended place.array.pool place.array.threshold
  rw [place.on_self] at here
  refine ⟨?_, .some ⟨pool, t, rfl⟩⟩
  rw [here, ended]
  exact Told.made_on same (fun a eq => Nat.le_trans (makes.small a eq) place.size_window_le) _ _ _ _

mutual

theorem Step.Twin.lawful {α : Type} [Element α] {s s' : Step α} (twin : s.Twin s')
    (lawful : s.Lawful) : s'.Lawful := by
  cases twin with
  | bounds lo hi inner => exact inner.lawful lawful
  | perform op o => exact lawful
  | map elem f o after => exact ⟨lawful.1, lawful.2.1, after.lawful lawful.2.2⟩
  | select p o after => exact ⟨lawful.1, after.lawful lawful.2⟩
  | unique o after => exact after.lawful lawful
termination_by sizeOf s + sizeOf s'
decreasing_by all_goals subst_vars; simp +arith

theorem Steps.Twin.lawful {α : Type} [Element α] {steps steps' : Steps α}
    (twin : steps.Twin steps') (lawful : steps.Lawful) : steps'.Lawful := by
  cases twin with
  | nil => exact lawful
  | cons here later => exact ⟨here.lawful lawful.1, later.lawful lawful.2⟩
  | left t later => exact later.lawful lawful.2
  | right t later => exact ⟨trivial, later.lawful lawful⟩
termination_by sizeOf steps + sizeOf steps'
decreasing_by all_goals subst_vars; simp +arith

theorem Sequel.Twin.lawful {α : Type} [Element α] {sequel sequel' : Sequel α}
    (twin : sequel.Twin sequel') (lawful : sequel.Lawful) : sequel'.Lawful := by
  cases twin with
  | absent => exact lawful
  | steps inner => exact inner.lawful lawful
termination_by sizeOf sequel + sizeOf sequel'
decreasing_by all_goals subst_vars; simp +arith

end

mutual

/-- A step tells the same whatever the pool and the thresholds are. -/
theorem Step.Twin.tells {α : Type} [Element α] [LawfulElement α] (log : Bool) {s s' : Step α}
    (twin : s.Twin s') (lawful : s.Lawful) (place : Place α) (pool : Pool) (t : Option Threshold)
    (fits : place.array.size ≤ maxSize) :
    Told.Same (s.tells log place) (s'.tells log (place.on pool t)) := by
  cases twin with
  | bounds lo hi inner =>
    have moved : (place.on pool t).array.window lo hi =
        (place.array.window lo hi).map (·.on pool t) := by
      rw [place.array_on, BulkArray.window_on]
    cases window : place.array.window lo hi with
    | error e =>
      rw [window] at moved
      rw [Step.tells_bounds_error log place window, Step.tells_bounds_error log _ moved]
      exact ⟨rfl, .some ⟨pool, t, rfl⟩⟩
    | ok w =>
      rw [window] at moved
      have same : (Place.part w).array = place.array := BulkArray.array_of_window window
      obtain ⟨told, left⟩ := inner.tells log lawful (.part w) pool t (by rwa [same])
      rw [Step.tells_bounds_ok log place window, Step.tells_bounds_ok log _ moved]
      exact ⟨congrArg₂ (fun told whole => [Told.bounded told whole]) told (Place.store_eq left),
        place.rel_left left⟩
  | perform op o =>
    obtain ⟨out, settled⟩ := lawful.settled (Place.fits_window fits)
    have performed (pool : Pool) (t : Option Threshold) : Results Eq Operation.Alike
        (op.run o (place.window.on pool t)).run'.1 (Operation.on pool t <$> out) :=
      settled.performed pool t o .empty
    have here := performed place.array.pool place.array.threshold
    have there := performed pool t
    rw [← place.window_on] at here there
    rw [place.on_self] at here
    rw [Step.tells_perform, Step.tells_perform, Operation.ended_eq here, Operation.ended_eq there]
    exact op.ended_on place pool t out
  | map elem f o after =>
    obtain ⟨elements, ⟨g, computes⟩, lawful⟩ := lawful
    rw [Step.tells_map, Step.tells_map]
    exact (Window.makes_mapped computes).same_made
      (fun a pool t le => after.tells log lawful a pool t (Nat.le_trans le fits)) pool t o
  | select p o after =>
    obtain ⟨⟨g, computes⟩, lawful⟩ := lawful
    rw [Step.tells_select, Step.tells_select]
    exact (Window.makes_picked computes).same_made
      (fun a pool t le => after.tells log lawful a pool t (Nat.le_trans le fits)) pool t o
  | unique o after =>
    rw [Step.tells_unique, Step.tells_unique]
    exact Window.makes_distinct.same_made
      (fun a pool t le => after.tells log lawful a pool t (Nat.le_trans le fits)) pool t o
termination_by sizeOf s + sizeOf s'
decreasing_by all_goals subst_vars; simp +arith

/-- Steps tell the same whatever the pool and the thresholds are. -/
theorem Steps.Twin.tells {α : Type} [Element α] [LawfulElement α] (log : Bool)
    {steps steps' : Steps α} (twin : steps.Twin steps') (lawful : steps.Lawful) (place : Place α)
    (pool : Pool) (t : Option Threshold) (fits : place.array.size ≤ maxSize) :
    Told.Same (steps.tells log place) (steps'.tells log (place.on pool t)) := by
  cases twin with
  | nil => exact ⟨rfl, .some ⟨pool, t, rfl⟩⟩
  | @cons _ first first' rest rest' here later =>
    obtain ⟨lawful, lawful'⟩ := lawful
    have same := here.tells log lawful place pool t fits
    have smaller := first.size_run_le log place fits
    rw [Steps.tells_cons, Steps.tells_cons]
    cases told : first.tells log place with | mk now next
    cases told' : first'.tells log (place.on pool t) with | mk now' next'
    rw [told, told'] at same
    rw [told] at smaller
    obtain ⟨first, left⟩ := same
    cases left with
    | none => exact ⟨first, .none⟩
    | some alike =>
      obtain ⟨pool', t', rfl⟩ := alike
      exact .append first (later.tells log lawful' _ pool' t' (Nat.le_trans (smaller _ rfl) fits))
  | left t₁ later =>
    obtain ⟨t₂, told⟩ := Step.tells_withThreshold log place t₁
    have same := later.tells log lawful.2 (place.on place.array.pool t₂) pool t
      (by rwa [place.array_on])
    rw [place.on_on] at same
    rw [Steps.tells_cons, told]
    exact same
  | right t₁ later =>
    obtain ⟨t₂, told⟩ := Step.tells_withThreshold log (place.on pool t) t₁
    rw [Steps.tells_cons, told, place.on_on]
    exact later.tells log lawful place _ t₂ fits
termination_by sizeOf steps + sizeOf steps'
decreasing_by all_goals subst_vars; simp +arith

/-- The steps on a new array tell the same whatever its pool and the thresholds are. -/
theorem Sequel.Twin.tells {α : Type} [Element α] [LawfulElement α] (log : Bool)
    {sequel sequel' : Sequel α} (twin : sequel.Twin sequel') (lawful : sequel.Lawful)
    (a : BulkArray α) (pool : Pool) (t : Option Threshold) (fits : a.size ≤ maxSize) :
    sequel.tells log a = sequel'.tells log (a.on pool t) := by
  cases twin with
  | absent => rfl
  | steps inner =>
    obtain ⟨told, left⟩ := inner.tells log lawful (.whole a) pool t fits
    exact congrArg₂ (fun told left => some (told, left)) told (Place.store_eq left)
termination_by sizeOf sequel + sizeOf sequel'
decreasing_by all_goals subst_vars; simp +arith

end

end Bisection
