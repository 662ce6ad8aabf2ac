import Bisection.Proofs.Agreement.Operations
import Bisection.Proofs.Alone.Scripts
import Mathlib.Data.Multiset.Basic

/-!
# What steps tell

Each step tells what its operation, or the making of its new array, comes to, and what the steps in
it tell. A place of an array tells the same whatever the pool and the threshold of the array are. No
step makes an array longer, so the elements stay as few as indices allow for.
-/

namespace Bisection
set_option autoImplicit false

/-! ## The same contents -/

namespace Place
variable {α : Type}

/-- The same place of an array on another pool, with another threshold. -/
def on (place : Place α) (pool : Pool) (t : Option Threshold) : Place α :=
  match place with
  | whole a => whole (a.on pool t)
  | part w => part (w.on pool t)

/-- The same contents, on any pool and with any threshold. -/
def Alike (place place' : Place α) : Prop := ∃ pool t, place' = place.on pool t

variable (place : Place α) (pool : Pool) (t : Option Threshold)

/-- The pool and the threshold of a place are those of its window. -/
theorem window_on : (place.on pool t).window = place.window.on pool t := by cases place <;> rfl

theorem array_on : (place.on pool t).array = place.array.on pool t := by cases place <;> rfl

theorem array_window : place.window.array = place.array := by cases place <;> rfl

/-- An operation leaves the pool and the threshold as they were. -/
theorem left_on (w : Window α) :
    (place.on pool t).left (w.on pool t) = (place.left w).on pool t := by
  cases place <;> rfl

theorem on_self : place.on place.array.pool place.array.threshold = place := by
  cases place <;> rfl

/-- The last pool and threshold that were set are those that count. -/
theorem on_on (pool' : Pool) (t' : Option Threshold) :
    (place.on pool t).on pool' t' = place.on pool' t' := by
  cases place <;> rfl

theorem store_on : (place.on pool t).array.store = place.array.store := by cases place <;> rfl

/-- Places that are alike hold the same. -/
theorem store_eq {α β : Type} {f : Store α → β} {left left' : Option (Place α)}
    (alike : Option.Rel Alike left left') :
    left.map (fun p => f p.array.store) = left'.map fun p => f p.array.store := by
  cases alike with
  | none => rfl
  | some alike =>
    obtain ⟨pool, t, rfl⟩ := alike
    rw [Option.map_some, Option.map_some, store_on]

variable {place} in
theorem fits_window (fits : place.array.size ≤ maxSize) : place.window.hi ≤ maxSize := by
  refine Nat.le_trans place.window.hi_le_size ?_
  rwa [place.array_window]

theorem size_window_le : place.window.size ≤ place.array.size := by
  refine Nat.le_trans (Nat.sub_le _ _) ?_
  rw [← place.array_window]
  exact place.window.hi_le_size

variable {pool t} in
/-- Where a window is left, its place is. -/
theorem rel_left {left left' : Option (Place α)} (alike : Option.Rel Alike left left') :
    Option.Rel Alike (left.map fun p => place.left p.window)
      (left'.map fun p => (place.on pool t).left p.window) := by
  cases alike with
  | none => exact .none
  | @some p _ alike =>
    obtain ⟨pool', t', rfl⟩ := alike
    refine .some ⟨pool', t', ?_⟩
    cases place <;> cases p <;> rfl

end Place

/-- Whether a window is inside of an array does not depend on the threshold. -/
theorem BulkArray.window_on {α : Type} (a : BulkArray α) (pool : Pool) (t : Option Threshold)
    (lo hi : Nat) : (a.on pool t).window lo hi = (a.window lo hi).map (·.on pool t) := by
  rw [window, window]
  by_cases inside : lo ≤ hi ∧ hi ≤ a.size
  · rw [dif_pos inside]
    exact dif_pos inside
  · rw [dif_neg inside]
    exact dif_neg inside

/-! ## What is told -/

/-- The same is told, and the same contents are left. -/
structure Told.Same {α : Type} (x y : List Told × Option (Place α)) : Prop where
  told : x.1 = y.1
  left : Option.Rel Place.Alike x.2 y.2

/-- What is told of the rest is told after what was told before. -/
theorem Told.Same.append {α : Type} {now now' : List Told} {x y : List Told × Option (Place α)}
    (first : now = now') (same : Same x y) : Same (now ++ x.1, x.2) (now' ++ y.1, y.2) :=
  ⟨congrArg₂ _ first same.told, same.left⟩

section
variable {α : Type} [Element α]

/-- Visited elements are told without their order. -/
theorem Body.told_visited {xs ys : Array α} (perm : xs.toList.Perm ys.toList) :
    (visited (.ofStore (.cells xs))).told = (visited (.ofStore (.cells ys))).told := by
  cases only : Element.only α with
  | some single =>
    have contents (zs : Array α) : Contents.ofStore (.cells zs) = .count zs.size := by
      unfold Contents.ofStore
      rw [only]
      rfl
    have size : xs.size = ys.size := perm.length_eq
    rw [contents, contents, size]
  | none =>
    have contents (zs : Array α) :
        Contents.ofStore (.cells zs) = .items (zs.map Element.written) := by
      unfold Contents.ofStore
      rw [only]
    have listed : ((xs.map Element.written).toList : Multiset Value) =
        (ys.map Element.written).toList := by
      rw [Multiset.coe_eq_coe, Array.toList_map, Array.toList_map]
      exact perm.map _
    rw [contents, contents]
    exact congrArg Told.visited listed

/-- Findings that tell the same are told in the same way on all pools. -/
theorem Body.told_ofFinding {finding finding' : Finding α} (alike : finding.Alike finding')
    (place : Place α) (pool : Pool) (t : Option Threshold) :
    (ofFinding place finding).told = (ofFinding (place.on pool t) finding').told := by
  have view : (place.on pool t).view = place.view := by cases place <;> rfl
  have size : (place.on pool t).window.size = place.window.size := by rw [place.window_on]; rfl
  have listing (place : Place α) (xs : Array α) : (ofFinding place (.visited xs)).told =
      (visited (.ofStore (.cells xs))).told := by
    refine told_visited ?_
    dsimp only
    split
    · exact .refl _
    · exact List.mergeSort_perm _ _
  cases alike with
  | same =>
    cases finding with
    | visited xs => rw [listing, listing]
    | window => simp only [ofFinding, view]
    | info => simp only [ofFinding, view, size]
    | refused e => simp only [ofFinding, view]
    | total x => simp only [ofFinding, view]
    | _ => rfl
  | visited perm => rw [listing, listing, told_visited perm]

namespace Operation
variable {op : Operation α}

/-- What is told of an operation, and the place it leaves, are for its outcome to say. -/
theorem ended_eq {place : Place α} {r out : Except Abort (Window α × Finding α)}
    (results : Results Eq Alike r out) : op.ended place r = op.ended place out := by
  cases results with
  | error eq => rw [eq]
  | @ok p q alike =>
    obtain ⟨w, finding⟩ := p
    obtain ⟨w', finding'⟩ := q
    obtain ⟨rfl, alike⟩ := alike
    have told := Body.told_ofFinding alike (place.left w) (place.left w).array.pool
      (place.left w).array.threshold
    rw [Place.on_self] at told
    rw [ended, ended, told]

/-- What is told of an operation does not tell the threshold. -/
theorem ended_on (place : Place α) (pool : Pool) (t : Option Threshold)
    (out : Except Abort (Window α × Finding α)) :
    Told.Same (op.ended place (Operation.on place.array.pool place.array.threshold <$> out))
      (op.ended (place.on pool t) (Operation.on pool t <$> out)) := by
  cases out with
  | error e =>
    refine ⟨rfl, ?_⟩
    show Option.Rel _ (if op.modifies then none else _) (if op.modifies then none else _)
    cases op.modifies with
    | true => exact .none
    | false => exact .some ⟨pool, t, rfl⟩
  | ok p =>
    obtain ⟨w, finding⟩ := p
    let here := place.left (w.on place.array.pool place.array.threshold)
    have there : (place.on pool t).left (w.on pool t) = here.on pool t :=
      place.left_on pool t (w.on place.array.pool place.array.threshold)
    refine ⟨congrArg ([·]) ?_, .some ⟨pool, t, there⟩⟩
    show _ = (Body.ofFinding ((place.on pool t).left (w.on pool t)) finding).told
    rw [there]
    exact Body.told_ofFinding (.same finding) here pool t

end Operation

end

/-! ## Steps as tellers -/

section
variable {α : Type} [Element α] (log : Bool) (place : Place α)

namespace Step

/-- Setting the threshold tells nothing, and leaves the elements. -/
theorem tells_withThreshold (t : Threshold) :
    ∃ t', (withThreshold t).tells log place = ([], some (place.on place.array.pool t')) := by
  cases place with
  | whole a => exact ⟨some t, rfl⟩
  | part w => exact ⟨w.array.threshold, rfl⟩

/-- What was taken down of an operation is not told. -/
theorem tells_perform (op : Operation α) (o : Watch) :
    (perform op o).tells log place = op.ended place (op.run o place.window).run'.1 := by
  rw [tells, run]
  cases ran : (op.run o place.window).run' with | mk r j
  cases r with
  | ok p =>
    rw [Operation.answer_of_ok log o place ran]
    rfl
  | error e =>
    rw [Operation.answer_of_error log o place ran]
    rfl

theorem tells_map {β : Type} (elem : Element β) (f : α → Except Abort β) (o : Watch)
    (sequel : Sequel β) : (map elem f o sequel).tells log place =
      (Told.made (sequel.tells log) (place.window.mapping o f).run'.1, some place) := by
  rw [Window.mapping, Watched.run'_map, tells, run]
  cases (place.window.map (Watched.onElement o f)).run' with | mk r j
  cases r <;> rfl

theorem tells_select (p : α → Except Abort Bool) (o : Watch) (sequel : Sequel α) :
    (select p o sequel).tells log place =
      (Told.made (sequel.tells log) (place.window.picking o p).run'.1, some place) := by
  rw [Window.picking, Watched.run'_map, tells, run]
  cases (place.window.select (Watched.onElement o p)).run' with | mk r j
  cases r <;> rfl

theorem tells_unique (o : Watch) (sequel : Sequel α) : (unique o sequel).tells log place =
    (Told.made (sequel.tells log) (place.window.unique : Watched _).run'.1, some place) := by
  rw [tells, run]
  rcases (place.window.unique : Watched _).run' with ⟨(e | (e | a)), j⟩ <;> rfl

/-- Steps on a window that is not inside of the array are not run. -/
theorem tells_bounds_error {lo hi : Nat} {e : Failure}
    (refused : place.array.window lo hi = .error e) (steps : Steps α) :
    (bounds lo hi steps).tells log place = ([.refused e], some place) := by
  rw [tells, run, refused]
  rfl

/-- Steps on a window tell what they tell of it, and then what the whole array is. -/
theorem tells_bounds_ok {lo hi : Nat} {w : Window α} (inside : place.array.window lo hi = .ok w)
    (steps : Steps α) : (bounds lo hi steps).tells log place =
      let inner := steps.tells log (.part w)
      ([.bounded inner.1 (inner.2.map fun p => .ofStore p.array.store)],
        inner.2.map fun p => place.left p.window) := by
  rw [tells, run, inside]
  rfl

end Step

/-- Steps after one that loses the contents tell nothing. -/
theorem Steps.tells_cons (first : Step α) (rest : Steps α) : (cons first rest).tells log place =
    match first.tells log place with
    | (told, none) => (told, none)
    | (told, some next) => (told ++ (rest.tells log next).1, (rest.tells log next).2) := by
  rw [Step.tells]
  cases ran : first.run log place with | mk answer after
  rw [tells, run, ran]
  cases after with
  | none => exact congrArg (·, none) (List.append_nil _)
  | some next => rfl

end

/-! ## Sizes -/

theorem BulkArray.array_of_window {α : Type} {a : BulkArray α} {lo hi : Nat} {w : Window α}
    (window : a.window lo hi = .ok w) : w.array = a := by
  rw [BulkArray.window] at window
  split at window
  · cases window
    rfl
  · cases window

namespace Operation
variable {α : Type} [Element α]

/-- An operation leaves an array that is no longer. -/
theorem size_answer_le (log : Bool) (o : Watch) (op : Operation α) (place : Place α)
    (fits : place.array.size ≤ maxSize) :
    ∀ next ∈ (op.answer log o place).2, next.array.size ≤ place.array.size := by
  intro next left
  have inside : place.window.hi ≤ maxSize := by
    refine Nat.le_trans place.window.hi_le_size ?_
    rwa [place.array_window]
  have tracks : (Watched.tracking place.window.lo fun _ => True).Rel (Follows place.window)
      (op.run o place.window) ((op.moved place.window.lo).run o place.window.alone.whole) :=
    op.tracks_run (Watched.tracks_caller place.window _ o) inside (fun _ _ => trivial)
      fun _ => ⟨rfl, trivial⟩
  obtain ⟨results, -⟩ := Watched.rel_run' tracks
  cases ran : (op.run o place.window).run' with | mk r j
  rw [ran] at results
  cases r with
  | error e =>
    rw [answer_of_error log o place ran] at left
    dsimp only at left
    split at left
    · cases left
    · cases left
      exact Nat.le_refl _
  | ok p =>
    rw [answer_of_ok log o place ran] at left
    cases left
    generalize (Watched.run' _).1 = r' at results
    cases results with
    | ok follows =>
      obtain ⟨⟨xs, fewer, eq, -⟩, -, -⟩ := follows
      have array : (place.left p.1).array = p.1.array := by cases place <;> rfl
      rw [array, eq, ← place.array_window]
      exact Window.size_array_refill_le fewer

end Operation

mutual

/-- No step makes an array longer. -/
theorem Step.size_run_le {α : Type} [Element α] (log : Bool) (s : Step α) (place : Place α)
    (fits : place.array.size ≤ maxSize) :
    ∀ next ∈ (s.tells log place).2, next.array.size ≤ place.array.size := by
  intro next left
  cases s with
  | withThreshold t => cases place <;> cases left <;> exact Nat.le_refl _
  | bounds lo hi steps =>
    cases window : place.array.window lo hi with
    | error e =>
      rw [Step.tells_bounds_error log place window] at left
      cases left
      exact Nat.le_refl _
    | ok w =>
      rw [Step.tells_bounds_ok log place window] at left
      obtain ⟨inner, leaves, rfl⟩ := Option.map_eq_some_iff.mp left
      have array : (place.left inner.window).array = inner.array := by
        cases place <;> cases inner <;> rfl
      have same : (Place.part w).array = place.array := BulkArray.array_of_window window
      rw [array, ← same]
      exact steps.size_run_le log (.part w) (by rwa [same]) inner leaves
  | perform op o => exact op.size_answer_le log o place fits next left
  | map elem f o sequel =>
    rw [Step.tells_map] at left
    cases left
    exact Nat.le_refl _
  | select p o sequel =>
    rw [Step.tells_select] at left
    cases left
    exact Nat.le_refl _
  | unique o sequel =>
    rw [Step.tells_unique] at left
    cases left
    exact Nat.le_refl _

theorem Steps.size_run_le {α : Type} [Element α] (log : Bool) (steps : Steps α) (place : Place α)
    (fits : place.array.size ≤ maxSize) :
    ∀ last ∈ (steps.tells log place).2, last.array.size ≤ place.array.size := by
  intro last left
  cases steps with
  | nil =>
    cases left
    exact Nat.le_refl _
  | cons first rest =>
    have first_le := first.size_run_le log place fits
    rw [Steps.tells_cons] at left
    cases told : first.tells log place with | mk now next
    rw [told] at left first_le
    cases next with
    | none => cases left
    | some next =>
      have le := first_le next rfl
      exact Nat.le_trans (rest.size_run_le log next (Nat.le_trans le fits) last left) le

end

end Bisection
