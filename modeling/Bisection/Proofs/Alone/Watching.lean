import Bisection.Proofs.Alone.Indices
import Bisection.Script.Operation

/-!
# Watching an operation further on

What is taken down of an operation on a window is what is taken down of the same operation on its
elements alone, but for the indices in it, which are greater by where the window starts. An
operation fails only when its callback does, or for lack of room.
-/

namespace Bisection
set_option autoImplicit false

/-- The same call further on. -/
def Arguments.moved (d : Nat) : Arguments → Arguments
  | .index i => .index (d + i)
  | a => a

/-- The same journal further on. -/
def Journal.moved (d : Nat) (j : Journal) : Journal :=
  ⟨j.notices.map (Notice.moved d), j.calls, j.arguments.map (Arguments.moved d)⟩

namespace Likeness
variable {m m' : Type → Type} [Monad m] [LawfulMonad m] [Monad m'] [LawfulMonad m']

/-- Computations that may fail: they give related results, or expected failures. -/
def exceptT {ε ε' : Type} (expected : ε → ε' → Prop) (ρ : Likeness m m') :
    Likeness (ExceptT ε m) (ExceptT ε' m') where
  Rel R x y := ρ.Rel (Results expected R) x.run y.run
  pure related := ρ.pure (.ok related)
  bind rel next := by
    refine ρ.bind rel fun r r' results => ?_
    cases results with
    | ok related => exact next _ _ related
    | error failures => exact ρ.pure (.error failures)

/-- Computations over a state that is the same on both sides. -/
def stateT (σ : Type) (ρ : Likeness m m') : Likeness (StateT σ m) (StateT σ m') where
  Rel R x y := ∀ s, ρ.Rel (fun p q => R p.1 q.1 ∧ p.2 = q.2) (x.run s) (y.run s)
  pure related s := ρ.pure ⟨related, rfl⟩
  bind rel next s := by
    refine ρ.bind (rel s) ?_
    rintro ⟨b, s'⟩ ⟨c, s''⟩ ⟨related, eq⟩
    dsimp only at related eq
    subst eq
    exact next b c related s'

/-- Computations over a journal that is further on. -/
def journaled (d : Nat) : Likeness (StateM Journal) (StateM Journal) where
  Rel R x y := ∀ j, R (x.run (j.moved d)).1 (y.run j).1 ∧
    (x.run (j.moved d)).2 = (y.run j).2.moved d
  pure related j := ⟨related, rfl⟩
  bind {_ _ _ _ R S x y f g} rel next j := by
    obtain ⟨related, eq⟩ := rel j
    have after := next _ _ related (y.run j).2
    rw [← eq] at after
    exact after

end Likeness

/-- Over computations that cannot fail themselves, forks and failures are as they should be. -/
def Tracking.exceptT {ε ε' : Type} {d : Nat} {m m' : Type → Type} [Monad m] [LawfulMonad m]
    [Reports m] [Monad m'] [LawfulMonad m'] [Reports m'] (expected : ε → ε' → Prop)
    (ρ : Likeness m m')
    (note : ∀ n : Notice, ρ.Rel Eq (Reports.note (n.moved d)) (Reports.note n)) :
    Tracking d (ExceptT ε m) (ExceptT ε' m') where
  toLikeness := ρ.exceptT expected
  expected := expected
  join left right :=
    ρ.bind left fun _ _ results => ρ.bind right fun _ _ results' => ρ.pure (results.both results')
  attempt {_ _ R x y} rel := by
    have base : ρ.Rel (Results expected R) x.run y.run := rel
    exact base.map fun r r' results => Results.ok results
  raise failures := ρ.pure (.error failures)
  note n := (note n).map fun _ _ eq => Results.ok eq

namespace Watched
variable {α β : Type} [Element α]

/-- A notice of a fact further on is put at the end of a journal further on. -/
theorem note_moved (d : Nat) (n : Notice) :
    (Likeness.journaled d).Rel Eq (Reports.note (n.moved d)) (Reports.note n) := by
  intro j
  refine ⟨rfl, ?_⟩
  show (⟨(j.notices.map _).push (n.moved d), _, _⟩ : Journal) = ⟨(j.notices.push n).map _, _, _⟩
  rw [Array.map_push]
  rfl

/-- Watched computations that do the same further on. They fail alike, and only in ways that are
expected. -/
def tracking (d : Nat) (expected : Abort → Prop) : Tracking d Watched Watched :=
  .exceptT (fun e e' => e = e' ∧ expected e) (.journaled d) (note_moved d)

variable {d : Nat} {expected : Abort → Prop}

/-- A call is counted on both sides, and its arguments are taken down with greater indices. -/
theorem rel_call {o : Watch} {arguments arguments' : Unit → Arguments}
    (moved : arguments () = (arguments' ()).moved d) :
    (tracking d expected).Rel Eq (call o arguments) (call o arguments') := by
  intro j
  refine ⟨.ok rfl, ?_⟩
  show (⟨_, _, if o.trace then (j.arguments.map _).push (arguments ()) else _⟩ : Journal) =
    ⟨_, _, (if o.trace then j.arguments.push (arguments' ()) else _).map _⟩
  rw [moved]
  split
  · rw [Array.map_push]
    rfl
  · rfl

/-- A callback comes to its result on both sides, and fails only as is expected. -/
theorem same_result {r : Except Abort β} (failures : ∀ e, r = .error e → expected e) :
    (tracking d expected).Same (ExceptT.mk (pure r)) (ExceptT.mk (pure r)) := by
  cases r with
  | error e => exact (Likeness.journaled d).pure (.error ⟨rfl, failures e rfl⟩)
  | ok b => exact (Likeness.journaled d).pure (.ok rfl)

theorem same_onElement (o : Watch) {f : α → Except Abort β} {x : α}
    (failures : ∀ e, f x = .error e → expected e) :
    (tracking d expected).Same (onElement o f x) (onElement o f x) :=
  (rel_call rfl).bind_same fun _ => same_result failures

theorem same_onPair (o : Watch) {f : α → α → Except Abort β} {x y : α}
    (failures : ∀ e, f x y = .error e → expected e) :
    (tracking d expected).Same (onPair o f x y) (onPair o f x y) :=
  (rel_call rfl).bind_same fun _ => same_result failures

omit [Element α] in
/-- A function that is asked for an index is told the greater one on both sides, but what is taken
down is the index of its own side. -/
theorem rel_onIndex (o : Watch) {f : Nat → Except Abort β} {i : Nat}
    (failures : ∀ e, f (d + i) = .error e → expected e) :
    (tracking d expected).Rel Eq (onIndex o f (d + i)) (onIndex o (fun i => f (d + i)) i) :=
  (rel_call rfl).bind_same fun _ => same_result failures

end Watched

namespace Gathering
variable {α : Type} {d : Nat} {expected : Abort → Prop}

/-- Gathering computations that do the same further on. -/
def tracking (d : Nat) (expected : Abort → Prop) (α : Type) :
    Tracking d (Gathering α) (Gathering α) :=
  .exceptT (fun e e' => e = e' ∧ expected e) ((Likeness.journaled d).stateT (Array α)) fun n _ =>
    (Likeness.journaled d).bind (Watched.note_moved d n) fun _ _ eq =>
      (Likeness.journaled d).pure ⟨eq, rfl⟩

/-- What is gathered is the same on both sides, so the state stays the same. -/
theorem same_gather {x y : Watched α} (same : (Watched.tracking d expected).Same x y) :
    (tracking d expected α).Same (gather x) (gather y) := by
  have given : (tracking d expected α).Same (ExceptT.mk (StateT.lift (ExceptT.run x)))
      (ExceptT.mk (StateT.lift (ExceptT.run y))) := fun _ =>
    (Likeness.journaled d).bind same fun _ _ results =>
      (Likeness.journaled d).pure ⟨results, rfl⟩
  exact given.bind fun y _ => (Likeness.journaled d).pure ⟨.ok rfl, rfl⟩

theorem rel_gathered {x y : Gathering α Unit} (rel : (tracking d expected α).Rel Eq x y) :
    (Watched.tracking d expected).Rel Eq (gathered x) (gathered y) := by
  refine (Likeness.journaled d).bind (rel #[]) ?_
  rintro ⟨r, xs⟩ ⟨r', ys⟩ ⟨results, eq⟩
  dsimp only at results eq
  subst eq
  cases results with
  | error failures => exact (Likeness.journaled d).pure (.error failures)
  | ok related => exact (Likeness.journaled d).pure (.ok rfl)

end Gathering

/-- Two ways to call the callbacks of an operation that do the same on a window as on its elements
alone, where functions are foreseen to fail. -/
structure Caller.Tracks {α : Type} {m m' : Type → Type} [Monad m] [LawfulMonad m] [Fork Abort m]
    [Reports m] [Monad m'] [LawfulMonad m'] [Fork Abort m'] [Reports m'] {w : Window α}
    (T : Tracking w.lo m m') (on : Caller m α) (on' : Caller m' α) (foreseen : Abort → Prop) :
    Prop where
  element {β : Type} {f : α → Except Abort β} {x : α} :
    (∀ e, f x = .error e → foreseen e) → T.Same (on.onElement f x) (on'.onElement f x)
  index {β : Type} {f : Nat → Except Abort β} {i : Nat} :
    (∀ e, f (w.lo + i) = .error e → foreseen e) →
    T.Rel Eq (on.onIndex f (w.lo + i)) (on'.onIndex (fun i => f (w.lo + i)) i)
  pair {β : Type} {f : α → α → Except Abort β} {x y : α} :
    (∀ e, f x y = .error e → foreseen e) → T.Same (on.onPair f x y) (on'.onPair f x y)
  each {f : α → Except Abort α} :
    (∀ x e, f x = .error e → foreseen e) → T.Rel Eq (on.onEach w f) (on'.onEach w.alone.whole f)

/-- Watched callbacks are told the same on both sides, but for the indices. -/
theorem Watched.tracks_caller {α : Type} [Element α] (w : Window α) (expected : Abort → Prop)
    (o : Watch) :
    Caller.Tracks (tracking w.lo expected) (caller o : Caller Watched α) (caller o) expected where
  element := same_onElement o
  index := rel_onIndex o
  pair := same_onPair o
  each failures := Gathering.rel_gathered <| Window.tracks_forEach fun x =>
    Gathering.same_gather (same_onElement o (failures x))

/-- The operation on the elements alone: a function of indices is told the greater ones. -/
def Operation.moved {α : Type} (d : Nat) : Operation α → Operation α
  | .replaceWithIndex f => .replaceWithIndex fun i => f (d + i)
  | op => op

/-- The same finding further on. -/
def Finding.moved {α : Type} (d : Nat) : Finding α → Finding α
  | .summary s => .summary (s.moved d)
  | .index i => .index (i.map (d + ·))
  | finding => finding

/-- Whether the operation was refused. -/
def Finding.refuses {α : Type} : Finding α → Bool
  | .refused _ => true
  | _ => false

namespace Operation
variable {α : Type} {w : Window α}

/-- The callback of the operation fails for some arguments. -/
def MayFail (e : Abort) : Operation α → Prop
  | .forEach f | .replaceWith f => ∃ x, f x = .error e
  | .replaceWithIndex f => ∃ i, f i = .error e
  | .replaceWithSizes _ f => ∃ x n, f x n = .error e
  | .replaceWithCombined _ f | .reduce _ f | .cumulate _ f | .precumulate _ f =>
    ∃ x y, f x y = .error e
  | .summaryBy cmp | .sortBy cmp | .isSortedBy cmp => ∃ x y, cmp x y = .error e
  | .anyIndex p | .any p | .all p | .appendSelected p _ | .removeAll p | .retain p =>
    ∃ x, p x = .error e
  | .info | .summary | .indexOf _ | .removeConsecutiveDuplicates | .sort | .isSorted => False

/-- What an operation leaves and finds on a window, and on its elements alone. One that is refused
leaves the window as it was. -/
structure Follows (w : Window α) (p q : Window α × Finding α) : Prop where
  left : w.Left p.1 q.1
  found : p.2 = q.2.moved w.lo
  refused : p.2.refuses → p.1 = w

section
variable {m m' : Type → Type} [Monad m] [LawfulMonad m] [Fork Abort m] [Reports m] [Monad m']
  [LawfulMonad m'] [Fork Abort m'] [Reports m'] {T : Tracking w.lo m m'}

/-- Where a window is left, nothing else is found. -/
theorem rel_left {x : m (Window α)} {y : m' (Window α)} (rel : T.Rel w.Left x y) :
    T.Rel (Follows w) (do pure (← x, .window)) (do pure (← y, .window)) :=
  T.bind rel fun _ _ left => T.pure ⟨left, rfl, nofun⟩

/-- What is found is told further on, and the window stays as it was. -/
theorem rel_found {β γ : Type} {R : β → γ → Prop} {x : m β} {y : m' γ} {tell : β → Finding α}
    {tell' : γ → Finding α} (rel : T.Rel R x y)
    (moved : ∀ b c, R b c → tell b = (tell' c).moved w.lo) :
    T.Rel (Follows w) (do pure (w, tell (← x))) (do pure (w.alone.whole, tell' (← y))) :=
  T.bind rel fun b c related => T.pure ⟨.same w, moved b c related, fun _ => rfl⟩

/-- A refused operation leaves the window as it was, and is refused for the same cause. -/
theorem rel_settle {x : m (Except Failure (Window α))} {y : m' (Except Failure (Window α))}
    (rel : T.Rel (Results Eq w.Left) x y) :
    T.Rel (Follows w) (settle w <$> x) (settle w.alone.whole <$> y) := by
  refine rel.map fun r r' results => ?_
  cases results with
  | error eq => exact ⟨.same w, congrArg Finding.refused eq, fun _ => rfl⟩
  | ok left => exact ⟨left, rfl, nofun⟩

/-- Each operation on a window does what it does on the elements of the window alone. Its failures
are those of its callback, and a lack of room for a table of indices or for what is selected. -/
theorem tracks_run [Element α] {on : Caller m α} {on' : Caller m' α} {foreseen : Abort → Prop}
    (calls : Caller.Tracks T on on' foreseen) (fits : w.hi ≤ maxSize) (op : Operation α)
    (callback : ∀ e, op.MayFail e → foreseen e)
    (room : hasRoom w.size indexBytes = false ∨ op.modifies = false →
      T.expected .noRoom .noRoom) :
    T.Rel (Follows w) (op.runWith on w) ((op.moved w.lo).runWith on' w.alone.whole) := by
  have element {β : Type} {f : α → Except Abort β} (failures : ∀ e, (∃ x, f x = .error e) →
      foreseen e) (x : α) : T.Same (on.onElement f x) (on'.onElement f x) :=
    calls.element fun e failed => failures e ⟨x, failed⟩
  have pair {β : Type} {f : α → α → Except Abort β} (failures : ∀ e, (∃ x y, f x y = .error e) →
      foreseen e) (x y : α) : T.Same (on.onPair f x y) (on'.onPair f x y) :=
    calls.pair fun e failed => failures e ⟨x, y, failed⟩
  have indices (short : hasRoom w.size indexBytes = false) : T.expected .noRoom .noRoom :=
    room (.inl short)
  cases op with
  | info => exact T.pure ⟨.same w, rfl, fun _ => rfl⟩
  | forEach f =>
    exact rel_found (calls.each fun x e failed => callback e ⟨x, failed⟩) fun _ _ =>
      congrArg Finding.visited
  | replaceWith f => exact rel_left (Window.tracks_replaceWith (element callback))
  | replaceWithIndex f =>
    refine rel_left (Window.tracks_replaceWithIndex fun i => ?_)
    exact calls.index fun e failed => callback e ⟨_, failed⟩
  | replaceWithCombined other f =>
    exact rel_settle (Window.tracks_replaceWithCombined (pair callback))
  | replaceWithSizes other f =>
    refine rel_settle (Window.tracks_replaceWithCombined fun x n => ?_)
    exact calls.element fun e failed => callback e ⟨x, n, failed⟩
  | reduce base op =>
    exact rel_found (Window.tracks_reduce (pair callback)) fun _ _ => congrArg Finding.result
  | summary => exact rel_found Window.tracks_summary fun _ _ => congrArg Finding.summary
  | summaryBy cmp =>
    exact rel_found (Window.tracks_summaryBy (pair callback)) fun _ _ => congrArg Finding.summary
  | anyIndex p =>
    exact rel_found (Window.tracks_anyIndex fits (element callback)) fun _ _ =>
      congrArg Finding.index
  | indexOf target =>
    exact rel_found (Window.tracks_indexOf fits) fun _ _ => congrArg Finding.index
  | any p =>
    exact rel_found (Window.tracks_any fits (element callback)) fun _ _ => congrArg Finding.truth
  | all p =>
    exact rel_found (Window.tracks_all fits (element callback)) fun _ _ => congrArg Finding.truth
  | appendSelected p dest =>
    exact rel_found (Window.tracks_appendSelected (room (.inr rfl)) (element callback)) fun _ _ =>
      congrArg Finding.appended
  | removeAll p => exact rel_left (Window.tracks_removeAll indices (element callback))
  | retain p => exact rel_left (Window.tracks_retain indices (element callback))
  | removeConsecutiveDuplicates =>
    exact rel_left (Window.tracks_removeConsecutiveDuplicates indices)
  | cumulate base op => exact rel_left (Window.tracks_cumulate (pair callback))
  | precumulate base op =>
    refine T.bind (Window.tracks_precumulate (pair callback)) ?_
    rintro ⟨w', total⟩ ⟨v', total'⟩ ⟨left, eq⟩
    exact T.pure ⟨left, congrArg Finding.total eq, nofun⟩
  | sort => exact rel_left Window.tracks_sort
  | sortBy cmp => exact rel_left (Window.tracks_sortBy (pair callback))
  | isSorted =>
    exact rel_found (Window.tracks_isSorted fits) fun _ _ => congrArg Finding.truth
  | isSortedBy cmp =>
    exact rel_found (Window.tracks_isSortedBy fits (pair callback)) fun _ _ =>
      congrArg Finding.truth

end

end Operation

end Bisection
