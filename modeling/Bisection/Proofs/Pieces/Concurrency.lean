import Bisection.Proofs.Alone.Tracking

/-!
# Forks in all their orders

A computation whose halves run at the same time has many runs: the halves take turns in any way.
`Concurrent ι ε` has all of them. A run is the list of the calls that were made, in the order of
time, and the result or the failure that the computation ended with. Both halves of a fork run to
their ends, their calls come in any order that keeps the order in each half, and the failure of the
left half wins. Any number of workers runs a computation in one of these orders.
-/

namespace Bisection
set_option autoImplicit false

/-! ## Two lists in turns -/

/-- The third list has the elements of two others, in the order in which each of them has them. -/
inductive Interleaved {ι : Type} : List ι → List ι → List ι → Prop where
  | nil : Interleaved [] [] []
  | left {i : ι} {xs ys zs : List ι} : Interleaved xs ys zs → Interleaved (i :: xs) ys (i :: zs)
  | right {i : ι} {xs ys zs : List ι} : Interleaved xs ys zs → Interleaved xs (i :: ys) (i :: zs)

namespace Interleaved
variable {ι : Type} {xs ys zs : List ι}

/-- One list, and behind it the other: the left half goes first. -/
theorem append (xs ys : List ι) : Interleaved xs ys (xs ++ ys) := by
  induction xs with
  | cons x xs ih => exact .left ih
  | nil =>
    induction ys with
    | nil => exact .nil
    | cons y ys ih => exact .right ih

/-- Turns change the order of the calls, but make no call more or less. -/
theorem perm (turns : Interleaved xs ys zs) : zs.Perm (xs ++ ys) := by
  induction turns with
  | nil => exact .refl _
  | left _ ih => exact ih.cons _
  | right _ ih => exact (ih.cons _).trans List.perm_middle.symm

end Interleaved

/-! ## Runs -/

/-- The runs of a computation: which calls are made, one after the other, and how it ends. -/
def Concurrent (ι ε β : Type) : Type := List ι → Except ε β → Prop

namespace Concurrent
variable {ι ε β γ : Type}

/-- A computation that goes on with the result of another. It ends with that one if it fails. -/
inductive Then (x : Concurrent ι ε β) (f : β → Concurrent ι ε γ) : Concurrent ι ε γ where
  | fails {calls : List ι} {e : ε} (first : x calls (.error e)) : Then x f calls (.error e)
  | goes {calls later : List ι} {b : β} {r : Except ε γ} (first : x calls (.ok b))
    (next : f b later r) : Then x f (calls ++ later) r

/-- Two computations at the same time. -/
inductive Beside (x : Concurrent ι ε β) (y : Concurrent ι ε γ) : Concurrent ι ε (β × γ) where
  | both {ours theirs calls : List ι} {r : Except ε β} {s : Except ε γ} (left : x ours r)
    (right : y theirs s) (turns : Interleaved ours theirs calls) :
    Beside x y calls (bothResults r s)

/-- No call, and this end. -/
def ends (r : Except ε β) : Concurrent ι ε β := fun calls r' => calls = [] ∧ r' = r

/-- A single call that comes to a result or a failure. -/
def call (i : ι) (r : Except ε β) : Concurrent ι ε β := fun calls r' => calls = [i] ∧ r' = r

instance : Monad (Concurrent ι ε) where
  pure b := ends (.ok b)
  bind := Then

instance : Fork ε (Concurrent ι ε) where
  join := Beside
  attempt x := fun calls r => ∃ r', x calls r' ∧ r = .ok r'
  raise e := ends (.error e)

/-- Reports are no calls. -/
instance : Reports (Concurrent ι ε) where
  note _ := pure ()

/-- The computation has a run, and all its runs are as told. -/
def Always (x : Concurrent ι ε β) (told : List ι → Except ε β → Prop) : Prop :=
  (∃ calls r, x calls r) ∧ ∀ calls r, x calls r → told calls r

theorem Always.mono {x : Concurrent ι ε β} {told told' : List ι → Except ε β → Prop}
    (always : x.Always told) (weaker : ∀ calls r, told calls r → told' calls r) :
    x.Always told' :=
  ⟨always.1, fun calls r run => weaker calls r (always.2 calls r run)⟩

theorem Always.and {x : Concurrent ι ε β} {told told' : List ι → Except ε β → Prop}
    (first : x.Always told) (second : x.Always told') :
    x.Always fun calls r => told calls r ∧ told' calls r :=
  ⟨first.1, fun calls r run => ⟨first.2 calls r run, second.2 calls r run⟩⟩

/-- Computations with the same runs are the same. -/
theorem ext {x y : Concurrent ι ε β} (same : ∀ calls r, x calls r ↔ y calls r) : x = y :=
  funext fun calls => funext fun r => propext (same calls r)

/-- What only changes the result makes no calls of its own. -/
theorem then_ends (x : Concurrent ι ε β) (f : β → γ) (calls : List ι) (r : Except ε γ) :
    Then x (fun b => ends (.ok (f b))) calls r ↔ ∃ r', x calls r' ∧ r = r'.map f := by
  constructor
  · intro run
    cases run with
    | fails first => exact ⟨_, first, rfl⟩
    | goes first next =>
      obtain ⟨rfl, rfl⟩ := next
      rw [List.append_nil]
      exact ⟨_, first, rfl⟩
  · rintro ⟨r', run, rfl⟩
    cases r' with
    | error e => exact .fails run
    | ok b =>
      rw [← List.append_nil calls]
      exact .goes run ⟨rfl, rfl⟩

/-- All runs end with a result of `f`, or as before. -/
theorem Always.map {x : Concurrent ι ε β} {told : List ι → Except ε β → Prop}
    (always : x.Always told) (f : β → γ) :
    (f <$> x).Always fun calls r => ∃ r', told calls r' ∧ r = r'.map f := by
  obtain ⟨⟨calls, r, run⟩, each⟩ := always
  refine ⟨⟨calls, _, (then_ends x f calls _).mpr ⟨r, run, rfl⟩⟩, fun calls r runs => ?_⟩
  obtain ⟨r', run, eq⟩ := (then_ends x f calls r).mp runs
  exact ⟨r', each calls r' run, eq⟩

theorem always_ends {told : List ι → Except ε β → Prop} {r : Except ε β} (end_told : told [] r) :
    (ends r).Always told := by
  refine ⟨⟨[], r, rfl, rfl⟩, ?_⟩
  rintro calls r' ⟨rfl, rfl⟩
  exact end_told

/-- A single call has one run. -/
theorem always_call {told : List ι → Except ε β → Prop} {i : ι} {r : Except ε β}
    (call_told : told [i] r) : (call i r).Always told := by
  refine ⟨⟨[i], r, rfl, rfl⟩, ?_⟩
  rintro calls r' ⟨rfl, rfl⟩
  exact call_told

/-- A computation that never fails goes on with the next. -/
theorem Always.then {x : Concurrent ι ε β} {f : β → Concurrent ι ε γ} {told : List ι → β → Prop}
    {told' : List ι → Except ε γ → Prop}
    (first : x.Always fun calls r => ∃ b, r = .ok b ∧ told calls b)
    (next : ∀ calls b, told calls b → (f b).Always fun later r => told' (calls ++ later) r) :
    (x >>= f).Always told' := by
  obtain ⟨⟨calls, r, run⟩, each⟩ := first
  constructor
  · obtain ⟨b, rfl, told⟩ := each calls r run
    obtain ⟨⟨later, s, run'⟩, -⟩ := next calls b told
    exact ⟨_, s, .goes run run'⟩
  · intro calls s runs
    cases runs with
    | fails first =>
      obtain ⟨b, eq, -⟩ := each _ _ first
      cases eq
    | goes first last =>
      obtain ⟨b, eq, told⟩ := each _ _ first
      cases eq
      exact (next _ _ told).2 _ _ last

/-- However two computations take turns, both make their calls. -/
theorem Always.beside {x : Concurrent ι ε β} {y : Concurrent ι ε γ}
    {told : List ι → Except ε β → Prop} {told' : List ι → Except ε γ → Prop}
    (left : x.Always told) (right : y.Always told') :
    (Fork.join x y).Always fun calls r => ∃ ours theirs r₁ r₂, told ours r₁ ∧ told' theirs r₂ ∧
      calls.Perm (ours ++ theirs) ∧ r = bothResults r₁ r₂ := by
  obtain ⟨⟨ours, r, run⟩, each⟩ := left
  obtain ⟨⟨theirs, s, run'⟩, each'⟩ := right
  refine ⟨⟨_, _, .both run run' (.append ours theirs)⟩, fun calls rs runs => ?_⟩
  cases runs with
  | both left right turns =>
    exact ⟨_, _, _, _, each _ _ left, each' _ _ right, turns.perm, rfl⟩

/-- It does not matter which two of three computations are put together first. -/
theorem then_then (x : Concurrent ι ε β) {δ : Type} (f : β → Concurrent ι ε γ)
    (g : γ → Concurrent ι ε δ) (calls : List ι) (r : Except ε δ) :
    Then (Then x f) g calls r ↔ Then x (fun b => Then (f b) g) calls r := by
  constructor
  · intro run
    cases run with
    | fails first =>
      cases first with
      | fails first => exact .fails first
      | goes first next => exact .goes first (.fails next)
    | goes both last =>
      cases both with
      | goes first next =>
        rw [List.append_assoc]
        exact .goes first (.goes next last)
  · intro run
    cases run with
    | fails first => exact .fails (.fails first)
    | goes first both =>
      cases both with
      | fails next => exact .fails (.goes first next)
      | goes next last =>
        rw [← List.append_assoc]
        exact .goes (.goes first next) last

instance : LawfulMonad (Concurrent ι ε) := by
  refine LawfulMonad.mk' _ (fun x => ext fun calls r => ?_) (fun b f => ext fun calls r => ?_)
    fun x f g => ext fun calls r => then_then x f g calls r
  · refine (then_ends x id calls r).trans ?_
    simp
  · constructor
    · intro run
      cases run with
      | fails first => cases first.2
      | goes first next =>
        obtain ⟨rfl, eq⟩ := first
        cases eq
        exact next
    · intro run
      have first : ends (.ok b) ([] : List ι) (.ok b : Except ε _) := ⟨rfl, rfl⟩
      exact .goes first run

instance : LawfulRaise ε (Concurrent ι ε) := by
  refine ⟨fun e f => ext fun calls r => ⟨fun run => ?_, ?_⟩⟩
  · cases run with
    | fails first =>
      obtain ⟨rfl, eq⟩ := first
      cases eq
      exact ⟨rfl, rfl⟩
    | goes first next => cases first.2
  · rintro ⟨rfl, rfl⟩
    exact .fails ⟨rfl, rfl⟩

/-! ## Runs that all come to the same -/

/-- There is a run, and each run ends as a computation that forks nothing does. -/
def tracking (d : Nat) : Tracking d (Concurrent ι ε) (Except ε) where
  Rel R x r := (∃ calls r', x calls r') ∧ ∀ calls r', x calls r' → Results Eq R r' r
  pure related := by
    refine ⟨⟨[], _, rfl, rfl⟩, ?_⟩
    rintro calls r ⟨rfl, rfl⟩
    exact .ok related
  bind {_ _ _ _ R S x r f g} rel next := by
    obtain ⟨⟨calls, r', run⟩, each⟩ := rel
    constructor
    · cases each calls r' run with
      | error same => exact ⟨_, _, .fails run⟩
      | ok related =>
        obtain ⟨⟨later, s, run'⟩, -⟩ := next _ _ related
        exact ⟨_, s, .goes run run'⟩
    · intro calls s run
      cases run with
      | fails first =>
        cases each _ _ first with
        | error same => exact .error same
      | goes first last =>
        cases each _ _ first with
        | ok related => exact (next _ _ related).2 _ _ last
  expected := Eq
  join {_ _ _ _ R S x r y s} left right := by
    obtain ⟨⟨ours, r', run⟩, each⟩ := left
    obtain ⟨⟨theirs, s', run'⟩, each'⟩ := right
    refine ⟨⟨_, _, .both run run' (.append ours theirs)⟩, fun calls rs runs => ?_⟩
    cases runs with
    | both left right turns => exact (each _ _ left).both (each' _ _ right)
  attempt rel := by
    obtain ⟨⟨calls, r', run⟩, each⟩ := rel
    refine ⟨⟨calls, _, r', run, rfl⟩, ?_⟩
    rintro calls _ ⟨r', run, rfl⟩
    exact .ok (each calls r' run)
  raise same := by
    refine ⟨⟨[], _, rfl, rfl⟩, ?_⟩
    rintro calls r ⟨rfl, rfl⟩
    exact .error same
  note n := by
    refine ⟨⟨[], _, rfl, rfl⟩, ?_⟩
    rintro calls r ⟨rfl, rfl⟩
    exact .ok rfl

/-- A call ends as its result says, whatever was called before. -/
theorem same_call {d : Nat} (i : ι) (r : Except ε β) :
    (tracking d : Tracking d (Concurrent ι ε) (Except ε)).Same (call i r) r := by
  refine ⟨⟨[i], r, rfl, rfl⟩, ?_⟩
  rintro calls r' ⟨rfl, rfl⟩
  exact .refl r'

end Concurrent

end Bisection
