import Bisection.Proofs.Alone.Watching
import Bisection.Proofs.Pieces.Concurrency

/-!
# Computations that always end the same way

A computation with forks in all their orders ends the same way in each of them, and a watched one
whatever its journal says, if they follow a computation that forks nothing. For those that never
fail this is a plain value (`Tracking.total`). What is visited along the way is gathered in the
order of time, which is some order of what a plain loop gathers.
-/

namespace Bisection
set_option autoImplicit false

/-- Following a plain value: following a computation that does not fail. -/
def Tracking.total {d : Nat} {ε : Type} {m : Type → Type} [Monad m] [LawfulMonad m] [Fork ε m]
    [Reports m] (T : Tracking d m (Except ε))
    (attempt : ∀ {β γ : Type} {R : β → γ → Prop} {x : m β} {y : γ}, T.Rel R x (.ok y) →
      T.Rel (Results (fun _ (e : Empty) => nomatch e) R) (Fork.attempt x) (.ok (.ok y))) :
    Tracking d m Id where
  Rel R x y := T.Rel R x (.ok y.run)
  pure related := T.pure related
  bind rel next := T.bind rel next
  expected _ e := nomatch e
  join left right := T.join left right
  attempt rel := attempt rel
  raise {_ _ _ _ e} _ := nomatch e
  note n := T.note n

namespace Concurrent
variable {ι ε β γ : Type} {d : Nat}

/-- Each run ends as the computation that it follows. -/
theorem eq_of_same {x : Concurrent ι ε β} {r r' : Except ε β}
    (same : (tracking d).Same x r) {calls : List ι} (run : x calls r') : r' = r :=
  Results.eq (same.2 calls r' run)

/-- Forks in all their orders that come to a plain value. -/
def total (d : Nat) : Tracking d (Concurrent ι ε) Id :=
  (tracking d).total fun {_ _ R x y} rel => by
    obtain ⟨⟨calls, r, run⟩, each⟩ := rel
    refine ⟨⟨calls, _, r, run, rfl⟩, ?_⟩
    rintro calls _ ⟨r, run, rfl⟩
    cases each calls r run with
    | ok related => exact .ok (.ok related)

/-- What follows a plain value has a run, and each of its runs comes to a related value. -/
theorem always_of_rel {R : β → γ → Prop} {x : Concurrent ι ε β} {y : γ}
    (rel : (total d : Tracking d (Concurrent ι ε) Id).Rel R x y) :
    x.Always fun _ r => ∃ b, r = .ok b ∧ R b y := by
  refine ⟨rel.1, fun calls r run => ?_⟩
  cases rel.2 calls r run with
  | ok related => exact ⟨_, rfl, related⟩

theorem always_of_same {x : Concurrent ι ε β} {b : β}
    (same : (total d : Tracking d (Concurrent ι ε) Id).Same x b) :
    x.Always fun _ r => r = .ok b := by
  refine (always_of_rel same).mono fun _ r ends => ?_
  obtain ⟨b', ok, eq⟩ := ends
  rw [ok, eq]

/-- The runs of a computation and what a plain loop gathers: the same result, and the same calls in
some order. -/
def gathering (d : Nat) : Tracking d (Concurrent ι ε) (StateM (Array ι)) where
  Rel R x y := (∃ calls r, x calls r) ∧ ∀ calls r, x calls r → ∃ b, r = .ok b ∧
    ∀ before : Array ι, R b (y.run before).1 ∧
      (y.run before).2.toList.Perm (before.toList ++ calls)
  pure {_ _ _ b _} related := by
    refine ⟨⟨[], .ok b, rfl, rfl⟩, ?_⟩
    rintro calls r ⟨rfl, rfl⟩
    refine ⟨b, rfl, fun before => ⟨related, ?_⟩⟩
    rw [List.append_nil]
    exact .refl _
  bind {_ _ _ _ R S x y f g} rel next := by
    obtain ⟨⟨calls, r, run⟩, each⟩ := rel
    constructor
    · obtain ⟨b, rfl, gathered⟩ := each calls r run
      obtain ⟨⟨later, s, run'⟩, -⟩ := next b _ (gathered #[]).1
      exact ⟨_, s, .goes run run'⟩
    · intro calls s run
      cases run with
      | fails first =>
        obtain ⟨b, eq, -⟩ := each _ _ first
        cases eq
      | @goes _ later b _ first last =>
        obtain ⟨_, eq, gathered⟩ := each _ _ first
        cases eq
        obtain ⟨c, rfl, -⟩ := (next b _ (gathered #[]).1).2 _ _ last
        refine ⟨c, rfl, fun before => ?_⟩
        obtain ⟨related, perm⟩ := gathered before
        obtain ⟨c', eq, gathered'⟩ := (next b _ related).2 _ _ last
        cases eq
        obtain ⟨related', perm'⟩ := gathered' (y.run before).2
        refine ⟨related', perm'.trans ?_⟩
        rw [← List.append_assoc]
        exact perm.append_right _
  expected _ e := nomatch e
  join {_ _ _ _ R S x y x' y'} left right := by
    obtain ⟨⟨ours, r, run⟩, each⟩ := left
    obtain ⟨⟨theirs, s, run'⟩, each'⟩ := right
    refine ⟨⟨_, _, .both run run' (.append ours theirs)⟩, fun calls rs runs => ?_⟩
    cases runs with
    | both left right turns =>
      obtain ⟨b, rfl, gathered⟩ := each _ _ left
      obtain ⟨c, rfl, gathered'⟩ := each' _ _ right
      refine ⟨(b, c), rfl, fun before => ?_⟩
      obtain ⟨related, perm⟩ := gathered before
      obtain ⟨related', perm'⟩ := gathered' (y.run before).2
      refine ⟨⟨related, related'⟩, perm'.trans ((perm.append_right _).trans ?_)⟩
      rw [List.append_assoc]
      exact turns.perm.symm.append_left _
  attempt {_ _ R x y} rel := by
    obtain ⟨⟨calls, r, run⟩, each⟩ := rel
    refine ⟨⟨calls, _, r, run, rfl⟩, ?_⟩
    rintro calls _ ⟨r, run, rfl⟩
    obtain ⟨b, rfl, gathered⟩ := each calls r run
    exact ⟨_, rfl, fun before => ⟨.ok (gathered before).1, (gathered before).2⟩⟩
  raise {_ _ _ _ e} _ := nomatch e
  note n := by
    refine ⟨⟨[], .ok (), rfl, rfl⟩, ?_⟩
    rintro calls r ⟨rfl, rfl⟩
    refine ⟨(), rfl, fun before => ⟨rfl, ?_⟩⟩
    rw [List.append_nil]
    exact .refl _

/-- Asks about an element, and writes down which. -/
def noting (p : ι → β) (x : ι) : StateM (Array ι) β := do
  modify (·.push x)
  pure (p x)

/-- A call is one element more, wherever it comes in the order of time. -/
theorem gathers_noting (p : ι → β) (x : ι) :
    (gathering d : Tracking d (Concurrent ι ε) _).Same (call x (.ok (p x))) (noting p x) := by
  refine ⟨⟨[x], _, rfl, rfl⟩, ?_⟩
  rintro calls r ⟨rfl, rfl⟩
  refine ⟨p x, rfl, fun before => ⟨rfl, ?_⟩⟩
  show (before.push x).toList.Perm _
  rw [Array.toList_push]

theorem gathers_call (i : ι) :
    (gathering d : Tracking d (Concurrent ι ε) _).Same (call i (.ok ())) (modify (·.push i)) :=
  gathers_noting (fun _ => ()) i

end Concurrent

namespace Watched

/-- Watched computations that end as computations without a journal do. -/
def ending (d : Nat) : Tracking d Watched (Except Abort) where
  Rel R x r := ∀ j, Results Eq R ((ExceptT.run x).run j).1 r
  pure related _ := .ok related
  bind {_ _ _ _ R S x r f g} rel next j := by
    have first := rel j
    show Results Eq S ((StateT.run (ExceptT.run x >>= ExceptT.bindCont f) j : Id _)).1 _
    rw [StateT.run_bind]
    cases ran : (ExceptT.run x).run j with | mk r' j'
    rw [ran] at first
    cases first with
    | error same => exact .error same
    | ok related => exact next _ _ related j'
  expected := Eq
  join {_ _ _ _ R S x r y s} left right j := by
    have first := left j
    show Results Eq _ ((StateT.run (do
      let a ← ExceptT.run x
      let b ← ExceptT.run y
      pure (bothResults a b)) j : Id _)).1 _
    rw [StateT.run_bind]
    cases ran : (ExceptT.run x).run j with | mk r' j'
    rw [ran] at first
    have second := right j'
    show Results Eq _ ((StateT.run (do
      let b ← ExceptT.run y
      pure (bothResults r' b)) j' : Id _)).1 _
    rw [StateT.run_bind]
    cases ran' : (ExceptT.run y).run j' with | mk s' j''
    rw [ran'] at second
    exact first.both second
  attempt rel j := .ok (rel j)
  raise same _ := .error same
  note _ _ := .ok rfl

/-- A watched computation that starts with an empty journal ends as the one it follows. -/
theorem run'_of_same {d : Nat} {β : Type} {x : Watched β} {r : Except Abort β}
    (same : (ending d).Same x r) : x.run'.1 = r :=
  Results.eq (same .empty)

theorem run'_map {β γ : Type} (f : β → γ) (x : Watched β) : (f <$> x).run'.1 = x.run'.1.map f := by
  show ((ExceptT.run (f <$> x)).run Journal.empty).1 = _
  rw [ExceptT.run_map, StateT.run_map]
  rfl

/-- Watched computations that come to a plain value. -/
def total (d : Nat) : Tracking d Watched Id :=
  (ending d).total fun {_ _ R x y} rel j => by
    have ran := rel j
    show Results Eq _ (.ok ((ExceptT.run x).run j).1) _
    cases ends : ((ExceptT.run x).run j).1 with
    | error e =>
      rw [ends] at ran
      cases ran
    | ok b =>
      rw [ends] at ran
      cases ran with
      | ok related => exact .ok (.ok related)

end Watched

namespace Gathering
variable {α : Type}

/-- Gathering computations that gather what a plain loop does. -/
def collecting (d : Nat) : Tracking d (Gathering α) (StateM (Array α)) where
  Rel R x y := ∀ ys j, ∃ b j', ((ExceptT.run x).run ys).run j = ((.ok b, (y.run ys).2), j') ∧
    R b (y.run ys).1
  pure {_ _ _ b _} related ys j := ⟨b, j, rfl, related⟩
  bind {_ _ _ _ R S x y f g} rel next ys j := by
    obtain ⟨b, j', ran, related⟩ := rel ys j
    obtain ⟨c, j'', ran', related'⟩ := next b _ related (y.run ys).2 j'
    refine ⟨c, j'', ?_, related'⟩
    show StateT.run (StateT.run (ExceptT.run x >>= ExceptT.bindCont f) ys) j = _
    rw [StateT.run_bind, StateT.run_bind, ran]
    exact ran'
  expected _ e := nomatch e
  join {_ _ _ _ R S x y x' y'} left right ys j := by
    obtain ⟨b, j', ran, related⟩ := left ys j
    obtain ⟨c, j'', ran', related'⟩ := right (y.run ys).2 j'
    refine ⟨(b, c), j'', ?_, related, related'⟩
    show StateT.run (StateT.run (do
      let a ← ExceptT.run x
      let b ← ExceptT.run x'
      pure (bothResults a b)) ys) j = _
    rw [StateT.run_bind, StateT.run_bind, ran]
    show StateT.run (StateT.run (do
      let b ← ExceptT.run x'
      pure (bothResults _ b)) _) j' = _
    rw [StateT.run_bind, StateT.run_bind, ran']
    rfl
  attempt {_ _ R x y} rel ys j := by
    obtain ⟨b, j', ran, related⟩ := rel ys j
    refine ⟨.ok b, j', ?_, .ok related⟩
    show StateT.run (StateT.run (Except.ok <$> ExceptT.run x) ys) j = _
    rw [StateT.run_map, StateT.run_map, ran]
    rfl
  raise {_ _ _ _ e} _ := nomatch e
  note n ys j := ⟨(), _, rfl, rfl⟩

/-- To gather a result is to put it behind those that were gathered before. -/
theorem collects_gather {d : Nat} {x : Watched α} {y : α} (same : (Watched.total d).Same x y) :
    (collecting d).Same (gather x) (modify (·.push y)) := by
  intro ys j
  have ends := same j
  cases ran : (ExceptT.run x).run j with | mk r j'
  rw [ran] at ends
  cases ends with
  | ok eq =>
    rw [eq] at ran
    refine ⟨(), j', ?_, rfl⟩
    show StateT.run (StateT.run (StateT.lift (ExceptT.run x) >>= ExceptT.bindCont _) ys) j = _
    have lifted : StateT.run (StateT.run (StateT.lift (ExceptT.run x)) ys) j =
        (((.ok y, ys), j') : ((Except Abort α × Array α) × Journal)) := by
      rw [StateT.run_lift, StateT.run_bind, ran]
      rfl
    rw [StateT.run_bind, StateT.run_bind, lifted]
    rfl

/-- What is gathered in the end. -/
theorem ending_gathered {d : Nat} {x : Gathering α Unit} {y : StateM (Array α) Unit}
    (rel : (collecting d).Rel Eq x y) :
    (Watched.total d).Same (gathered x) (y.run #[]).2 := by
  intro j
  obtain ⟨b, j', ran, -⟩ := rel #[] j
  show Results Eq _ (StateT.run ((ExceptT.run x).run #[] >>= fun p =>
    pure (p.1.map fun _ => p.2)) j : Id _).1 _
  rw [StateT.run_bind, ran]
  exact .ok rfl

end Gathering

end Bisection
