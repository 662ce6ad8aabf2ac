import Bisection.Proofs.Alone.Watching
import Bisection.Script.Step

/-!
# Traces of operations

The trace of an operation is what it does on its way: the functions it calls, the facts it reports,
the forks it cuts its work by, and the parts whose failures it waits for, each with the trace of
what is done in it. The halves of a fork stand side by side, so a trace leaves open which of them
goes first. An operation on a window leaves the trace that it leaves on the elements of the window
alone, with all indices greater by where the window starts (`Step.trace_alone`): it cuts the window
where it cuts these elements.
-/

namespace Bisection
set_option autoImplicit false

/-- What a computation does on its way. -/
inductive Trace where
  | done
  | call (arguments : Arguments) (later : Trace)
  | note (n : Notice) (later : Trace)
  /-- Both halves of a fork. -/
  | fork (left right later : Trace)
  /-- A part whose failure is waited for: a leaf of a search, or a call of a scan. -/
  | attempt (part later : Trace)
deriving DecidableEq

namespace Trace

/-- One trace, and behind it another. -/
def append : Trace → Trace → Trace
  | done, t => t
  | call arguments later, t => call arguments (later.append t)
  | note n later, t => note n (later.append t)
  | fork left right later, t => fork left right (later.append t)
  | attempt part later, t => attempt part (later.append t)

/-- The same trace further on. -/
def moved (d : Nat) : Trace → Trace
  | done => done
  | call arguments later => call (arguments.moved d) (later.moved d)
  | note n later => note (n.moved d) (later.moved d)
  | fork left right later => fork (left.moved d) (right.moved d) (later.moved d)
  | attempt part later => attempt (part.moved d) (later.moved d)

@[simp] theorem append_done (t : Trace) : t.append done = t := by
  induction t <;> simp_all [append]

theorem append_assoc (s t u : Trace) : (s.append t).append u = s.append (t.append u) := by
  induction s <;> simp_all [append]

@[simp] theorem moved_append (d : Nat) (s t : Trace) :
    (s.append t).moved d = (s.moved d).append (t.moved d) := by
  induction s <;> simp_all [append, moved]

end Trace

/-- Computations that leave a trace, and may fail. -/
@[ext] structure Traced (β : Type) where
  trace : Trace
  result : Except Abort β

namespace Traced
variable {α β γ : Type}

instance : Monad Traced where
  pure b := ⟨.done, .ok b⟩
  bind x f := match x.result with
    | .error e => ⟨x.trace, .error e⟩
    | .ok b => ⟨x.trace.append (f b).trace, (f b).result⟩

/-- What succeeds leaves its trace, and behind it that of what follows. -/
theorem bind_ok {x : Traced β} {b : β} (ok : x.result = .ok b) (f : β → Traced γ) :
    x >>= f = ⟨x.trace.append (f b).trace, (f b).result⟩ := by
  show (match x.result with | .error e => _ | .ok b => _) = _
  rw [ok]

/-- What fails leaves its own trace. -/
theorem bind_error {x : Traced β} {e : Abort} (failed : x.result = .error e) (f : β → Traced γ) :
    x >>= f = ⟨x.trace, .error e⟩ := by
  show (match x.result with | .error e => _ | .ok b => _) = _
  rw [failed]

instance : LawfulMonad Traced := by
  refine LawfulMonad.mk' _ (fun x => ?_) (fun b f => rfl) fun x f g => ?_
  · show x >>= (fun b => pure b) = x
    cases ran : x.result with
    | error e => rw [bind_error ran, ← ran]
    | ok b => rw [bind_ok ran]; exact Traced.ext (Trace.append_done _) ran.symm
  · cases ran : x.result with
    | error e => rw [bind_error ran, bind_error ran, bind_error rfl]
    | ok b =>
      rw [bind_ok ran, bind_ok ran]
      cases ran' : (f b).result with
      | error e => rw [bind_error rfl, bind_error ran']
      | ok c => rw [bind_ok rfl, bind_ok ran', Trace.append_assoc]

instance : Fork Abort Traced where
  join x y := ⟨.fork x.trace y.trace .done, bothResults x.result y.result⟩
  attempt x := ⟨.attempt x.trace .done, .ok x.result⟩
  raise e := ⟨.done, .error e⟩

instance : Reports Traced where
  note n := ⟨.note n .done, .ok ()⟩

/-- A call that ends with a result or a failure. -/
def call (arguments : Arguments) (r : Except Abort β) : Traced β := ⟨.call arguments .done, r⟩

/-- A callback on an element, traced. -/
def onElement [Element α] (f : α → Except Abort β) (x : α) : Traced β :=
  call (.element (Element.written x)) (f x)

/-- Callbacks that are traced. What a function gives for the elements it visits is not gathered. -/
def caller [Element α] : Caller Traced α where
  onElement := onElement
  onIndex f i := call (.index i) (f i)
  onPair f x y := call (.pair (Element.written x) (Element.written y)) (f x y)
  onEach w f := (fun _ => #[]) <$> w.forEach fun x => (fun _ => ()) <$> onElement f x

/-- Computations that leave the same trace further on, and end alike. -/
def tracking (d : Nat) : Tracking d Traced Traced where
  Rel R x y := x.trace = y.trace.moved d ∧ Results Eq R x.result y.result
  pure related := ⟨rfl, .ok related⟩
  bind {_ _ _ _ R S x y f g} rel next := by
    obtain ⟨t, r⟩ := x
    obtain ⟨t', r'⟩ := y
    obtain ⟨trace, results⟩ := rel
    cases results with
    | error same => exact ⟨trace, .error same⟩
    | ok related =>
      obtain ⟨later, results⟩ := next _ _ related
      exact ⟨(congrArg₂ Trace.append trace later).trans (Trace.moved_append d _ _).symm, results⟩
  expected := Eq
  join left right :=
    ⟨congrArg₂ (Trace.fork · · .done) left.1 right.1, left.2.both right.2⟩
  attempt rel := ⟨congrArg (Trace.attempt · .done) rel.1, .ok rel.2⟩
  raise same := ⟨rfl, .error same⟩
  note n := ⟨rfl, .ok rfl⟩

/-- A call leaves its arguments in the trace, whatever it comes to. -/
theorem rel_call {d : Nat} {arguments arguments' : Arguments} (r : Except Abort β)
    (moved : arguments = arguments'.moved d) :
    (tracking d).Rel Eq (call arguments r) (call arguments' r) :=
  ⟨congrArg (Trace.call · .done) moved, .refl r⟩

/-- Traced callbacks are told the same on both sides, but for the indices. -/
theorem tracks_caller [Element α] (w : Window α) :
    Caller.Tracks (tracking w.lo) (caller : Caller Traced α) caller fun _ => True where
  element _ := rel_call _ rfl
  index _ := rel_call _ rfl
  pair _ := rel_call _ rfl
  each {f} _ := by
    have visit (x : α) : (tracking w.lo).Same (onElement f x) (onElement f x) := rel_call _ rfl
    have visits := Window.tracks_forEach (w := w) fun x => (visit x).map fun _ => ()
    exact visits.map fun _ _ _ => rfl

end Traced

/-! ## Traces of steps -/

section
variable {α : Type} [Element α]

/-- What an operation leaves and finds, and its trace. -/
def Operation.traced (w : Window α) (op : Operation α) : Traced (Window α × Finding α) :=
  op.runWith Traced.caller w

/-- The step on the elements alone: a function of indices is told the greater ones. -/
def Step.moved (d : Nat) : Step α → Step α
  | perform op o => perform (op.moved d) o
  | s => s

/-- The trace of a step that is an operation on a window. -/
def Step.trace (w : Window α) : Step α → Trace
  | perform op _ => (op.traced w).trace
  | map _ f _ _ => (w.map (Traced.onElement f)).trace
  | select p _ _ => (w.select (Traced.onElement p)).trace
  | unique _ _ => (w.unique : Traced _).trace
  | withThreshold _ | bounds _ _ _ => .done

end

end Bisection
