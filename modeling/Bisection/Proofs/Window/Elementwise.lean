import Bisection.Element.Kinds
import Bisection.Proofs.Window.Selections
import Bisection.Script.Operation

/-!
# One call for each element

What replaces the elements of a window, or maps them to a new array, calls its function once for
each of them: in some order if the halves of the forks take turns, and from left to right on one
worker. The index that a leaf is given, the elements that it takes from a second operand and the
slots that it writes to are those of its own elements, however the window is cut, so every result
is put where it belongs, and no slot of a new array is left out or written to twice.
-/

namespace Bisection
set_option autoImplicit false

/-! ## Calls -/

/-- Computations with a record, on one worker, that do what those without failures do. -/
def Tracking.recording {ε σ : Type} (d : Nat) : Tracking d (ExceptT ε (StateM σ)) (StateM σ) where
  Rel R x y := ∀ s, ∃ b, x.run.run s = (.ok b, (y.run s).2) ∧ R b (y.run s).1
  pure related _ := ⟨_, rfl, related⟩
  bind {_ _ _ _ R S x y f g} rel next s := by
    obtain ⟨b, ran, related⟩ := rel s
    obtain ⟨c, ran', related'⟩ := next b _ related (y.run s).2
    refine ⟨c, ?_, related'⟩
    show StateT.run (x.run >>= ExceptT.bindCont f) s = _
    rw [StateT.run_bind, ran]
    exact ran'
  expected _ e := nomatch e
  join {_ _ _ _ R S x y x' y'} left right s := by
    obtain ⟨b, ran, related⟩ := left s
    obtain ⟨c, ran', related'⟩ := right (y.run s).2
    refine ⟨(b, c), ?_, related, related'⟩
    show StateT.run (do
      let a ← x.run
      let b ← x'.run
      pure (bothResults a b)) s = _
    rw [StateT.run_bind, ran]
    show StateT.run (do
      let b ← x'.run
      pure (bothResults _ b)) _ = _
    rw [StateT.run_bind, ran']
    rfl
  attempt {_ _ R x y} rel s := by
    obtain ⟨b, ran, related⟩ := rel s
    refine ⟨.ok b, ?_, .ok related⟩
    show StateT.run (Except.ok <$> x.run) s = _
    rw [StateT.run_map, ran]
    rfl
  raise {_ _ _ _ e} _ := nomatch e
  note _ _ := ⟨(), rfl, rfl⟩

/-- A computation calls a function once with each of some arguments and comes to a result: in any
order where the halves of its forks take turns, and in this order on one worker. -/
structure CallsOnce {ι ε β : Type} (args : List ι) (result : β) (together : Concurrent ι ε β)
    (alone : ExceptT ε (StateM (Array ι)) β) : Prop where
  together : together.Always fun calls r => calls.Perm args ∧ r = .ok result
  alone : alone.run.run #[] = (.ok result, args.toArray)

section
variable {ι ε β γ : Type}

theorem CallsOnce.map {args : List ι} {result : β} {x : Concurrent ι ε β}
    {y : ExceptT ε (StateM (Array ι)) β} (calls : CallsOnce args result x y) (g : β → γ) :
    CallsOnce args (g result) (g <$> x) (g <$> y) where
  together := by
    refine (calls.together.map g).mono fun _ r ends => ?_
    obtain ⟨_, ⟨perm, rfl⟩, rfl⟩ := ends
    exact ⟨perm, rfl⟩
  alone := by
    rw [ExceptT.run_map, StateT.run_map, calls.alone]
    rfl

/-- A callback that tells what it is called with. -/
def Concurrent.telling (p : ι → β) (i : ι) : Concurrent ι ε β := .call i (.ok (p i))

/-- A callback that writes down what it is called with. -/
def recording (p : ι → β) (i : ι) : ExceptT ε (StateM (Array ι)) β :=
  ExceptT.lift (Concurrent.noting p i)

theorem records_noting {d : Nat} (p : ι → β) (i : ι) :
    (Tracking.recording (ε := ε) d).Same (recording p i) (Concurrent.noting p i) :=
  fun _ => ⟨p i, rfl, rfl⟩

theorem run_mapM_noting (p : ι → β) (args : List ι) (before : Array ι) :
    (args.mapM (Concurrent.noting p)).run before = (args.map p, before ++ args.toArray) := by
  induction args generalizing before with
  | nil =>
    show ([], before) = ([], before ++ #[])
    rw [Array.append_empty]
  | cons i args ih =>
    have push : before.push i ++ args.toArray = before ++ (i :: args).toArray := by simp
    rw [List.mapM_cons]
    show (p i :: ((args.mapM (Concurrent.noting p)).run (before.push i)).1,
      ((args.mapM (Concurrent.noting p)).run (before.push i)).2) = _
    rw [ih, push]
    rfl

/-- A computation that follows a plain loop makes its calls, in any order and on one worker. -/
theorem callsOnce_of_loop {d d' : Nat} {δ : Type} {R : β → γ → Prop} {p : ι → δ} {args : List ι}
    {result : β} {x : Concurrent ι ε β} {z : ExceptT ε (StateM (Array ι)) β}
    {y : StateM (Array ι) γ} {g : List δ → γ} (gathers : (Concurrent.gathering d).Rel R x y)
    (records : (Tracking.recording d').Rel R z y) (loop : y = g <$> args.mapM (Concurrent.noting p))
    (value : ∀ b, R b (g (args.map p)) → b = result) : CallsOnce args result x z := by
  have plain : y.run #[] = (g (args.map p), args.toArray) := by
    rw [loop, StateT.run_map, run_mapM_noting, Array.empty_append]
    rfl
  constructor
  case together =>
    refine ⟨gathers.1, fun calls r run => ?_⟩
    obtain ⟨b, rfl, gathered⟩ := gathers.2 calls r run
    obtain ⟨related, perm⟩ := gathered #[]
    rw [plain] at related perm
    exact ⟨perm.symm, congrArg Except.ok (value b related)⟩
  case alone =>
    obtain ⟨b, ran, related⟩ := records #[]
    rw [plain] at ran related
    rw [ran, value b related]

end

namespace Window

section
variable {ε α β γ : Type} (w : Window α)

/-! ## What is replaced -/

/-- The elements of a window are replaced by others, each by one that is as it has to be at its
index, and nothing else is changed. -/
structure Replaced (w after : Window α) (becomes : Nat → α → Prop) : Prop where
  bounds : after.lo = w.lo ∧ after.hi = w.hi ∧ after.array.size = w.array.size
  settings : after.array.pool = w.array.pool ∧ after.array.threshold = w.array.threshold
  inside : ∀ i, w.lo ≤ i → i < w.hi → ∃ y, after.get? i = some y ∧ becomes i y
  outside : ∀ i, ¬ (w.lo ≤ i ∧ i < w.hi) → after.get? i = w.get? i

theorem replaced_refill {xs : Array α} (size : xs.size = w.size) {becomes : Nat → α → Prop}
    (each : ∀ k < w.size, ∃ y, xs[k]? = some y ∧ becomes (w.lo + k) y) :
    w.Replaced (w.refill xs) becomes where
  bounds := by
    have within : w.hi ≤ w.array.store.size := w.hi_le_size
    have order := w.lo_le_hi
    have hi : w.lo + xs.size = w.hi := by rw [size, lo_add_size]
    have length : min w.lo w.array.store.size + xs.size + (w.array.store.size - w.hi) =
        w.array.store.size := by omega
    exact ⟨rfl, hi, (Store.size_splice ..).trans length⟩
  settings := ⟨rfl, rfl⟩
  inside i above below := by
    obtain ⟨y, here, becomes⟩ := each (i - w.lo) (Nat.sub_lt_sub_right above below)
    rw [Nat.add_sub_cancel' above] at becomes
    rw [w.get?_refill size, if_pos ⟨above, below⟩]
    exact ⟨y, here, becomes⟩
  outside i away := by rw [w.get?_refill size, if_neg away]

theorem exists_getElem?_upTo {k : Nat} (inside : k < w.size) :
    ∃ x, (w.upTo w.hi)[k]? = some x ∧ w.get? (w.lo + k) = some x := by
  obtain ⟨x, here⟩ := w.exists_get? (Nat.add_lt_of_lt_sub' inside)
  exact ⟨x, (w.getElem?_upTo_add inside).trans here, here⟩

/-! ## By the index -/

theorem replaceWithIndex_id (f : Nat → α) : w.replaceWithIndex (m := Id) f =
    w.refill ((List.range' w.lo w.size).map f).toArray := by
  rw [replaceWithIndex_loop (fun _ => rfl), mapM_id]
  rfl

theorem callsOnce_replaceWithIndex (f : Nat → α) :
    CallsOnce (List.range' w.lo w.size) (w.replaceWithIndex (m := Id) f)
      (w.replaceWithIndex (Concurrent.telling f) : Concurrent Nat ε (Window α))
      (w.replaceWithIndex (recording f)) := by
  let further (i : Nat) : StateM (Array Nat) α := Concurrent.noting f (w.lo + i)
  have gathers : (Concurrent.gathering w.lo).Rel w.Left
      (w.replaceWithIndex (Concurrent.telling f) : Concurrent Nat ε (Window α)) _ :=
    tracks_replaceWithIndex (g := further) fun i => Concurrent.gathers_noting f (w.lo + i)
  have records : (Tracking.recording w.lo).Rel w.Left
      (w.replaceWithIndex (recording f) : ExceptT ε _ (Window α)) _ :=
    tracks_replaceWithIndex (g := further) fun i => records_noting f (w.lo + i)
  have loop : w.alone.whole.replaceWithIndex further =
      (fun ys => w.alone.whole.refill ys.toArray) <$>
        (List.range' w.lo w.size).mapM (Concurrent.noting f) := by
    rw [replaceWithIndex_loop (fun _ => rfl), size_alone, indices_alone, List.mapM_map]
    rfl
  refine callsOnce_of_loop gathers records loop fun w' left => ?_
  rw [eq_refill_of_left left, elems_refill, replaceWithIndex_id]

theorem replaced_replaceWithIndex (f : Nat → α) :
    w.Replaced (w.replaceWithIndex (m := Id) f) fun i y => y = f i := by
  rw [replaceWithIndex_id]
  refine w.replaced_refill ?_ fun k inside => ⟨_, ?_, rfl⟩
  · rw [List.size_toArray, List.length_map, List.length_range']
  · rw [List.getElem?_toArray, List.getElem?_map, List.getElem?_range' inside, Nat.one_mul]
    rfl

/-! ## With a second operand -/

section
variable {other : Store β} (enough : w.size ≤ other.size)
include enough

/-- The elements of a window after each was combined with the one in its place in the operand. -/
def combined (other : Store β) (f : α → β → α) : Window α :=
  w.refill (((w.upTo w.hi).zip other.toList).map fun p => f p.1 p.2).toArray

theorem replaceWithCombined_id (f : α → β → α) :
    w.replaceWithCombined (m := Id) other f = .ok (w.combined other f) := by
  rw [replaceWithCombined_loop (fun _ => rfl) _ enough, mapM_id]
  rfl

theorem callsOnce_replaceWithCombined (f : α → β → α) :
    CallsOnce ((w.upTo w.hi).zip other.toList) (.ok (w.combined other f))
      (w.replaceWithCombined other fun x y => .telling (fun p => f p.1 p.2) (x, y) :
        Concurrent (α × β) ε (Except Failure (Window α)))
      (w.replaceWithCombined other fun x y => recording (fun p => f p.1 p.2) (x, y)) := by
  let pair (p : α × β) : α := f p.1 p.2
  let note (x : α) (y : β) : StateM (Array (α × β)) α := Concurrent.noting pair (x, y)
  have gathers : (Concurrent.gathering w.lo).Rel (Results Eq w.Left)
      (w.replaceWithCombined other fun x y => .telling pair (x, y) :
        Concurrent (α × β) ε (Except Failure (Window α))) _ :=
    tracks_replaceWithCombined (g := note) fun x y => Concurrent.gathers_noting pair (x, y)
  have records : (Tracking.recording w.lo).Rel (Results Eq w.Left)
      (w.replaceWithCombined other fun x y => recording pair (x, y) :
        ExceptT ε _ (Except Failure (Window α))) _ :=
    tracks_replaceWithCombined (g := note) fun x y => records_noting pair (x, y)
  have loop : w.alone.whole.replaceWithCombined other note =
      (fun ys => .ok (w.alone.whole.refill ys.toArray)) <$>
        ((w.upTo w.hi).zip other.toList).mapM (Concurrent.noting pair) := by
    have enough' : w.alone.whole.size ≤ other.size := by rwa [size_alone]
    rw [replaceWithCombined_loop (fun _ => rfl) _ enough', upTo_alone]
  refine callsOnce_of_loop gathers records loop fun r results => ?_
  cases results with
  | ok left =>
    rw [eq_refill_of_left left, elems_refill]
    rfl

theorem replaced_combined (f : α → β → α) : w.Replaced (w.combined other f) fun i z =>
    ∃ x y, w.get? i = some x ∧ other.get? (i - w.lo) = some y ∧ z = f x y := by
  have few : (w.upTo w.hi).length ≤ other.toList.length := by
    rwa [length_upTo, Store.length_toList]
  refine w.replaced_refill ?_ fun k inside => ?_
  · rw [List.size_toArray, List.length_map, List.length_zip, Nat.min_eq_left few, length_upTo]
  · obtain ⟨x, elem, here⟩ := w.exists_getElem?_upTo inside
    obtain ⟨y, there⟩ := other.exists_get? (Nat.lt_of_lt_of_le inside enough)
    have pair : ((w.upTo w.hi).zip other.toList)[k]? = some (x, y) :=
      List.getElem?_zip_eq_some.mpr ⟨elem, (other.getElem?_toList k).trans there⟩
    refine ⟨f x y, ?_, x, y, here, ?_, rfl⟩
    · rw [List.getElem?_toArray, List.getElem?_map, pair]
      rfl
    · rw [Nat.add_sub_cancel_left, there]

end

/-- What the operand has beyond the length of the window is not looked at. -/
theorem replaceWithCombined_slice {m : Type → Type} [Monad m] [Fork ε m] [Reports m]
    {other : Store β} (enough : w.size ≤ other.size) (f : α → β → m α) :
    w.replaceWithCombined (other.slice 0 w.size) f = w.replaceWithCombined other f := by
  have size : (other.slice 0 w.size).size = w.size := by
    rw [Store.size_slice, Nat.min_eq_left enough, Nat.sub_zero]
  have again : (other.slice 0 w.size).slice 0 w.size = other.slice 0 w.size := by
    rw [Store.slice_slice, Nat.zero_add, Nat.zero_add, Nat.min_self]
  rw [replaceWithCombined, replaceWithCombined, size, again, if_neg (Nat.lt_irrefl _),
    if_neg (Nat.not_lt.mpr enough)]

/-! ## To a new array -/

/-- An array has what a function gives for each element of a window, and the settings of its
array. -/
structure Mapped (f : α → γ) (out : BulkArray γ) : Prop where
  settings : out.pool = w.array.pool ∧ out.threshold = w.array.threshold
  size : out.size = w.size
  elems : ∀ k < w.size, ∃ x, w.get? (w.lo + k) = some x ∧ out.store.get? k = some (f x)

theorem length_map_upTo (f : α → γ) : ((w.upTo w.hi).map f).length = w.size := by
  rw [List.length_map, length_upTo]

/-- The writes to the slots of a new array. -/
def slotWrites (f : α → γ) : Array (Nat × γ) :=
  ((List.range w.size).zip ((w.upTo w.hi).map f)).toArray

theorem callsOnce_transfers (t : Threshold) (f : α → γ) :
    CallsOnce (w.upTo w.hi) (w.slotWrites f)
      (w.transfers t (Concurrent.telling f) : Concurrent α ε (Array (Nat × γ)))
      (w.transfers t (recording f)) := by
  have gathers : (Concurrent.gathering w.lo).Rel Eq
      (w.transfers t (Concurrent.telling f) : Concurrent α ε (Array (Nat × γ))) _ :=
    tracks_transfers t (Concurrent.gathers_noting f)
  have records : (Tracking.recording w.lo).Rel Eq
      (w.transfers t (recording f) : ExceptT ε _ (Array (Nat × γ))) _ :=
    tracks_transfers t (records_noting f)
  have loop := w.alone.whole.transfers_loop t (Concurrent.noting f)
  rw [upTo_alone, size_alone] at loop
  exact callsOnce_of_loop gathers records loop fun writes eq => eq

/-- Each slot is written to once, for the element in its place. -/
theorem writeAll_slotWrites (f : α → γ) : (w.slotWrites f).toList.map Prod.fst = List.range w.size ∧
    (writeAll (w.slotWrites f) (Array.replicate w.size none)).toList =
      ((w.upTo w.hi).map f).map some := by
  refine ⟨?_, writeAll_range (w.length_map_upTo f)⟩
  rw [slotWrites, List.map_fst_zip]
  rw [List.length_range, length_map_upTo]

/-- The array that is mapped to. -/
def image (f : α → γ) : BulkArray γ := w.array.derive (filled w.size (w.slotWrites f))

theorem toList_image (f : α → γ) : (w.image f).toList = (w.upTo w.hi).map f :=
  congrArg Array.toList (filled_range (w.length_map_upTo f))

/-- A map with room for its array calls its function once for each element. -/
theorem callsOnce_map [RoomFailure ε] [Cell γ] (room : hasRoom w.size (Cell.bytes γ))
    (f : α → γ) :
    CallsOnce (w.upTo w.hi) (w.image f)
      (w.map (Concurrent.telling f) : Concurrent α ε (BulkArray γ)) (w.map (recording f)) := by
  have calls := (w.callsOnce_transfers (ε := ε) (w.array.leafThreshold w.size) f).map fun writes =>
    w.array.derive (filled w.size writes)
  rw [map, map, begin_silent fun _ => rfl, begin_silent fun _ => rfl, pure_bind, pure_bind,
    claimRoom_of_room room, claimRoom_of_room room, pure_bind, pure_bind, ← map_eq_pure_bind,
    ← map_eq_pure_bind]
  exact calls

theorem mapped_image (f : α → γ) : w.Mapped f (w.image f) := by
  refine ⟨⟨rfl, rfl⟩, ?_, fun k inside => ?_⟩
  · have length := (w.image f).store.length_toList
    exact length.symm.trans ((congrArg List.length (w.toList_image f)).trans (w.length_map_upTo f))
  · obtain ⟨x, elem, here⟩ := w.exists_getElem?_upTo inside
    refine ⟨x, here, ?_⟩
    rw [← Store.getElem?_toList]
    show (w.image f).toList[k]? = _
    rw [toList_image, List.getElem?_map, elem]
    rfl

end

/-- With any threshold and any number of workers, each element is replaced by what the function
gives for its index, or for it and the element in the same place of a second operand, and a new
array, if there is room for it, has what the function gives for the elements in their order. The
function is called once for each of them, on one worker from left to right, and what is outside the
window stays. With an operand that is too short it is not called, and nothing is changed. Nor is it
called without room for the new array. Each slot of the new array is written to once. -/
theorem elementwise {ε α β γ : Type} [RoomFailure ε] [Cell γ] (w : Window α) :
    (∀ f : Nat → α,
      let after : Window α := w.replaceWithIndex (m := Id) f
      w.Replaced after (fun i y => y = f i) ∧
      CallsOnce (List.range' w.lo w.size) after
        (w.replaceWithIndex (.telling f) : Concurrent Nat ε (Window α))
        (w.replaceWithIndex (recording f))) ∧
    (∀ (other : Store β) (f : α → β → α), w.size ≤ other.size → ∃ after : Window α,
      w.replaceWithCombined (m := Id) other f = .ok after ∧
      w.Replaced after (fun i z =>
        ∃ x y, w.get? i = some x ∧ other.get? (i - w.lo) = some y ∧ z = f x y) ∧
      CallsOnce ((w.upTo w.hi).zip other.toList) (.ok after)
        (w.replaceWithCombined other fun x y => .telling (fun p => f p.1 p.2) (x, y) :
          Concurrent (α × β) ε (Except Failure (Window α)))
        (w.replaceWithCombined other fun x y => recording (fun p => f p.1 p.2) (x, y)) ∧
      ∀ {ε' : Type} {m : Type → Type} [Monad m] [Fork ε' m] [Reports m] (g : α → β → m α),
        w.replaceWithCombined (other.slice 0 w.size) g = w.replaceWithCombined other g) ∧
    (∀ other : Store β, other.size < w.size →
      ∀ {ε' : Type} {m : Type → Type} [Monad m] [LawfulMonad m] [Fork ε' m] [Reports m]
        (g : α → β → m α),
        w.replaceWithCombined other g = pure (.error (.lengthMismatch w.size other.size)) ∧
        Operation.settle w <$> w.replaceWithCombined other g =
          pure (w, .refused (.lengthMismatch w.size other.size))) ∧
    ∀ f : α → γ, ∃ (out : BulkArray γ) (writes : Array (Nat × γ)), w.Mapped f out ∧
      (hasRoom w.size (Cell.bytes γ) = true →
        CallsOnce (w.upTo w.hi) out (w.map (.telling f) : Concurrent α ε (BulkArray γ))
          (w.map (recording f))) ∧
      (hasRoom w.size (Cell.bytes γ) = false →
        (w.map (.telling f) : Concurrent α ε (BulkArray γ)).Always fun calls r =>
          calls = [] ∧ r = .error RoomFailure.noRoom) ∧
      (∀ t, CallsOnce (w.upTo w.hi) writes
        (w.transfers t (.telling f) : Concurrent α ε (Array (Nat × γ)))
        (w.transfers t (recording f))) ∧
      writes.toList.map Prod.fst = List.range w.size ∧
      (writeAll writes (Array.replicate w.size none)).toList = out.toList.map some := by
  refine ⟨fun f => ?index, fun other f enough => ?combined, fun other short => ?refused,
    fun f => ⟨w.image f, w.slotWrites f, w.mapped_image f, fun room => w.callsOnce_map room f,
      fun short => ?lacking, fun t => w.callsOnce_transfers t f, ?slots⟩⟩
  case index => exact ⟨w.replaced_replaceWithIndex f, w.callsOnce_replaceWithIndex f⟩
  case combined =>
    exact ⟨_, w.replaceWithCombined_id enough f, w.replaced_combined enough f,
      w.callsOnce_replaceWithCombined enough f, fun g => w.replaceWithCombined_slice enough g⟩
  case refused =>
    intro _ m _ _ _ _ g
    have refused : w.replaceWithCombined other g = pure (.error _) := if_pos short
    refine ⟨refused, ?_⟩
    rw [refused, map_pure]
    rfl
  case lacking =>
    rw [w.map_of_no_room (fun _ => rfl) short]
    exact Concurrent.always_ends ⟨rfl, rfl⟩
  case slots =>
    obtain ⟨once, slots⟩ := w.writeAll_slotWrites f
    exact ⟨once, slots.trans (congrArg _ (w.toList_image f).symm)⟩

/-- The numbers of a window are added to those of an operand that is longer, and an operand that is
shorter is refused. -/
theorem elementwise_sums :
    let w : Window Nat := ⟨⟨default, none, .cells #[1, 2, 3, 4]⟩, 1, 3, by decide, by decide⟩
    let long : Store Nat := .cells #[10, 20, 30]
    let short : Store Nat := .cells #[10]
    (∃ after : Window Nat, w.replaceWithCombined (m := Id) long Nat.add = .ok after ∧
      after.get? 0 = some 1 ∧ after.get? 1 = some 12 ∧ after.get? 3 = some 4) ∧
    w.replaceWithCombined (m := Id) short Nat.add = .error (.lengthMismatch 2 1) := by
  intro w long short
  obtain ⟨-, combines, refuses, -⟩ := elementwise (ε := Abort) (β := Nat) (γ := String) w
  obtain ⟨after, ok, replaced, -⟩ := combines long Nat.add (by decide)
  refine ⟨⟨after, ok, replaced.outside 0 (by decide), ?_, replaced.outside 3 (by decide)⟩,
    (refuses short (by decide) _).1⟩
  obtain ⟨z, here, x, y, elem, operand, rfl⟩ := replaced.inside 1 (by decide) (by decide)
  cases elem
  cases operand
  exact here

/-- There is no room for a text for each of so many units: to map them to texts gives no array, and
asks for none of the texts. -/
theorem map_lacks_room :
    let w := countless
    (w.map (.telling fun _ => "unit") : Concurrent Unit Abort (BulkArray String)).Always
      fun calls r => ¬ calls.Perm (w.upTo w.hi) ∧
        ¬ ∃ out, r = .ok out ∧ w.Mapped (fun _ => "unit") out := by
  intro w
  have short : hasRoom w.size (Cell.bytes String) = false := by decide
  rw [w.map_of_no_room (fun _ => rfl) short]
  refine Concurrent.always_ends ⟨fun perm => ?_, fun ⟨_, fails, _⟩ => nomatch fails⟩
  have none : 0 = w.size := perm.length_eq.trans w.length_upTo
  exact absurd none (by decide)

end Window

end Bisection
