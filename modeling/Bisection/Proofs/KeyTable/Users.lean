import Bisection.Proofs.KeyTable.Probing

/-!
# The users of a table

A user enters an index or looks for a key, step by step. A user that has passed some slots stays
right about them whatever the others do, because a filled slot keeps its key. Each of its own steps
leaves the table placed, and takes the user one step nearer to its end.
-/

namespace Bisection.KeyTable
set_option autoImplicit false

/-- Somebody at a table: an index that is being entered or was, or a key that is looked for or
was. -/
inductive User where
  | entering (index : Nat) (left : Entry)
  | entered (index : Nat)
  | looking (hash : UInt64) (key : Nat → Bool) (slot : Nat)
  | looked (found : Option Nat)

namespace User

/-- Nothing is left to do. -/
def isDone : User → Bool
  | entering _ _ => false
  | entered _ => true
  | looking _ _ _ => false
  | looked _ => true

/-- The index that a user enters. -/
def index? : User → Option Nat
  | entering i _ => some i
  | entered i => some i
  | looking _ _ _ => none
  | looked _ => none

/-- One step of a user. -/
def step (same : Nat → Nat → Bool) (t : KeyTable) : User → KeyTable × User
  | entering i e =>
    match e.step same i t with
    | (t, some e) => (t, entering i e)
    | (t, none) => (t, entered i)
  | entered i => (t, entered i)
  | looking hash key slot =>
    match t.look key slot with
    | .inl found => (t, looked found)
    | .inr slot => (t, looking hash key slot)
  | looked found => (t, looked found)

section
variable (same : Nat → Nat → Bool) (t : KeyTable) (slot : Nat)

/-- Who finds a slot vacant is about to claim it, and decides later whether it still is. -/
theorem step_load (i : Nat) : (entering i (.load slot)).step same t =
    (t, entering i ((t.held slot).elim (.claim slot) (Entry.onHeld same t i slot))) := by
  rw [step, Entry.step]
  cases t.held slot <;> rfl

/-- Who finds a slot filled that was vacant goes on as if it had loaded the index in it. -/
theorem step_claim (i : Nat) : (entering i (.claim slot)).step same t =
    (t.held slot).elim (⟨t.slots.setIfInBounds slot (i + 1)⟩, entered i)
      fun j => (t, entering i (Entry.onHeld same t i slot j)) := by
  rw [step, Entry.step]
  cases t.held slot <;> rfl

theorem step_lower (i : Nat) : (entering i (.lower slot)).step same t =
    (⟨t.slots.modify slot (min (i + 1))⟩, entered i) := rfl

/-- Who looks for a key ends at a vacant slot, or at an index with this key. -/
theorem step_looking (h : UInt64) (key : Nat → Bool) : (looking h key slot).step same t =
    (t, (t.held slot).elim (looked none) fun j =>
      if key j then looked (some j) else looking h key (t.next slot)) := by
  rw [step, look]
  cases t.held slot with
  | none => rfl
  | some j =>
    rw [Option.elim_some]
    dsimp only
    cases key j <;> rfl

end

/-- Who is done stays so. -/
theorem isDone_step {same : Nat → Nat → Bool} {t : KeyTable} {u : User} (done : u.isDone) :
    (u.step same t).2.isDone := by
  cases u with
  | entering i e => cases done
  | entered i => rfl
  | looking h key slot => cases done
  | looked found => rfl

/-- Everybody enters one index only. -/
theorem index?_step (same : Nat → Nat → Bool) (t : KeyTable) (u : User) :
    (u.step same t).2.index? = u.index? := by
  cases u with
  | entering i e =>
    cases e with
    | load slot => rw [step_load]; rfl
    | claim slot =>
      rw [step_claim]
      cases t.held slot <;> rfl
    | lower slot => rfl
  | entered i => rfl
  | looking h key slot =>
    rw [step_looking]
    cases t.held slot with
    | none => rfl
    | some j =>
      rw [Option.elim_some]
      dsimp only
      split <;> rfl
  | looked found => rfl

/-- The slot that the next step looks at, if it is not the one that the last step looked at. -/
def probe? : User → Option Nat
  | entering _ (.load slot) => some slot
  | looking _ _ slot => some slot
  | _ => none

/-- How many steps a user may still take at a table of `n` slots, when `d` is the place of the next
slot that it looks at. -/
def stepsLeft (n d : Nat) : User → Nat
  | entering _ (.load _) => 2 * (n - d) + 1
  | entering _ (.claim _) => 2 * (n - d) + 2
  | entering _ (.lower _) => 1
  | looking _ _ _ => n - d
  | _ => 0

/-- Where a user stands: the next slot that it looks at is the one `d` places ahead of the home of
`h`, and those before it are passed. An index that is entered left one that is not greater. -/
def Stands (same : Nat → Nat → Bool) (hash : Nat → UInt64) (indices : List Nat) (t : KeyTable)
    (h : UInt64) (d : Nat) : User → Prop
  | entering i (.load slot) =>
    i ∈ indices ∧ h = hash i ∧ slot = t.ahead h d ∧ t.Passed (same i) h d
  | entering i (.claim slot) =>
    i ∈ indices ∧ h = hash i ∧ ∃ e, d = e + 1 ∧ slot = t.ahead h e ∧ t.Passed (same i) h e
  | entering i (.lower slot) => i ∈ indices ∧ ∃ j, t.held slot = some j ∧ same i j
  | entered i => i ∈ indices ∧ ∃ s j, t.held s = some j ∧ same i j ∧ j ≤ i
  | looking h' _ slot => h' = h ∧ slot = t.ahead h d ∧ t.Passed (fun _ => false) h d
  | looked _ => True

end User

section
variable {same : Nat → Nat → Bool} {hash : Nat → UInt64} {indices : List Nat}
variable {t t' : KeyTable} {h : UInt64} {d : Nat} {u : User}

/-- A user stays where it stands when others change the table. -/
theorem User.Stands.mono (stands : u.Stands same hash indices t h d) (grows : Grows same t t')
    (keyed : Keyed same hash indices) : u.Stands same hash indices t' h d := by
  cases u with
  | entering i e =>
    have closed := (keyed.oneKey i).closed
    cases e with
    | load slot =>
      obtain ⟨mem, home, at_slot, passed⟩ := stands
      exact ⟨mem, home, grows.ahead_eq ▸ at_slot, passed.mono grows closed⟩
    | claim slot =>
      obtain ⟨mem, home, e, next, at_slot, passed⟩ := stands
      exact ⟨mem, home, e, next, grows.ahead_eq ▸ at_slot, passed.mono grows closed⟩
    | lower slot =>
      obtain ⟨mem, j, held, alike⟩ := stands
      obtain ⟨j', held', -, rfl | alike'⟩ := grows.kept held
      · exact ⟨mem, j', held', alike⟩
      · exact ⟨mem, j', held', keyed.trans alike alike'⟩
  | entered i =>
    obtain ⟨mem, s, j, held, alike, le⟩ := stands
    obtain ⟨j', held', le', rfl | alike'⟩ := grows.kept held
    · exact ⟨mem, s, j', held', alike, le⟩
    · exact ⟨mem, s, j', held', keyed.trans alike alike', Nat.le_trans le' le⟩
  | looking h' key slot =>
    obtain ⟨home, at_slot, passed⟩ := stands
    exact ⟨home, grows.ahead_eq ▸ at_slot, passed.mono grows fun _ _ _ => rfl⟩
  | looked found => trivial

/-- What a step of a user leaves: the table is placed and has grown, and the user has come nearer
to its end, and one slot further if it looked at another. -/
structure Stepped (same : Nat → Nat → Bool) (hash : Nat → UInt64) (indices : List Nat)
    (t : KeyTable) (h : UInt64) (d : Nat) (u : User) (t' : KeyTable) (u' : User) : Prop where
  grows : Grows same t t'
  placed : Placed same hash indices t'
  probes : ∀ s ∈ u.probe?, s = t.ahead h d ∧ d < t.slots.size
  stands : u'.Stands same hash indices t' h (d + u.probe?.toList.length)
  less : u.isDone = false →
    u'.stepsLeft t.slots.size (d + u.probe?.toList.length) < u.stepsLeft t.slots.size d

theorem Grows.refl : Grows same t t := ⟨rfl, fun {_ j} held => ⟨j, held, Nat.le_refl j, .inl rfl⟩⟩

variable (placed : Placed same hash indices t) (keyed : Keyed same hash indices)
include placed keyed

/-- What finding an index in a slot leads to. -/
theorem stands_onHeld {i j : Nat} (mem : i ∈ indices) (passed : t.Passed (same i) (hash i) d)
    (held : t.held (t.ahead (hash i) d) = some j) :
    let u' : User := .entering i (Entry.onHeld same t i (t.ahead (hash i) d) j)
    u'.Stands same hash indices t (hash i) (d + 1) ∧
      u'.stepsLeft t.slots.size (d + 1) ≤ 2 * (t.slots.size - d) - 1 := by
  have inside := placed.lt_of_passed keyed passed
  intro u'
  unfold u' Entry.onHeld
  split
  · next alike =>
    refine ⟨⟨mem, j, held, alike⟩, ?_⟩
    show 1 ≤ _
    omega
  · next other =>
    have other : same i j = false := Bool.not_eq_true _ ▸ other
    refine ⟨⟨mem, rfl, next_ahead placed.pow, passed.succ held other⟩, ?_⟩
    show 2 * (t.slots.size - (d + 1)) + 1 ≤ _
    omega

/-- A look at a slot changes no table. -/
theorem stepped_load {i slot : Nat}
    (stands : (User.entering i (.load slot)).Stands same hash indices t h d) :
    let u : User := .entering i (.load slot)
    Stepped same hash indices t h d u (u.step same t).1 (u.step same t).2 := by
  obtain ⟨mem, rfl, rfl, passed⟩ := stands
  have inside := placed.lt_of_passed keyed passed
  intro u
  unfold u
  rw [User.step_load]
  have probes : ∀ s ∈ u.probe?, s = t.ahead (hash i) d ∧ d < t.slots.size := by
    rintro s ⟨⟩
    exact ⟨rfl, inside⟩
  cases held : t.held (t.ahead (hash i) d) with
  | none =>
    refine ⟨.refl, placed, probes, ⟨mem, rfl, d, rfl, rfl, passed⟩, fun _ => ?_⟩
    show 2 * (t.slots.size - (d + 1)) + 2 < 2 * (t.slots.size - d) + 1
    omega
  | some j =>
    obtain ⟨stands, left⟩ := stands_onHeld placed keyed mem passed held
    refine ⟨.refl, placed, probes, stands, fun _ => Nat.lt_of_le_of_lt left ?_⟩
    show _ < 2 * (t.slots.size - d) + 1
    omega

/-- A claim fills a vacant slot behind slots that are passed, so the table stays placed. -/
theorem stepped_claim {i slot : Nat}
    (stands : (User.entering i (.claim slot)).Stands same hash indices t h d) :
    let u : User := .entering i (.claim slot)
    Stepped same hash indices t h d u (u.step same t).1 (u.step same t).2 := by
  obtain ⟨mem, rfl, e, rfl, rfl, passed⟩ := stands
  have inside := placed.lt_of_passed keyed passed
  intro u
  unfold u
  rw [User.step_claim]
  have probes : ∀ s ∈ u.probe?, s = t.ahead (hash i) (e + 1) ∧ e + 1 < t.slots.size := by
    rintro s ⟨⟩
  cases held : t.held (t.ahead (hash i) e) with
  | none =>
    obtain ⟨grows, placed', held'⟩ := placed.claim keyed mem held passed
    refine ⟨grows, placed', probes, ?_, fun _ => ?_⟩
    · exact ⟨mem, _, i, held', keyed.refl i mem, Nat.le_refl i⟩
    · show 0 < 2 * (t.slots.size - (e + 1)) + 2
      omega
  | some j =>
    obtain ⟨stands, left⟩ := stands_onHeld placed keyed mem passed held
    refine ⟨.refl, placed, probes, stands, fun _ => Nat.lt_of_le_of_lt left ?_⟩
    show _ < 2 * (t.slots.size - (e + 1)) + 2
    omega

/-- A lower index of the same key takes the slot. -/
theorem stepped_lower {i slot : Nat}
    (stands : (User.entering i (.lower slot)).Stands same hash indices t h d) :
    let u : User := .entering i (.lower slot)
    Stepped same hash indices t h d u (u.step same t).1 (u.step same t).2 := by
  obtain ⟨mem, j, held, alike⟩ := stands
  intro u
  unfold u
  rw [User.step_lower]
  obtain ⟨grows, placed', held'⟩ := placed.lower keyed mem held alike
  refine ⟨grows, placed', ?_, ⟨mem, slot, min i j, held', ?_, Nat.min_le_left i j⟩, fun _ => ?_⟩
  · rintro s ⟨⟩
  · rcases Nat.le_total i j with le | le
    · rw [Nat.min_eq_left le]
      exact keyed.refl i mem
    · rw [Nat.min_eq_right le]
      exact alike
  · show 0 < 1
    exact Nat.one_pos

/-- A look for a key changes no table. -/
theorem stepped_looking {h' : UInt64} {key : Nat → Bool} {slot : Nat}
    (stands : (User.looking h' key slot).Stands same hash indices t h d) :
    let u : User := .looking h' key slot
    Stepped same hash indices t h d u (u.step same t).1 (u.step same t).2 := by
  obtain ⟨rfl, rfl, passed⟩ := stands
  have inside := placed.lt_of_passed keyed passed
  intro u
  unfold u
  rw [User.step_looking]
  have probes : ∀ s ∈ u.probe?, s = t.ahead h' d ∧ d < t.slots.size := by
    rintro s ⟨⟩
    exact ⟨rfl, inside⟩
  have ends : 0 < t.slots.size - d := Nat.sub_pos_of_lt inside
  cases held : t.held (t.ahead h' d) with
  | none => exact ⟨.refl, placed, probes, trivial, fun _ => ends⟩
  | some j =>
    cases hj : key j with
    | true =>
      rw [Option.elim_some, if_pos hj]
      exact ⟨.refl, placed, probes, trivial, fun _ => ends⟩
    | false =>
      rw [Option.elim_some, if_neg (by rw [hj]; decide)]
      refine ⟨.refl, placed, probes, ⟨rfl, next_ahead placed.pow, passed.succ held rfl⟩,
        fun _ => ?_⟩
      show t.slots.size - (d + 1) < t.slots.size - d
      omega

/-- Who is not done has a step left. -/
theorem User.Stands.stepsLeft_pos (stands : u.Stands same hash indices t h d)
    (goes : u.isDone = false) : 0 < u.stepsLeft t.slots.size d := by
  cases u with
  | entering i e => cases e <;> exact Nat.succ_pos _
  | looking h' key slot =>
    obtain ⟨-, -, passed⟩ := stands
    exact Nat.sub_pos_of_lt (placed.lt_of_passed keyed passed)
  | entered i => cases goes
  | looked found => cases goes

/-- Two steps for each slot are enough, and one more. -/
theorem User.Stands.stepsLeft_le (stands : u.Stands same hash indices t h d) :
    u.stepsLeft t.slots.size d ≤ 2 * t.slots.size + 1 := by
  cases u with
  | entering i e =>
    cases e with
    | load slot =>
      show 2 * (t.slots.size - d) + 1 ≤ _
      omega
    | claim slot =>
      obtain ⟨-, -, e, rfl, -, passed⟩ := stands
      have inside := placed.lt_of_passed keyed passed
      show 2 * (t.slots.size - (e + 1)) + 2 ≤ _
      omega
    | lower slot =>
      show 1 ≤ _
      omega
  | looking h' key slot =>
    show t.slots.size - d ≤ _
    omega
  | entered i => exact Nat.zero_le _
  | looked found => exact Nat.zero_le _

/-- What the next step of a user leaves. -/
theorem User.Stands.step (stands : u.Stands same hash indices t h d) :
    Stepped same hash indices t h d u (u.step same t).1 (u.step same t).2 := by
  cases u with
  | entering i e =>
    cases e with
    | load slot => exact stepped_load placed keyed stands
    | claim slot => exact stepped_claim placed keyed stands
    | lower slot => exact stepped_lower placed keyed stands
  | looking h' key slot => exact stepped_looking placed keyed stands
  | entered i =>
    refine ⟨.refl, placed, ?_, stands, ?_⟩
    · rintro s ⟨⟩
    · rintro ⟨⟩
  | looked found =>
    refine ⟨.refl, placed, ?_, stands, ?_⟩
    · rintro s ⟨⟩
    · rintro ⟨⟩

end

end Bisection.KeyTable
