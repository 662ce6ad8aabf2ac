import Bisection.Log.Notice
import Bisection.Pieces
import Bisection.Room

/-!
# Computations that do the same further on

The operations on a window are written over any monad with forks and notices. A `Tracking` says
for two such monads when a computation of one does what a computation of the other does, with all
indices greater by `d`: they run the same forks, fail alike, and report the same facts `d` places
further on. Loops and bisections keep to that if their bodies do. Often the results are to be the
same on both sides (`Likeness.Same`).
-/

namespace Bisection
set_option autoImplicit false

/-- The notice of the same fact, `d` places further on. A scan counts from the start of its own
range, so its notices stay as they are. -/
def Notice.moved (d : Nat) : Notice → Notice
  | .selected kept lo hi => .selected kept (d + lo) (d + hi)
  | .found i stored => .found (d + i) stored
  | .skipping lo hi => .skipping (d + lo) (d + hi)
  | n => n

/-- Two results that are related, or two failures that are. -/
inductive Results {ε ε' β γ : Type} (expected : ε → ε' → Prop) (R : β → γ → Prop) :
    Except ε β → Except ε' γ → Prop where
  | ok {b : β} {c : γ} (related : R b c) : Results expected R (.ok b) (.ok c)
  | error {e : ε} {e' : ε'} (are_expected : expected e e') :
    Results expected R (.error e) (.error e')

theorem Results.refl {ε β : Type} (r : Except ε β) : Results Eq Eq r r := by
  cases r with
  | error e => exact .error rfl
  | ok b => exact .ok rfl

/-- Related by equality, results and failures are the same. -/
theorem Results.eq {ε β : Type} {r s : Except ε β} (same : Results Eq Eq r s) : r = s := by
  cases same with
  | error eq => rw [eq]
  | ok eq => rw [eq]

theorem Results.both {ε ε' β γ β' γ' : Type} {expected : ε → ε' → Prop} {R : β → γ → Prop}
    {S : β' → γ' → Prop} {r : Except ε β} {s : Except ε' γ} {r' : Except ε β'} {s' : Except ε' γ'}
    (left : Results expected R r s) (right : Results expected S r' s') :
    Results expected (fun p q => R p.1 q.1 ∧ S p.2 q.2) (bothResults r r') (bothResults s s') := by
  cases left with
  | error failures => exact .error failures
  | ok related =>
    cases right with
    | error failures => exact .error failures
    | ok related' => exact .ok ⟨related, related'⟩

/-- A relation between the computations of two monads for each relation between their results. -/
structure Likeness (m m' : Type → Type) [Monad m] [LawfulMonad m] [Monad m'] [LawfulMonad m'] where
  Rel {β γ : Type} : (β → γ → Prop) → m β → m' γ → Prop
  pure {β γ : Type} {R : β → γ → Prop} {b : β} {c : γ} : R b c → Rel R (pure b) (pure c)
  bind {β γ β' γ' : Type} {R : β → γ → Prop} {S : β' → γ' → Prop} {x : m β} {y : m' γ}
    {f : β → m β'} {g : γ → m' γ'} :
    Rel R x y → (∀ b c, R b c → Rel S (f b) (g c)) → Rel S (x >>= f) (y >>= g)

/-- A relator that forks and notices respect, where notices tell of indices that are greater
by `d` on the left side. Related computations only fail in ways that are expected. -/
structure Tracking (d : Nat) {ε ε' : Type} (m m' : Type → Type) [Monad m] [LawfulMonad m]
    [Fork ε m] [Reports m] [Monad m'] [LawfulMonad m'] [Fork ε' m'] [Reports m'] extends
    Likeness m m' where
  expected : ε → ε' → Prop
  join {β γ β' γ' : Type} {R : β → γ → Prop} {S : β' → γ' → Prop} {x : m β} {y : m' γ}
    {x' : m β'} {y' : m' γ'} : Rel R x y → Rel S x' y' →
    Rel (fun p q => R p.1 q.1 ∧ S p.2 q.2) (Fork.join x x') (Fork.join y y')
  attempt {β γ : Type} {R : β → γ → Prop} {x : m β} {y : m' γ} :
    Rel R x y → Rel (Results expected R) (Fork.attempt x) (Fork.attempt y)
  raise {β γ : Type} {R : β → γ → Prop} {e : ε} {e' : ε'} :
    expected e e' → Rel R (Fork.raise e) (Fork.raise e')
  note (n : Notice) : Rel Eq (Reports.note (n.moved d)) (Reports.note n)

section
variable {β γ β' γ' : Type} {m m' : Type → Type} [Monad m] [LawfulMonad m] [Monad m']
  [LawfulMonad m'] {ρ : Likeness m m'}

/-- Computations that come to the same result. -/
def Likeness.Same (ρ : Likeness m m') (x : m β) (y : m' β) : Prop := ρ.Rel Eq x y

namespace Likeness

theorem Rel.bind_same {S : β' → γ' → Prop} {x : m β} {y : m' β} {f : β → m β'} {g : β → m' γ'}
    (rel : ρ.Rel Eq x y) (next : ∀ b, ρ.Rel S (f b) (g b)) : ρ.Rel S (x >>= f) (y >>= g) := by
  refine ρ.bind rel fun b c eq => ?_
  subst eq
  exact next b

theorem Same.pure (b : β) : ρ.Same (Pure.pure b) (Pure.pure b) := ρ.pure rfl

theorem Same.bind {x : m β} {y : m' β} {f : β → m γ} {g : β → m' γ} (same : ρ.Same x y)
    (next : ∀ b, ρ.Same (f b) (g b)) : ρ.Same (x >>= f) (y >>= g) :=
  Rel.bind_same same next

theorem Rel.map {R : β → γ → Prop} {S : β' → γ' → Prop} {x : m β} {y : m' γ} {f : β → β'}
    {g : γ → γ'} (rel : ρ.Rel R x y) (results : ∀ b c, R b c → S (f b) (g c)) :
    ρ.Rel S (f <$> x) (g <$> y) := by
  rw [map_eq_pure_bind, map_eq_pure_bind]
  exact ρ.bind rel fun b c related => ρ.pure (results b c related)

theorem Rel.mono {R S : β → γ → Prop} {x : m β} {y : m' γ} (rel : ρ.Rel R x y)
    (weaker : ∀ b c, R b c → S b c) : ρ.Rel S x y := by
  rw [← id_map x, ← id_map y]
  exact rel.map weaker

theorem Same.map {x : m β} {y : m' β} (same : ρ.Same x y) (f : β → γ) :
    ρ.Same (f <$> x) (f <$> y) :=
  Rel.map same fun _ _ => congrArg f

end Likeness

/-- Loops over a list whose rounds keep an invariant, which may depend on how many there were. -/
theorem Likeness.foldlM {α : Type} (I : Nat → β → γ → Prop) {f : β → α → m β} {g : γ → α → m' γ}
    (round : ∀ k b c x, I k b c → ρ.Rel (I (k + 1)) (f b x) (g c x)) (xs : List α) {b : β} {c : γ}
    (start : I 0 b c) : ρ.Rel (I xs.length) (xs.foldlM f b) (xs.foldlM g c) := by
  induction xs generalizing I b c with
  | nil => exact ρ.pure start
  | cons x xs ih =>
    rw [List.foldlM_cons, List.foldlM_cons]
    exact ρ.bind (round 0 b c x start) fun b c related =>
      ih (fun k => I (k + 1)) (fun k => round (k + 1)) related

/-- Loops whose rounds come to the same. -/
theorem Likeness.Same.foldlM {α : Type} {f : β → α → m β} {g : β → α → m' β}
    (round : ∀ b x, ρ.Same (f b x) (g b x)) (xs : List α) (b : β) :
    ρ.Same (xs.foldlM f b) (xs.foldlM g b) := by
  refine ρ.foldlM (fun _ => Eq) (fun k b c x eq => ?_) xs rfl
  subst eq
  exact round b x

/-- Loops over a store whose rounds keep an invariant. -/
theorem Likeness.foldStore {α : Type} (I : Nat → β → γ → Prop) {f : β → α → m β}
    {g : γ → α → m' γ} (round : ∀ k b c x, I k b c → ρ.Rel (I (k + 1)) (f b x) (g c x))
    (s : Store α) {b : β} {c : γ} (start : I 0 b c) :
    ρ.Rel (I s.size) (s.foldlM f b) (s.foldlM g c) := by
  rw [Store.foldlM_eq_foldlM_toList, Store.foldlM_eq_foldlM_toList, ← Store.length_toList]
  exact ρ.foldlM I round s.toList start

theorem Likeness.Same.foldStore {α : Type} {f : β → α → m β} {g : β → α → m' β}
    (round : ∀ b x, ρ.Same (f b x) (g b x)) (s : Store α) (b : β) :
    ρ.Same (s.foldlM f b) (s.foldlM g b) := by
  rw [Store.foldlM_eq_foldlM_toList, Store.foldlM_eq_foldlM_toList]
  exact Same.foldlM round s.toList b

end

/-- Pieces whose parts are as long as where they are cut. -/
class LawfulPiece (π : Type) [Piece π] : Prop where
  size_cut (p : π) {k : Nat} : k ≤ Piece.size p →
    Piece.size (Piece.cut p k).1 = k ∧ Piece.size (Piece.cut p k).2 = Piece.size p - k

instance {α : Type} : LawfulPiece (Store α) where
  size_cut s k le := by
    simp only [Piece.size, Piece.cut, Store.size_slice] at le ⊢
    omega

instance : LawfulPiece Span where
  size_cut s k le := by
    simp only [Piece.size, Piece.cut, Span.size] at le ⊢
    omega

instance {π ρ : Type} [Piece π] [Piece ρ] [LawfulPiece π] : LawfulPiece (π × ρ) where
  size_cut p _ le := LawfulPiece.size_cut p.1 le

namespace Tracking

section
variable {ε ε' β γ β' γ' : Type} {m m' : Type → Type} [Monad m] [LawfulMonad m] [Fork ε m]
  [Reports m] [Monad m'] [LawfulMonad m'] [Fork ε' m'] [Reports m'] {d : Nat} {T : Tracking d m m'}

theorem same_join {x : m β} {y : m γ} {x' : m' β} {y' : m' γ} (left : T.Same x x')
    (right : T.Same y y') : T.Same (Fork.join x y) (Fork.join x' y') :=
  (T.join left right).mono fun _ _ related => Prod.ext related.1 related.2

/-- What fails in an expected way does not come to what is after it. -/
theorem rel_raise {R : β' → γ' → Prop} {e : ε} {e' : ε'} (expected : T.expected e e')
    {f : β → m β'} {g : γ → m' γ'} : T.Rel R (Fork.raise e >>= f) (Fork.raise e' >>= g) :=
  T.bind (R := fun _ _ => False) (T.raise expected) nofun

/-- Computations that claim the same room do the same if there is room, or are expected to fail. -/
theorem rel_claimRoom [RoomFailure ε] [RoomFailure ε'] {R : β' → γ' → Prop} {cells bytes : Nat}
    (lacking : hasRoom cells bytes = false → T.expected RoomFailure.noRoom RoomFailure.noRoom)
    {f : Unit → m β'} {g : Unit → m' γ'} (next : hasRoom cells bytes → T.Rel R (f ()) (g ())) :
    T.Rel R (claimRoom cells bytes >>= f) (claimRoom cells bytes >>= g) := by
  cases room : hasRoom cells bytes with
  | true =>
    rw [claimRoom_of_room room, claimRoom_of_room room, pure_bind, pure_bind]
    exact next room
  | false =>
    rw [claimRoom_of_no_room room, claimRoom_of_no_room room]
    exact rel_raise (lacking room)

end

section
variable {ε ε' β γ : Type} {m m' : Type → Type} [Monad m] [LawfulMonad m] [Fork ε m] [Reports m]
  [Monad m'] [LawfulMonad m'] [Fork ε' m'] [Reports m'] {d : Nat} {T : Tracking d m m'} {π : Type}
  [Piece π] [LawfulPiece π] {R : Nat → β → γ → Prop} {t : Threshold} {leaf : π → Nat → m β}
  {leaf' : π → Nat → m' γ} {combine : β → β → m β} {combine' : γ → γ → m' γ}

theorem forkPiecesGo
    (onLeaf : ∀ piece lo, T.Rel (R (Piece.size piece)) (leaf piece (d + lo)) (leaf' piece lo))
    (onJoin : ∀ {k l b b' c c'}, R k b c → R l b' c' →
      T.Rel (R (k + l)) (combine b b') (combine' c c')) {n : Nat} (piece : π)
    (size : Piece.size piece = n) (lo : Nat) :
    T.Rel (R n) (forkPieces.go t leaf combine n piece (d + lo))
      (forkPieces.go t leaf' combine' n piece lo) := by
  induction n using Nat.strongRecOn generalizing lo piece with
  | ind n ih =>
    by_cases h : n ≤ t.val
    · rw [forkPieces.go, dif_pos h, forkPieces.go, dif_pos h]
      exact size ▸ onLeaf piece lo
    · have two := Threshold.two_le h
      have whole : n / 2 + (n - n / 2) = n := by omega
      obtain ⟨sizeLeft, sizeRight⟩ := LawfulPiece.size_cut piece (k := n / 2) (by omega)
      have left := ih (n / 2) (by omega) _ sizeLeft lo
      have right := ih (n - n / 2) (by omega) _ (size ▸ sizeRight) (lo + n / 2)
      rw [← Nat.add_assoc] at right
      rw [forkPieces.go, dif_neg h, forkPieces.go, dif_neg h]
      refine T.bind (T.join left right) fun p q related => ?_
      have joined := onJoin related.1 related.2
      rwa [whole] at joined

/-- Bisections cut the same parts, and come to related results if their leaves do. The relation
may depend on the length of the part. -/
theorem forkPieces
    (onLeaf : ∀ piece lo, T.Rel (R (Piece.size piece)) (leaf piece (d + lo)) (leaf' piece lo))
    (onJoin : ∀ {k l b b' c c'}, R k b c → R l b' c' →
      T.Rel (R (k + l)) (combine b b') (combine' c c')) (piece : π) :
    T.Rel (R (Piece.size piece)) (Bisection.forkPieces t leaf combine piece d)
      (Bisection.forkPieces t leaf' combine' piece 0) :=
  forkPiecesGo onLeaf onJoin piece rfl 0

/-- Bisections whose leaves are not told where they are. -/
theorem same_forkPieces {leaf : π → m β} {leaf' : π → m' β} {combine : β → β → m β}
    {combine' : β → β → m' β} (onLeaf : ∀ piece, T.Same (leaf piece) (leaf' piece))
    (onJoin : ∀ x y, T.Same (combine x y) (combine' x y)) (piece : π) :
    T.Rel Eq (Bisection.forkPieces t (fun piece _ => leaf piece) combine piece d)
      (Bisection.forkPieces t (fun piece _ => leaf' piece) combine' piece 0) := by
  refine T.forkPieces (R := fun _ => Eq) ?_ ?_ piece
  · exact fun piece _ => onLeaf piece
  · rintro _ _ x y _ _ rfl rfl
    exact onJoin x y

end

end Tracking

/-- Plain values, which fork and report nothing. -/
def Tracking.plain (d : Nat) : Tracking d Id Id where
  Rel R x y := R x.run y.run
  pure related := related
  bind rel next := next _ _ rel
  expected _ _ := True
  join left right := ⟨left, right⟩
  attempt rel := .ok rel
  raise {_ _ _ e _} _ := nomatch e
  note _ := rfl

/-- Values that may fail and do not, and the values they come to. -/
def Tracking.succeeding {ε : Type} (d : Nat) : Tracking d (Except ε) Id where
  Rel R x y := ∃ b, x = .ok b ∧ R b y.run
  pure related := ⟨_, rfl, related⟩
  bind rel next := by
    obtain ⟨b, rfl, related⟩ := rel
    exact next b _ related
  expected _ e := nomatch e
  join left right := by
    obtain ⟨b, rfl, related⟩ := left
    obtain ⟨c, rfl, related'⟩ := right
    exact ⟨(b, c), rfl, related, related'⟩
  attempt rel := by
    obtain ⟨b, rfl, related⟩ := rel
    exact ⟨.ok b, rfl, .ok related⟩
  raise {_ _ _ _ e} _ := nomatch e
  note _ := ⟨(), rfl, rfl⟩

end Bisection
