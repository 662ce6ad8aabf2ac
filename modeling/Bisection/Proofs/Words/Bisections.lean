import Bisection.Proofs.Alone.Selecting
import Bisection.Proofs.Pieces.Halving
import Bisection.Proofs.Window.Matches
import Bisection.Proofs.Words.Searches
import Bisection.Scan.Tree
import Bisection.Window.Extremes

/-!
# Bisections in machine words

The other bisections of a range are written over words as well: of pieces, of a selection, and of
the nodes of a scan, with the loops of leaves that count the indices of their elements. A half
starts at `lo + n / 2`, a leaf ends at `lo + n`, and the elements of a leaf are at `lo + i`. If the
range ends at a word, none of these is larger than that word. So words are as good as natural
numbers, up to the largest of them (`Suffices`).
-/

namespace Bisection
set_option autoImplicit false

namespace Words

theorem toNat_rest (n : UInt64) : (n - n / 2).toNat = n.toNat - n.toNat / 2 := by
  have le : n / 2 ≤ n := by
    rw [UInt64.le_iff_toNat_le, toNat_half]
    exact Nat.div_le_self _ 2
  rw [toNat_length le, toNat_half]

/-- What holds of numbers up to the threshold, and of greater ones if of both their halves, holds of
all words. -/
@[elab_as_elim] theorem half_induction (t : Threshold) {motive : UInt64 → Prop}
    (short : ∀ n : UInt64, n.toNat ≤ t.val → motive n)
    (long : ∀ n : UInt64, ¬ n.toNat ≤ t.val → motive (n / 2) → motive (n - n / 2) → motive n)
    (n : UInt64) : motive n := by
  induction size : n.toNat using Nat.strongRecOn generalizing n with
  | ind k ih =>
    subst size
    by_cases h : n.toNat ≤ t.val
    · exact short n h
    · have two := Threshold.two_le h
      have half := toNat_half n
      have rest := toNat_rest n
      exact long n h (ih _ (by omega) _ rfl) (ih _ (by omega) _ rfl)

/-! ## Pieces -/

section
variable {ε π σ β : Type} {m : Type → Type} [Monad m] [Fork ε m] [Piece π]

/-- Runs `leaf` on the parts of a piece of `n` indices from `lo` on, and combines the results. The
piece is cut by `cut?`, which may overflow. -/
def forkPieces (t : Threshold) (overflow : m β) (cut? : σ → UInt64 → Option (σ × σ))
    (leaf : σ → UInt64 → m β) (combine : β → β → m β) (n : UInt64) (piece : σ) (lo : UInt64) :
    m β :=
  if _h : n.toNat ≤ t.val then leaf piece lo
  else
    match cut? piece (n / 2) with
    | none => overflow
    | some (left, right) => do
      let (a, b) ← Fork.join (forkPieces t overflow cut? leaf combine (n / 2) left lo)
        (if Fits lo (n / 2) then
          forkPieces t overflow cut? leaf combine (n - n / 2) right (lo + n / 2)
        else overflow)
      combine a b
termination_by n.toNat
decreasing_by
  all_goals
    have two := Threshold.two_le _h
    simp only [toNat_half, toNat_rest]
    omega

/-- Pieces in words, and what they are in natural numbers. A `Part` is a piece that may start at an
index: both its halves are parts, and it ends at a word. -/
structure Cutting (σ π : Type) [Piece π] where
  cut? : σ → UInt64 → Option (σ × σ)
  view : σ → π
  Part : σ → UInt64 → Prop
  room {p : σ} {lo : UInt64} : Part p lo → lo.toNat + Piece.size (view p) ≤ maxSize
  halves {p : σ} {lo k : UInt64} : Part p lo → k.toNat ≤ Piece.size (view p) →
    ∃ left right, cut? p k = some (left, right) ∧ (Piece.cut (view p) k.toNat).1 = view left ∧
      (Piece.cut (view p) k.toNat).2 = view right ∧ Part left lo ∧ Part right (lo + k)

/-- A bisection hands out parts of its piece alone, and no sum overflows. -/
theorem forkPieces_words [LawfulPiece π] (t : Threshold) (overflow : m β) (c : Cutting σ π)
    {leaf : σ → UInt64 → m β} {leaf' : π → Nat → m β} (combine : β → β → m β)
    (agree : ∀ p a, c.Part p a → leaf p a = leaf' (c.view p) a.toNat) {n : UInt64} {piece : σ}
    {lo : UInt64} (part : c.Part piece lo) (size : Piece.size (c.view piece) = n.toNat) :
    forkPieces t overflow c.cut? leaf combine n piece lo =
      Bisection.forkPieces t leaf' combine (c.view piece) lo.toNat := by
  rw [Bisection.forkPieces, size]
  induction n using half_induction t generalizing piece lo with
  | short n h => rw [forkPieces, Bisection.forkPieces.go, dif_pos h, dif_pos h, agree piece lo part]
  | long n h first second =>
    have within : (n / 2).toNat ≤ Piece.size (c.view piece) := by
      rw [size, toNat_half]
      exact Nat.div_le_self _ 2
    obtain ⟨left, right, cut, viewLeft, viewRight, onLeft, onRight⟩ := c.halves part within
    obtain ⟨sizeLeft, sizeRight⟩ := LawfulPiece.size_cut _ within
    have fits : Fits lo (n / 2) := Nat.le_trans (Nat.add_le_add_left within _) (c.room part)
    rw [viewLeft] at sizeLeft
    rw [viewRight, size, toNat_half, ← toNat_rest] at sizeRight
    rw [forkPieces, Bisection.forkPieces.go, dif_neg h, dif_neg h, cut]
    dsimp only
    rw [if_pos fits, first onLeft sizeLeft, second onRight sizeRight, fits.toNat_add, ← viewLeft,
      ← viewRight, toNat_rest, toNat_half]

end

/-- The words from `lo` up to and without `hi`. -/
structure Range where
  lo : UInt64
  hi : UInt64

/-- The indices of a range. -/
def Range.span (r : Range) : Span := ⟨r.lo.toNat, r.hi.toNat⟩

/-- A range is cut at an index behind its first one. -/
def Range.cut? (r : Range) (k : UInt64) : Option (Range × Range) :=
  if Fits r.lo k then some (⟨r.lo, r.lo + k⟩, ⟨r.lo + k, r.hi⟩) else none

/-- The ranges inside `lo..hi`, each of which starts at its first index. -/
def Cutting.ranges (lo hi : UInt64) : Cutting Range Span where
  cut? := Range.cut?
  view := Range.span
  Part r a := r.lo = a ∧ lo ≤ r.lo ∧ r.lo ≤ r.hi ∧ r.hi ≤ hi
  room := by
    rintro r _ ⟨rfl, -, le, -⟩
    exact Nat.le_trans (Nat.le_of_eq (start_add_length le)) (toNat_le_maxSize r.hi)
  halves := by
    rintro r _ k ⟨rfl, above, le, below⟩ within
    have within : k.toNat ≤ r.hi.toNat - r.lo.toNat := within
    have le' := UInt64.le_iff_toNat_le.mp le
    have fits : Fits r.lo k := .of_le r.hi (by omega)
    have sum := fits.toNat_add
    have from_lo : r.lo ≤ r.lo + k := fits.le_add
    have to_hi : r.lo + k ≤ r.hi := add_le (by omega)
    refine ⟨_, _, if_pos fits, ?_, ?_, ⟨rfl, above, from_lo, UInt64.le_trans to_hi below⟩,
      rfl, UInt64.le_trans above from_lo, to_hi, below⟩
    · exact congrArg (Span.mk r.lo.toNat) sum.symm
    · exact congrArg (Span.mk · r.hi.toNat) sum.symm

/-- Pieces that are cut without a sum, each of which ends at `hi` or before. -/
def Cutting.whole (π : Type) [Piece π] [LawfulPiece π] (lo hi : UInt64) : Cutting π π where
  cut? p k := some (Piece.cut p k.toNat)
  view p := p
  Part p a := lo ≤ a ∧ a.toNat + Piece.size p ≤ hi.toNat
  room part := Nat.le_trans part.2 (toNat_le_maxSize hi)
  halves := by
    rintro p a k ⟨above, ends⟩ within
    obtain ⟨sizeLeft, sizeRight⟩ := LawfulPiece.size_cut p within
    have fits : Fits a k := .of_le hi (by omega)
    have leftEnds : a.toNat + Piece.size (Piece.cut p k.toNat).1 ≤ hi.toNat := by
      rw [sizeLeft]
      omega
    have rightEnds : (a + k).toNat + Piece.size (Piece.cut p k.toNat).2 ≤ hi.toNat := by
      rw [sizeRight, fits.toNat_add]
      omega
    exact ⟨_, _, rfl, rfl, rfl, ⟨above, leftEnds⟩, UInt64.le_trans above fits.le_add, rightEnds⟩

/-! ## Selections -/

section
variable {ε : Type} {m : Type → Type} [Monad m]

/-- The selected words of `lo..hi`, behind those of `found` in reverse. -/
def collect (selected : UInt64 → m Bool) (lo hi : UInt64) (found : List Nat) : m (List Nat) :=
  if _h : lo < hi then do
    if ← selected lo then collect selected (lo + 1) hi (lo.toNat :: found)
    else collect selected (lo + 1) hi found
  else pure found.reverse
termination_by hi.toNat - lo.toNat
decreasing_by
  all_goals
    have lt := UInt64.lt_iff_toNat_lt.mp _h
    rw [toNat_next _h]
    omega

/-- Selects among the `n` words from `lo` on. -/
def select [Fork ε m] (t : Threshold) (overflow : m Selection) (selected : UInt64 → m Bool)
    (lo n : UInt64) : m Selection :=
  if _h : n.toNat ≤ t.val then
    if Fits lo n then Selection.leaf <$> collect selected lo (lo + n) [] else overflow
  else do
    let (left, right) ← Fork.join (select t overflow selected lo (n / 2))
      (if Fits lo (n / 2) then select t overflow selected (lo + n / 2) (n - n / 2) else overflow)
    pure (.node (left.size + right.size) left right)
termination_by n.toNat
decreasing_by
  all_goals
    have two := Threshold.two_le _h
    simp only [toNat_half, toNat_rest]
    omega

variable {lo hi : UInt64} {selected : UInt64 → m Bool} {selected' : Nat → m Bool}

theorem collect_words (agree : Agree lo hi selected selected') (le : lo ≤ hi) (found : List Nat) :
    collect selected lo hi found =
      Selection.collect selected' lo.toNat (hi.toNat - lo.toNat) found := by
  induction lo using upward hi generalizing found with
  | stop lo done =>
    have empty : hi.toNat - lo.toNat = 0 := by
      rw [UInt64.lt_iff_toNat_lt] at done
      omega
    rw [collect, dif_neg done, empty, Selection.collect]
  | next lo lt ih =>
    obtain ⟨above, below⟩ := next_within lt
    have size : hi.toNat - lo.toNat = hi.toNat - (lo + 1).toNat + 1 := by
      have := UInt64.lt_iff_toNat_lt.mp lt
      rw [toNat_next lt]
      omega
    have rest := ih (agree.within above (UInt64.le_refl hi)) below
    rw [collect, dif_pos lt, size, Selection.collect, agree lo (UInt64.le_refl lo) lt]
    simp only [rest, toNat_next lt]

/-- A selection asks about words of its range alone, and no sum overflows. -/
theorem select_words [Fork ε m] (t : Threshold) (overflow : m Selection) {n : UInt64}
    (ends : lo.toNat + n.toNat ≤ hi.toNat) (agree : Agree lo hi selected selected') :
    select t overflow selected lo n = Selection.build t selected' lo.toNat n.toNat := by
  induction n using half_induction t generalizing lo with
  | short n h =>
    have fits : Fits lo n := .of_le hi ends
    rw [select, dif_pos h, if_pos fits, Selection.build_of_le _ _ h,
      collect_words (agree.within (UInt64.le_refl lo) (add_le ends)) fits.le_add,
      fits.toNat_add, Nat.add_sub_cancel_left]
  | long n h left right =>
    have half := toNat_half n
    have rest := toNat_rest n
    have fits : Fits lo (n / 2) := .of_le hi (by omega)
    have middle := fits.toNat_add
    have left := left (by omega) agree
    have right := right (by omega) (agree.within fits.le_add (UInt64.le_refl hi))
    rw [select, dif_neg h, if_pos fits, left, right, Selection.build_of_lt _ _ h, middle, half,
      rest]

end

/-! ## Loops in the leaves -/

section
variable {ε α β : Type} {m : Type → Type} [Monad m]

/-- The results of `f` on each index from `lo` on, as many as there are elements. -/
def mapIndices (overflow : m (Array β)) (f : UInt64 → m β) (lo : UInt64) (s : Store α) :
    m (Array β) :=
  s.foldlM (fun out _ =>
    if Fits lo (.ofNat out.size) then do pure (out.push (← f (lo + .ofNat out.size)))
    else overflow) #[]

/-- The extremes of a leaf, if it has elements. -/
def extremes (overflow : m (Option (Extremes α) × UInt64)) (cmp : α → α → m Ordering) (s : Store α)
    (lo : UInt64) : m (Option (Extremes α)) := do
  let (found, _) ← s.foldlM (fun (found, i) x =>
    if Fits lo i then do pure (← Extremes.join cmp found (some (.one (lo + i).toNat x)), i + 1)
    else overflow) (none, 0)
  pure found

variable {lo hi : UInt64}

theorem mapIndices_words [LawfulMonad m] (overflow : m (Array β)) {f : UInt64 → m β}
    {f' : Nat → m β} {s : Store α} (ends : lo.toNat + s.size ≤ hi.toNat)
    (agree : Agree lo hi f f') :
    mapIndices overflow f lo s = s.mapIndicesM f' lo.toNat := by
  rw [mapIndices, Store.mapIndicesM, Store.foldlM_eq_foldlM_toList, Store.foldlM_eq_foldlM_toList]
  have loop (xs : List α) (out : Array β)
      (ends : lo.toNat + (out.size + xs.length) ≤ hi.toNat) :
      xs.foldlM (fun out _ =>
        if Fits lo (.ofNat out.size) then do pure (out.push (← f (lo + .ofNat out.size)))
        else overflow) out =
      xs.foldlM (fun out _ => do pure (out.push (← f' (lo.toNat + out.size)))) out := by
    induction xs generalizing out with
    | nil => rfl
    | cons x xs ih =>
      rw [List.length_cons] at ends
      have size : (UInt64.ofNat out.size).toNat = out.size :=
        toNat_ofNat (Nat.le_trans (by omega) (toNat_le_maxSize hi))
      have fits : Fits lo (.ofNat out.size) := .of_le hi (by omega)
      have inside : lo + .ofNat out.size < hi := by
        rw [UInt64.lt_iff_toNat_lt, fits.toNat_add]
        omega
      have rest := fun y => ih (out.push y) (by rw [Array.size_push]; omega)
      rw [List.foldlM_cons, List.foldlM_cons, if_pos fits, agree _ fits.le_add inside,
        fits.toNat_add, size, bind_assoc, bind_assoc]
      simp only [pure_bind, rest]
  exact loop s.toList #[] (by simpa using ends)

theorem extremes_words [LawfulMonad m] (overflow : m (Option (Extremes α) × UInt64))
    (cmp : α → α → m Ordering) {s : Store α} (ends : lo.toNat + s.size ≤ hi.toNat) :
    extremes overflow cmp s lo = Extremes.leaf cmp s lo.toNat := by
  rw [extremes, Extremes.leaf, Store.foldlM_eq_foldlM_toList, Store.foldlM_eq_foldlM_toList]
  -- The loop over words counts from 0 on, and the other one from `lo` on.
  have loop (xs : List α) (found : Option (Extremes α)) (i : UInt64)
      (ends : lo.toNat + (i.toNat + xs.length) ≤ hi.toNat) :
      (xs.foldlM (fun (p : Option (Extremes α) × UInt64) x =>
        if Fits lo p.2 then do
          pure (← Extremes.join cmp p.1 (some (.one (lo + p.2).toNat x)), p.2 + 1)
        else overflow) (found, i) >>= fun p => pure p.1) =
      (xs.foldlM (fun (p : Option (Extremes α) × Nat) x => do
        pure (← Extremes.join cmp p.1 (some (.one p.2 x)), p.2 + 1)) (found, lo.toNat + i.toNat) >>=
          fun p => pure p.1) := by
    induction xs generalizing found i with
    | nil => simp only [List.foldlM_nil, pure_bind]
    | cons x xs ih =>
      rw [List.length_cons] at ends
      have fits : Fits lo i := .of_le hi (by omega)
      have below : i < hi := by
        rw [UInt64.lt_iff_toNat_lt]
        omega
      have next := toNat_next below
      have rest := fun found => ih found (i + 1) (by omega)
      rw [List.foldlM_cons, List.foldlM_cons, if_pos fits]
      simp only [bind_assoc, pure_bind, rest, fits.toNat_add, next, Nat.add_assoc]
  exact loop s.toList none 0 (by simpa using ends)

end

/-! ## Scans -/

/-- The nodes over `lo..hi`, the first of which is node `id`. -/
def layout (t : Threshold) (overflow : List Scan.Node) (id : Nat) (parent : Option Nat)
    (lo hi : UInt64) : List Scan.Node :=
  if _le : lo ≤ hi then
    if Fits lo ((hi - lo) / 2) then
      let mid := lo + (hi - lo) / 2
      if _h : (hi - lo).toNat ≤ t.val then [⟨lo.toNat, hi.toNat, parent, none⟩]
      else
        let left := id + 1
        let right := left + Scan.nodeCount t ((hi - lo) / 2).toNat
        ⟨lo.toNat, hi.toNat, parent, some (left, right)⟩ ::
          (layout t overflow left (some id) lo mid ++ layout t overflow right (some id) mid hi)
    else overflow
  else overflow
termination_by hi.toNat - lo.toNat
decreasing_by
  all_goals
    have two := Threshold.two_le _h
    rw [toNat_length _le] at two
    rw [toNat_middle _le]
    omega

/-- The nodes of a scan are over ranges inside its own, and no sum or difference overflows. -/
theorem layout_words (t : Threshold) (overflow : List Scan.Node) {lo hi : UInt64} (le : lo ≤ hi)
    (id : Nat) (parent : Option Nat) : layout t overflow id parent lo hi =
      Scan.layout t id parent lo.toNat (hi.toNat - lo.toNat) := by
  induction lo, hi, le using middle_induction t generalizing id parent with
  | short lo hi le h =>
    rw [layout, Scan.layout, dif_pos le, if_pos (fits_middle le), toNat_length le,
      start_add_length le, dif_pos h, dif_pos h]
  | long lo hi le h left right =>
    rw [layout, Scan.layout, dif_pos le, if_pos (fits_middle le), toNat_length le,
      start_add_length le, dif_neg h, dif_neg h]
    simp only [left, right, toNat_middle le, toNat_half, toNat_length le, Nat.add_sub_cancel_left,
      Nat.sub_add_eq]

/-! ## Words are enough -/

section
variable {t : Threshold} {accepts : Nat → Bool} {lo hi i : UInt64} {now : Hunt}

/-- The cell of those who search a range together holds a match of the range, once it is set. -/
theorem match_of_sound (sound : now.Sound accepts lo.toNat hi.toNat) (set : now.cell ≠ .empty) :
    now.cell.get = some now.cell.word.toNat ∧
      lo ≤ now.cell.word ∧ now.cell.word < hi ∧ accepts now.cell.word.toNat := by
  obtain ⟨i, at_cell, above, below, hit⟩ := sound.found.resolve_left set
  have small : i ≤ maxSize := Nat.le_trans (Nat.le_of_lt below) (toNat_le_maxSize hi)
  have word : now.cell.word.toNat = i := by
    rw [at_cell, toNat_ofNat small]
  rw [← word] at above below hit
  exact ⟨get_word (UInt64.lt_iff_toNat_lt.mpr below), UInt64.le_iff_toNat_le.mpr above,
    UInt64.lt_iff_toNat_lt.mpr below, hit⟩

/-- It is set once they are done, if there is a match. -/
theorem set_of_sound (sound : now.Sound accepts lo.toNat hi.toNat) (above : lo ≤ i) (below : i < hi)
    (hit : accepts i.toNat) (done : now.left = []) : now.cell ≠ .empty := by
  intro empty
  have none := (sound.get_eq_none_iff done).mp (MatchCell.get_eq_none_iff.mpr empty)
  rw [none i.toNat (UInt64.le_iff_toNat_le.mp above) (UInt64.lt_iff_toNat_lt.mp below)] at hit
  cases hit

/-- One who searches a range alone finds its first match. -/
theorem findAny_of_first (t : Threshold) (le : lo ≤ hi) (above : lo ≤ i) (below : i < hi)
    (hit : accepts i.toNat) (first : ∀ j, lo ≤ j → j < i → accepts j.toNat = false) :
    Bisection.findAny (m := Id) t accepts lo.toNat hi.toNat = some i.toNat := by
  have whole := start_add_length le
  have search : Bisection.findAny (m := Id) t accepts lo.toNat
      (lo.toNat + (hi.toNat - lo.toNat)) = _ :=
    findAny_eq_find? t accepts (Nat.le_trans (Nat.le_of_eq whole) (toNat_le_maxSize hi))
  rw [whole] at search
  rw [search, List.find?_range'_eq_some]
  have above := UInt64.le_iff_toNat_le.mp above
  have below := UInt64.lt_iff_toNat_lt.mp below
  refine ⟨hit, List.mem_range'_1.mpr (by omega), fun j from_lo to_i => ?_⟩
  have word : (UInt64.ofNat j).toNat = j :=
    toNat_ofNat (Nat.le_trans (Nat.le_of_lt to_i) (toNat_le_maxSize i))
  have miss := first (.ofNat j) (by rwa [UInt64.le_iff_toNat_le, word])
    (by rwa [UInt64.lt_iff_toNat_lt, word])
  rw [word] at miss
  rw [miss]
  rfl

end

/-- Words are as good as natural numbers for the bisections of `lo..hi`: these come to the same,
whatever `overflow` would do where a sum or difference is not exact, if their callbacks are the same
on what is inside of `lo..hi`. -/
structure Suffices (t : Threshold) (lo hi : UInt64) : Prop where
  /-- All that the range is cut into is inside it. -/
  inside (j : Nat) (s : Span) : s ∈ (halving t lo.toNat (hi.toNat - lo.toNat)).level j →
    lo.toNat ≤ s.lo ∧ s.lo ≤ s.hi ∧ s.hi ≤ hi.toNat
  /-- A search asks about words of the range. -/
  searched {ε : Type} {m : Type → Type} [Monad m] [Fork ε m] [Reports m]
    (overflow : m (MatchCell × Option ε)) (accepts : UInt64 → m Bool) (accepts' : Nat → m Bool) :
    Agree lo hi accepts accepts' →
    findAny t overflow accepts lo hi = Bisection.findAny t accepts' lo.toNat hi.toNat
  /-- A bisection of the range itself hands out ranges inside it, with their first words. -/
  ranges {ε β : Type} {m : Type → Type} [Monad m] [Fork ε m] (overflow : m β)
    (leaf : Range → UInt64 → m β) (leaf' : Span → Nat → m β) (combine : β → β → m β) :
    (∀ a b, lo ≤ a → a ≤ b → b ≤ hi → leaf ⟨a, b⟩ a = leaf' ⟨a.toNat, b.toNat⟩ a.toNat) →
    forkPieces t overflow Range.cut? leaf combine (hi - lo) ⟨lo, hi⟩ lo =
      Bisection.forkPieces t leaf' combine ⟨lo.toNat, hi.toNat⟩ lo.toNat
  /-- One of elements that are at the range hands out parts that are inside it. -/
  pieces {ε π β : Type} {m : Type → Type} [Monad m] [Fork ε m] [Piece π] [LawfulPiece π]
    (overflow : m β) (leaf : π → UInt64 → m β) (leaf' : π → Nat → m β) (combine : β → β → m β)
    (piece : π) : Piece.size piece = hi.toNat - lo.toNat →
    (∀ part a, lo ≤ a → a.toNat + Piece.size part ≤ hi.toNat →
      leaf part a = leaf' part a.toNat) →
    forkPieces t overflow (fun p k => some (Piece.cut p k.toNat)) leaf combine (hi - lo) piece lo =
      Bisection.forkPieces t leaf' combine piece lo.toNat
  /-- A selection asks about words of the range. -/
  selected {ε : Type} {m : Type → Type} [Monad m] [Fork ε m] (overflow : m Selection)
    (keep : UInt64 → m Bool) (keep' : Nat → m Bool) : Agree lo hi keep keep' →
    select t overflow keep lo (hi - lo) =
      Selection.build t keep' lo.toNat (hi.toNat - lo.toNat)
  /-- A leaf calls a function on words of the range. -/
  generated {α β : Type} {m : Type → Type} [Monad m] [LawfulMonad m] (overflow : m (Array β))
    (f : UInt64 → m β) (f' : Nat → m β) (s : Store α) : s.size = hi.toNat - lo.toNat →
    Agree lo hi f f' → mapIndices overflow f lo s = s.mapIndicesM f' lo.toNat
  /-- A leaf gives the words at which its extremes are. -/
  compared {α : Type} {m : Type → Type} [Monad m] [LawfulMonad m]
    (overflow : m (Option (Extremes α) × UInt64)) (cmp : α → α → m Ordering) (s : Store α) :
    s.size = hi.toNat - lo.toNat → extremes overflow cmp s lo = Extremes.leaf cmp s lo.toNat
  /-- The nodes of a scan are over ranges of words. -/
  scanned (overflow : List Scan.Node) (id : Nat) (parent : Option Nat) :
    layout t overflow id parent lo hi = Scan.layout t id parent lo.toNat (hi.toNat - lo.toNat)
  /-- A cell that is given a word of the range holds that word, and not the one that stands for no
  match. -/
  stored (i : UInt64) : lo ≤ i → i < hi →
    MatchCell.empty.offer i.toNat = (⟨i⟩, true) ∧ i ≠ MatchCell.vacant ∧
      MatchCell.get ⟨i⟩ = some i.toNat
  /-- Those who search the range at the same time keep to it, and what is in their cell is a match.
  Once they are done there is one in it, if there is any. -/
  shared (accepts : Nat → Bool) (n : Nat) (now : Hunt) :
    Hunt.Reaches t accepts n (.start lo.toNat hi.toNat) now →
    (∀ s ∈ now.left, s.Keeps accepts lo.toNat hi.toNat) ∧
    (now.cell ≠ .empty → now.cell.get = some now.cell.word.toNat ∧
      lo ≤ now.cell.word ∧ now.cell.word < hi ∧ accepts now.cell.word.toNat) ∧
    ∀ i, lo ≤ i → i < hi → accepts i.toNat → now.left = [] → now.cell ≠ .empty
  /-- One who searches it alone finds the first match. -/
  found (accepts : Nat → Bool) (i : UInt64) : lo ≤ i → i < hi → accepts i.toNat →
    (∀ j, lo ≤ j → j < i → accepts j.toNat = false) →
    Bisection.findAny (m := Id) t accepts lo.toNat hi.toNat = some i.toNat

/-- Words are enough for the bisections of any range that they can hold, whatever the threshold. -/
theorem words_suffice (t : Threshold) {lo hi : UInt64} (le : lo ≤ hi) : Suffices t lo hi := by
  have length := toNat_length le
  have whole := start_add_length le
  constructor
  case inside =>
    intro j s mem
    have within := within_of_mem_level mem
    rwa [whole] at within
  case searched => exact fun overflow accepts accepts' agree => findAny_words t overflow le agree
  case ranges =>
    intro ε β m _ _ overflow leaf leaf' combine agree
    refine forkPieces_words t overflow (.ranges lo hi) combine ?_
      ⟨rfl, UInt64.le_refl lo, le, UInt64.le_refl hi⟩ length.symm
    rintro r _ ⟨rfl, above, le, below⟩
    exact agree r.lo r.hi above le below
  case pieces =>
    intro ε π β m _ _ _ _ overflow leaf leaf' combine piece size agree
    refine forkPieces_words t overflow (.whole π lo hi) combine ?_ ⟨UInt64.le_refl lo, ?_⟩
      (size.trans length.symm)
    · exact fun part a part_of => agree part a part_of.1 part_of.2
    · exact Nat.le_of_eq (size ▸ whole)
  case selected =>
    intro ε m _ _ overflow keep keep' agree
    rw [select_words t overflow (Nat.le_of_eq (length ▸ whole)) agree, length]
  case generated =>
    intro α β m _ _ overflow f f' s size agree
    exact mapIndices_words overflow (Nat.le_of_eq (size ▸ whole)) agree
  case compared =>
    intro α m _ _ overflow cmp s size
    exact extremes_words overflow cmp (Nat.le_of_eq (size ▸ whole))
  case scanned => exact fun overflow id parent => layout_words t overflow le id parent
  case stored => exact fun i _ below => ⟨offer_word i, ne_vacant below, get_word below⟩
  case shared =>
    intro accepts n now run
    obtain ⟨sound, -, -⟩ := run.sound (toNat_le_maxSize hi) (Hunt.sound_start lo.toNat hi.toNat)
    exact ⟨sound.keeps, match_of_sound sound, fun i => set_of_sound sound⟩
  case found => exact fun accepts i => findAny_of_first t le

/-- The longest range of all. A match at its last index, the word before the one that stands for no
match, is found, by one worker and by many. -/
theorem words_suffice_longest :
    let t : Threshold := ⟨1, Nat.one_pos⟩
    let last : UInt64 := 0xfffffffffffffffe
    let accepts : Nat → Bool := fun i => i == last.toNat
    Suffices t 0 MatchCell.vacant ∧
    (findAny (m := Id) t (.empty, none) (fun i => pure (i == last)) 0 MatchCell.vacant).run =
      some last.toNat ∧
    ∀ n now, Hunt.Reaches t accepts n (.start 0 maxSize) now → now.left = [] →
      now.cell.get = some last.toNat := by
  intro t last accepts
  have le : (0 : UInt64) ≤ MatchCell.vacant := by decide
  have suffices_all := words_suffice t le
  have above : (0 : UInt64) ≤ last := by decide
  have below : last < MatchCell.vacant := by decide
  have ends : MatchCell.vacant.toNat = maxSize := by decide
  have alike : Agree 0 MatchCell.vacant (fun i => pure (f := Id) (i == last))
      fun i => pure (accepts i) := by
    intro i _ _
    show (i == last) = (i.toNat == last.toNat)
    rw [Bool.eq_iff_iff, beq_iff_eq, beq_iff_eq, UInt64.toNat_inj]
  refine ⟨suffices_all, ?_, fun n now run done => ?_⟩
  · have search := suffices_all.searched (m := Id) (.empty, none) _ _ alike
    have first := suffices_all.found accepts last above below BEq.rfl fun j _ lt =>
      beq_false_of_ne (Nat.ne_of_lt (UInt64.lt_iff_toNat_lt.mp lt))
    exact congrArg Id.run (search.trans first)
  · rw [← ends] at run
    obtain ⟨-, match_in, found⟩ := suffices_all.shared accepts n now run
    obtain ⟨get, -, -, hit⟩ := match_in (found last above below BEq.rfl done)
    rw [get, eq_of_beq hit]

end Words

end Bisection
