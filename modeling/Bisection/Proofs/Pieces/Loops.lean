import Bisection.Proofs.Alone.Selecting
import Bisection.Proofs.Pieces.Forking
import Bisection.Window.Each

/-!
# Bisections as plain loops

Over computations that run the halves of a fork one after the other, a bisection that calls a
function on each element is a loop over the elements, whatever the threshold: it makes the same
calls in the same order, and gathers the same results.
-/

namespace Bisection
set_option autoImplicit false

section
variable {α β γ : Type} {m : Type → Type} [Monad m]

/-- A plain loop: computations one after the other. -/
def inTurn : List (m Unit) → m Unit
  | [] => pure ()
  | x :: xs => do
    x
    inTurn xs

/-- The elements that are asked for, in a plain loop. -/
def chosen (ask : α → m Bool) : List α → m (List α)
  | [] => pure []
  | x :: xs => do
    let hit ← ask x
    let rest ← chosen ask xs
    pure (if hit then x :: rest else rest)

/-- A computation without its result. -/
def ending (x : m β) : m Unit := (fun _ => ()) <$> x

variable [LawfulMonad m]

theorem inTurn_append (xs ys : List (m Unit)) :
    inTurn (xs ++ ys) = (do inTurn xs; inTurn ys) := by
  induction xs with
  | nil => exact (pure_bind () fun _ => inTurn ys).symm
  | cons x xs ih => rw [List.cons_append, inTurn, inTurn, ih, bind_assoc]

theorem chosen_append (ask : α → m Bool) (xs ys : List α) :
    chosen ask (xs ++ ys) = (do pure ((← chosen ask xs) ++ (← chosen ask ys))) := by
  induction xs with
  | nil =>
    rw [List.nil_append, chosen, pure_bind]
    exact (bind_pure _).symm
  | cons x xs ih =>
    rw [List.cons_append, chosen, chosen, ih]
    simp only [bind_assoc, pure_bind]
    refine bind_congr fun hit => bind_congr fun xs => bind_congr fun ys => ?_
    cases hit <;> rfl

theorem chosen_pure (ask : α → Bool) (xs : List α) :
    chosen (m := m) (fun x => pure (ask x)) xs = pure (xs.filter ask) := by
  induction xs with
  | nil => rfl
  | cons x xs ih =>
    rw [chosen, ih, pure_bind, pure_bind, List.filter_cons]

theorem length_chosen_cons (ask : α → m Bool) (x : α) (xs : List α) :
    List.length <$> chosen ask (x :: xs) = (do
      let hit ← ask x
      (fun n => if hit then n + 1 else n) <$> (List.length <$> chosen ask xs)) := by
  rw [chosen, map_bind]
  refine bind_congr fun hit => ?_
  rw [map_bind, Functor.map_map, map_eq_pure_bind]
  refine bind_congr fun rest => ?_
  cases hit <;> exact map_pure _ _

/-- As many are chosen of some values as there are elements whose values are chosen. -/
theorem length_chosen_map (f : α → β) (ask : β → m Bool) (xs : List α) :
    List.length <$> chosen (fun x => ask (f x)) xs = List.length <$> chosen ask (xs.map f) := by
  induction xs with
  | nil => simp [chosen]
  | cons x xs ih => rw [List.map_cons, length_chosen_cons, length_chosen_cons, ih]

/-! ## Endings -/

theorem ending_pure (b : β) : ending (pure b : m β) = pure () := map_pure _ b

theorem ending_bind (x : m β) (f : β → m γ) : ending (x >>= f) = x >>= fun b => ending (f b) :=
  map_bind _ x f

theorem ending_map (f : β → γ) (x : m β) : ending (f <$> x) = ending x :=
  (comp_map f _ x).symm

theorem ending_unit (x : m Unit) : ending x = x := id_map x

theorem ending_bind_pure (f : β → γ) (x : m β) : ending (do pure (f (← x))) = ending x := by
  rw [bind_pure_comp, ending_map]

/-- What follows a computation that only ends. -/
theorem ending_then (x : m β) (y : m γ) : (do ending x; y) = (do let _ ← x; y) :=
  bind_map_left _ x _

theorem ending_mapM (f : α → m β) (xs : List α) :
    ending (xs.mapM f) = inTurn (xs.map fun x => ending (f x)) := by
  induction xs with
  | nil => exact ending_pure []
  | cons x xs ih =>
    rw [List.mapM_cons, List.map_cons, inTurn, ← ih, ending_then, ending_bind]
    exact bind_congr fun y => ending_bind_pure _ _

theorem ending_chosen (ask : α → m Bool) (xs : List α) :
    ending (chosen ask xs) = inTurn (xs.map fun x => ending (ask x)) := by
  induction xs with
  | nil => exact ending_pure []
  | cons x xs ih =>
    rw [chosen, List.map_cons, inTurn, ← ih, ending_then, ending_bind]
    exact bind_congr fun hit => ending_bind_pure _ _

/-! ## Loops over a store -/

/-- A loop that gathers what a function gives for the number of results so far and an element. -/
theorem foldlM_push (call : Nat → α → m β) (xs : List α) (out : Array β) :
    xs.foldlM (fun out x => do pure (out.push (← call out.size x))) out =
      (fun ys => out ++ ys.toArray) <$>
        (xs.zipIdx out.size).mapM fun p => call p.2 p.1 := by
  simp only [bind_pure_comp]
  induction xs generalizing out with
  | nil => simp
  | cons x xs ih => simp [ih, List.zipIdx_cons]

/-- A loop that gathers what a function gives for the elements in the same place of two lists. -/
theorem foldlM_zip (call : α → γ → m β) (xs : List α) (t : Store γ) (out : Array β) :
    xs.foldlM (fun out x =>
      match t.get? out.size with
      | some y => do pure (out.push (← call x y))
      | none => pure out) out =
      (fun ys => out ++ ys.toArray) <$>
        (xs.zip (t.toList.drop out.size)).mapM fun p => call p.1 p.2 := by
  simp only [bind_pure_comp]
  induction xs generalizing out with
  | nil => simp
  | cons x xs ih =>
    cases here : t.get? out.size with
    | none =>
      have past : t.toList.drop out.size = [] := by
        rw [← Store.getElem?_toList, List.getElem?_eq_none_iff] at here
        exact List.drop_eq_nil_of_le here
      simp [here, ih, past]
    | some y =>
      have next : t.toList.drop out.size = y :: t.toList.drop (out.size + 1) := by
        rw [← Store.getElem?_toList, List.getElem?_eq_some_iff] at here
        obtain ⟨lt, rfl⟩ := here
        exact List.drop_eq_getElem_cons lt
      simp [here, ih, next]

namespace Store

theorem mapM_eq (f : α → m β) (s : Store α) :
    s.mapM f = List.toArray <$> s.toList.mapM f := by
  have elems : s.toList.mapM f = (s.toList.zipIdx.map Prod.fst).mapM f := by
    rw [List.zipIdx_map_fst]
  rw [elems, List.mapM_map, mapM, foldlM_eq_foldlM_toList]
  refine (foldlM_push (fun _ => f) s.toList #[]).trans ?_
  simp [Function.comp_def]

theorem mapIndicesM_eq (f : Nat → m β) (lo : Nat) (s : Store α) :
    s.mapIndicesM f lo = List.toArray <$> (List.range' lo s.size).mapM f := by
  have indices : List.range' lo s.size = s.toList.zipIdx.map fun p => lo + p.2 := by
    rw [← length_toList, ← Nat.add_zero lo, ← List.map_add_range', ← List.zipIdx_map_snd,
      List.map_map]
    rfl
  rw [indices, List.mapM_map, mapIndicesM, foldlM_eq_foldlM_toList]
  refine (foldlM_push (fun k _ => f (lo + k)) s.toList #[]).trans ?_
  simp [Function.comp_def]

theorem zipWithM_eq (f : α → γ → m β) (s : Store α) (t : Store γ) :
    s.zipWithM f t = List.toArray <$> (s.toList.zip t.toList).mapM fun p => f p.1 p.2 := by
  rw [zipWithM, foldlM_eq_foldlM_toList]
  refine (foldlM_zip f s.toList t #[]).trans ?_
  simp

end Store

/-! ## Slots -/

theorem mapM_slots (f : α → m β) {xs : List α} {slots : List Nat}
    (length : slots.length = xs.length) :
    (xs.zip slots).mapM (fun p => (p.2, ·) <$> f p.1) = (slots.zip ·) <$> xs.mapM f := by
  induction xs generalizing slots with
  | nil => simp
  | cons x xs ih =>
    cases slots with
    | nil => cases length
    | cons slot slots => simp [ih (Nat.succ.inj length)]

/-- A loop over a list has as many results as there are elements. -/
theorem map_mapM_congr {δ : Type} (f : α → m β) {xs : List α} {g h : List β → δ}
    (same : ∀ ys, ys.length = xs.length → g ys = h ys) : g <$> xs.mapM f = h <$> xs.mapM f := by
  induction xs generalizing g h with
  | nil => simp [same [] rfl]
  | cons x xs ih =>
    simp only [List.mapM_cons, map_bind, bind_pure_comp]
    refine bind_congr fun y => ?_
    rw [Functor.map_map, Functor.map_map]
    exact ih fun ys length => same (y :: ys) (congrArg Nat.succ length)

theorem Store.transferM_eq (f : α → m β) (s : Store α) (dest : Span) :
    s.transferM f dest = List.toArray <$>
      (s.toList.zip (List.range' dest.lo dest.size)).mapM fun p => (p.2, ·) <$> f p.1 := by
  let slots : Store Nat := .cells (List.range' dest.lo dest.size).toArray
  refine Eq.trans ?_ (s.zipWithM_eq (fun x slot => (slot, ·) <$> f x) slots)
  unfold transferM zipWithM
  congr 1
  funext writes x
  have slot : slots.get? writes.size =
      if writes.size < dest.size then some (dest.lo + writes.size) else none := by
    rw [← getElem?_toList]
    show (List.range' dest.lo dest.size)[writes.size]? = _
    split
    · next room => rw [List.getElem?_range' room, Nat.one_mul]
    · next full => exact List.getElem?_eq_none (by simpa using full)
  by_cases room : writes.size < dest.size
  · simp [slot, room]
  · simp [slot, room]

/-- One write to each slot from the first one on that is not written to. -/
theorem writeAll_zip (ys : List β) (before : List (Option β)) :
    (writeAll ((List.range' before.length ys.length).zip ys).toArray
      (before ++ List.replicate ys.length none).toArray).toList = before ++ ys.map some := by
  unfold writeAll
  rw [List.foldl_toArray]
  induction ys generalizing before with
  | nil => simp
  | cons y ys ih =>
    have next := ih (before ++ [some y])
    rw [List.length_append, List.length_singleton, List.append_assoc, List.append_assoc] at next
    rw [List.length_cons, List.range'_succ, List.zip_cons_cons, List.foldl_cons,
      List.replicate_succ]
    simpa using next

/-- What is in slots of which each is written to once. -/
theorem writeAll_range {n : Nat} {ys : List β} (length : ys.length = n) :
    (writeAll ((List.range n).zip ys).toArray (Array.replicate n none)).toList = ys.map some := by
  subst length
  have slots := writeAll_zip ys []
  rwa [List.nil_append, List.nil_append, List.length_nil, ← List.range_eq_range',
    List.toArray_replicate] at slots

theorem filled_range {n : Nat} {ys : List β} (length : ys.length = n) :
    filled n ((List.range n).zip ys).toArray = ys.toArray := by
  apply Array.toList_inj.mp
  rw [filled, Array.toList_filterMap, writeAll_range length, List.filterMap_map]
  exact List.filterMap_some

/-! ## Bisections -/

section
variable {ε : Type} [Fork ε m] [SequentialFork m] {t : Threshold}

theorem range'_halves (lo n : Nat) : List.range' lo n =
    List.range' lo (n / 2) ++ List.range' (lo + n / 2) (n - n / 2) := by
  have all : n / 2 + (n - n / 2) = n := by omega
  have cut : List.range' lo (n / 2) ++ List.range' (lo + 1 * (n / 2)) (n - n / 2) = _ :=
    List.range'_append
  rw [Nat.one_mul, all] at cut
  exact cut.symm

/-- The slots for a list are cut where the list is. -/
theorem zip_range'_halves {xs : List α} {n : Nat} (length : xs.length = n) (lo : Nat) :
    (xs.take (n / 2)).zip (List.range' lo (n / 2)) ++
        (xs.drop (n / 2)).zip (List.range' (lo + n / 2) (n - n / 2)) =
      xs.zip (List.range' lo n) := by
  have front : (xs.take (n / 2)).length = (List.range' lo (n / 2)).length := by
    rw [List.length_take, List.length_range', length, Nat.min_eq_left (Nat.div_le_self n 2)]
  rw [range'_halves lo n, ← List.zip_append front, List.take_append_drop]

/-- The leaves of a bisection that call a function on what each of them is handed, where the pieces
are as they have to be. -/
theorem collectLeaves_loop_of {π : Type} [Piece π] [LawfulPiece π] {leaf : π → Nat → m (Array β)}
    (valid : π → Prop) (f : γ → m β) (args : π → Nat → List γ)
    (halves : ∀ piece, valid piece → valid (Piece.left piece) ∧ valid (Piece.right piece))
    (onLeaf : ∀ piece lo, valid piece → leaf piece lo = List.toArray <$> (args piece lo).mapM f)
    (onCut : ∀ piece lo, valid piece → args (Piece.left piece) lo ++
      args (Piece.right piece) (lo + Piece.size piece / 2) = args piece lo) {piece : π}
    (ok : valid piece) (lo : Nat) :
    Window.collectLeaves t leaf piece lo = List.toArray <$> (args piece lo).mapM f := by
  revert ok
  refine halves_induction t ?short ?long piece lo
  case short =>
    intro piece lo h ok
    rw [Window.collectLeaves, forkPieces_of_le h, onLeaf piece lo ok]
  case long =>
    intro piece lo h left right ok
    obtain ⟨okLeft, okRight⟩ := halves piece ok
    rw [Window.collectLeaves] at left right ⊢
    rw [forkPieces_of_lt h, SequentialFork.join_eq, left okLeft, right okRight,
      ← onCut piece lo ok, List.mapM_append]
    simp

/-- The leaves of a bisection that call a function on what each of them is handed. -/
theorem collectLeaves_loop {π : Type} [Piece π] [LawfulPiece π] {leaf : π → Nat → m (Array β)}
    (f : γ → m β) (args : π → Nat → List γ)
    (onLeaf : ∀ piece lo, leaf piece lo = List.toArray <$> (args piece lo).mapM f)
    (onCut : ∀ piece lo, args (Piece.left piece) lo ++
      args (Piece.right piece) (lo + Piece.size piece / 2) = args piece lo) (piece : π) (lo : Nat) :
    Window.collectLeaves t leaf piece lo = List.toArray <$> (args piece lo).mapM f :=
  collectLeaves_loop_of (fun _ => True) f args (fun _ _ => ⟨trivial, trivial⟩)
    (fun piece lo _ => onLeaf piece lo) (fun piece lo _ => onCut piece lo) trivial lo

theorem collectLeaves_mapM (f : α → m β) (s : Store α) (lo : Nat) :
    Window.collectLeaves t (fun s _ => s.mapM f) s lo = List.toArray <$> s.toList.mapM f := by
  refine collectLeaves_loop f (fun s _ => s.toList) (fun s _ => s.mapM_eq f) (fun s _ => ?_) s lo
  rw [toList_left, toList_right, List.take_append_drop]

theorem collectLeaves_mapIndicesM (f : Nat → m β) (s : Store α) (lo : Nat) :
    Window.collectLeaves t (fun s lo => s.mapIndicesM f lo) s lo =
      List.toArray <$> (List.range' lo s.size).mapM f := by
  refine collectLeaves_loop f (fun (s : Store α) lo => List.range' lo s.size)
    (fun s lo => s.mapIndicesM_eq f lo) (fun s lo => ?_) s lo
  have left : (Piece.left s).size = s.size / 2 := size_left s
  have right : (Piece.right s).size = s.size - s.size / 2 := size_right s
  rw [left, right]
  exact (range'_halves lo s.size).symm

theorem collectLeaves_zipWithM (f : α → γ → m β) (s : Store α) (other : Store γ) (lo : Nat) :
    Window.collectLeaves t (fun (s, other) _ => s.zipWithM f other) (s, other) lo =
      List.toArray <$> (s.toList.zip other.toList).mapM fun p => f p.1 p.2 := by
  refine collectLeaves_loop (fun p : α × γ => f p.1 p.2)
    (fun (p : Store α × Store γ) _ => p.1.toList.zip p.2.toList)
    (fun p _ => p.1.zipWithM_eq f p.2) (fun p _ => ?_) (s, other) lo
  obtain ⟨front, back⟩ := toList_cut p.1 (p.1.size / 2)
  obtain ⟨front', back'⟩ := toList_cut p.2 (p.1.size / 2)
  show (Piece.cut p.1 (p.1.size / 2)).1.toList.zip (Piece.cut p.2 (p.1.size / 2)).1.toList ++
    (Piece.cut p.1 (p.1.size / 2)).2.toList.zip (Piece.cut p.2 (p.1.size / 2)).2.toList = _
  simp only [front, front', back, back', List.zip_eq_zipWith, ← List.take_zipWith,
    ← List.drop_zipWith, List.take_append_drop]

/-- The slots are cut where the elements are, so that each leaf has as many of both. -/
theorem collectLeaves_transferM (f : α → m β) {s : Store α} {dest : Span}
    (fits : dest.size = s.size) (lo : Nat) :
    Window.collectLeaves t (fun (s, dest) _ => s.transferM f dest) (s, dest) lo =
      (fun ys => ((List.range' dest.lo dest.size).zip ys).toArray) <$> s.toList.mapM f := by
  let alike (p : Store α × Span) : Prop := p.2.size = p.1.size
  have ok : alike (s, dest) := fits
  have loop := collectLeaves_loop_of (t := t) alike (fun p : α × Nat => (p.2, ·) <$> f p.1)
    (fun p _ => p.1.toList.zip (List.range' p.2.lo p.2.size)) ?halves
    (fun p _ _ => p.1.transferM_eq f p.2) ?cut ok lo
  case halves =>
    intro p same
    have same : Piece.size p.2 = Piece.size p.1 := same
    have half : Piece.size p.1 / 2 ≤ Piece.size p.2 := same ▸ Nat.div_le_self _ 2
    have elems := LawfulPiece.size_cut p.1 (Nat.div_le_self (Piece.size p.1) 2)
    have slots := LawfulPiece.size_cut p.2 half
    rw [same] at slots
    exact ⟨slots.1.trans elems.1.symm, slots.2.trans elems.2.symm⟩
  case cut =>
    rintro ⟨s, dest⟩ lo same
    have same : dest.hi - dest.lo = s.size := same
    obtain ⟨front, back⟩ := toList_cut s (s.size / 2)
    have first : dest.lo + s.size / 2 - dest.lo = s.size / 2 := Nat.add_sub_cancel_left ..
    have second : dest.hi - (dest.lo + s.size / 2) = s.size - s.size / 2 := by omega
    show (Piece.cut s (s.size / 2)).1.toList.zip
        (List.range' dest.lo (dest.lo + s.size / 2 - dest.lo)) ++
      (Piece.cut s (s.size / 2)).2.toList.zip
        (List.range' (dest.lo + s.size / 2) (dest.hi - (dest.lo + s.size / 2))) =
      s.toList.zip (List.range' dest.lo (dest.hi - dest.lo))
    rw [front, back, first, second, same]
    exact zip_range'_halves s.length_toList dest.lo
  have slots : (List.range' dest.lo dest.size).length = s.toList.length := by
    rw [List.length_range', Store.length_toList, fits]
  refine loop.trans ?_
  rw [mapM_slots f slots, Functor.map_map]

theorem forkPieces_forM (f : α → m Unit) (s : Store α) (lo : Nat) :
    forkPieces t (fun s _ => s.forM f) (fun _ _ => pure ()) s lo = inTurn (s.toList.map f) := by
  refine forkPieces_sequential (fun s _ => inTurn (s.toList.map f)) (fun s _ _ => ?_)
    (fun s _ _ => ?_) s lo
  · rw [Store.forM, Store.foldlM_eq_foldlM_toList]
    induction s.toList with
    | nil => rfl
    | cons x xs ih =>
      rw [List.foldlM_cons, List.map_cons, inTurn]
      exact bind_congr fun _ => ih
  · rw [bind_pure_unit, ← inTurn_append, ← List.map_append, toList_left, toList_right,
      List.take_append_drop]

/-! ## Selections -/

theorem toList_collect (ask : Nat → m Bool) (lo n : Nat) (found : List Nat) :
    Selection.collect ask lo n found =
      (found.reverse ++ ·) <$> chosen ask (List.range' lo n) := by
  induction n generalizing lo found with
  | zero => simp [Selection.collect, chosen]
  | succ n ih =>
    rw [Selection.collect, List.range'_succ, chosen, map_bind]
    refine bind_congr fun hit => ?_
    cases hit <;> simp [ih]

/-- A selection finds what a plain loop does, and counts what it finds. -/
theorem counts_build (ask : Nat → m Bool) (lo n : Nat) :
    (fun s => (s.toList, s.size)) <$> Selection.build t ask lo n =
      (fun hits => (hits, hits.length)) <$> chosen ask (List.range' lo n) := by
  induction n using Nat.strongRecOn generalizing lo with
  | ind n ih =>
    by_cases short : n ≤ t.val
    · rw [Selection.build_of_le _ _ short, toList_collect]
      simp [Selection.toList, Selection.size]
    · have two := Threshold.two_le short
      let counts (s : Selection) : List Nat × Nat := (s.toList, s.size)
      rw [Selection.build_of_lt _ _ short, SequentialFork.join_eq, range'_halves, chosen_append]
      calc
        _ = (do
            let front ← counts <$> Selection.build t ask lo (n / 2)
            let back ← counts <$> Selection.build t ask (lo + n / 2) (n - n / 2)
            pure (front.1 ++ back.1, front.2 + back.2)) := by
          simp [counts, Selection.toList, Selection.size]
        _ = _ := by simp [counts, ih (n / 2) (by omega), ih (n - n / 2) (by omega)]

theorem toList_build (ask : Nat → m Bool) (lo n : Nat) :
    Selection.toList <$> Selection.build t ask lo n = chosen ask (List.range' lo n) := by
  have counts := congrArg (Prod.fst <$> ·) (counts_build (t := t) ask lo n)
  simpa using counts

end

end

end Bisection
