import Bisection.Proofs.Pieces.Halving
import Bisection.Proofs.Search.Stopping

/-!
# What a single worker reports of a search

A worker that searches alone reports a match when it finds one, and after that each range that it
leaves out. These are the halves to the right of the way down to the leaf of the match: they are
met from the leaf up, so their order is that of the indices, and together they are all that is left
of the range. What is in them is never looked at.
-/

namespace Bisection
set_option autoImplicit false

/-! ## The ranges that are left out -/

namespace Halving

/-- The right halves beside the way from the top of a tree to an index, from the leaf up. -/
def rightOf : Halving → Nat → List Span
  | leaf _, _ => []
  | node _ left right, i =>
    if i < right.span.lo then left.rightOf i ++ [right.span] else right.rightOf i

/-- What a worker reports of its search for the first match of a tree. -/
def reports (tree : Halving) : Option Nat → List Notice
  | none => []
  | some i => .found i true :: (tree.rightOf i).map fun s => .skipping s.lo s.hi

/-- The leaf of an index, with the leaves on both sides of it. What is to the right of the way to
this leaf tiles the rest of the range. -/
structure Around (lo hi i : Nat) (tree : Halving) (before : List Span) (leaf : Span)
    (after : List Span) : Prop where
  leaves : tree.leaves = before ++ leaf :: after
  inside : leaf.lo ≤ i ∧ i < leaf.hi
  front : Tiles lo leaf.lo before
  back : Tiles leaf.hi hi (tree.rightOf i)
  nonempty : ∀ s ∈ tree.rightOf i, s.lo < s.hi

end Halving

section
variable {t : Threshold} {lo n i : Nat}

/-- Of an index in the left half the right half is passed over last. -/
theorem rightOf_of_left (h : ¬ n ≤ t.val) (left : i < lo + n / 2) : (halving t lo n).rightOf i =
    (halving t lo (n / 2)).rightOf i ++ [⟨lo + n / 2, lo + n⟩] := by
  have whole : lo + n / 2 + (n - n / 2) = lo + n := by omega
  rw [halving_of_lt h, Halving.rightOf, span_halving, if_pos left, whole]

theorem rightOf_of_right (h : ¬ n ≤ t.val) (right : lo + n / 2 ≤ i) :
    (halving t lo n).rightOf i = (halving t (lo + n / 2) (n - n / 2)).rightOf i := by
  rw [halving_of_lt h, Halving.rightOf, span_halving, if_neg (Nat.not_lt.mpr right)]

/-- With a match in the left half the right half is skipped. -/
theorem reports_of_left (h : ¬ n ≤ t.val) (left : i < lo + n / 2) :
    (halving t lo n).reports (some i) =
      (halving t lo (n / 2)).reports (some i) ++ [.skipping (lo + n / 2) (lo + n)] := by
  rw [Halving.reports, rightOf_of_left h left, List.map_append]
  rfl

/-- Without a match in the left half nothing of it is reported. -/
theorem reports_of_right (h : ¬ n ≤ t.val) {found : Option Nat}
    (right : ∀ i, found = some i → lo + n / 2 ≤ i) : (halving t lo n).reports found =
      (halving t (lo + n / 2) (n - n / 2)).reports found := by
  cases found with
  | none => rfl
  | some i => rw [Halving.reports, Halving.reports, rightOf_of_right h (right i rfl)]

/-- Each index of a range is in one of its leaves. -/
theorem exists_around (t : Threshold) (above : lo ≤ i) (below : i < lo + n) :
    ∃ before leaf after, (halving t lo n).Around lo (lo + n) i before leaf after := by
  induction n using Nat.strongRecOn generalizing lo with
  | ind n ih =>
    by_cases h : n ≤ t.val
    · rw [halving_of_le h]
      exact ⟨[], _, [], rfl, ⟨above, below⟩, rfl, rfl, nofun⟩
    · have two := Threshold.two_le h
      have whole : lo + n / 2 + (n - n / 2) = lo + n := by omega
      have some : lo + n / 2 < lo + n := by omega
      have rest : lo + n / 2 ≤ lo + n := Nat.le_of_lt some
      rcases Nat.lt_or_ge i (lo + n / 2) with left | right
      · obtain ⟨before, leaf, after, around⟩ := ih (n / 2) (by omega) above left
        refine ⟨before, leaf, after ++ (halving t (lo + n / 2) (n - n / 2)).leaves, ?_,
          around.inside, around.front, ?_, ?_⟩
        · rw [halving_of_lt h, Halving.leaves, around.leaves, List.append_assoc, List.cons_append]
        · rw [rightOf_of_left h left]
          exact around.back.append ⟨rfl, rest, rfl⟩
        · rw [rightOf_of_left h left]
          exact List.forall_mem_append.mpr ⟨around.nonempty, List.forall_mem_singleton.mpr some⟩
      · obtain ⟨before, leaf, after, around⟩ := ih (n - n / 2) (by omega) right (by omega)
        have front := (tiles_leaves t lo (n / 2)).append around.front
        rw [whole] at around
        refine ⟨(halving t lo (n / 2)).leaves ++ before, leaf, after, ?_, around.inside, front, ?_,
          ?_⟩
        · rw [halving_of_lt h, Halving.leaves, around.leaves, List.append_assoc]
        · rw [rightOf_of_right h right]
          exact around.back
        · rw [rightOf_of_right h right]
          exact around.nonempty

end

/-! ## The journal -/

theorem text_found (i : Nat) :
    (Notice.found i true).text = s!"TRACE [search] Found index {i} (stored: true)" := by
  have stored (front : String) :
      front ++ " (stored: " ++ toString true ++ ")" = front ++ " (stored: true)" := by
    rw [String.append_assoc, String.append_assoc]
    exact congrArg (front ++ ·) (by decide)
  exact stored (toString "TRACE [search] Found index " ++ toString i)

namespace Watched
variable {β γ : Type} {x : Watched β} {f : β → Watched γ} {b : β} {xs ys : List Notice}

/-- A computation reports these notices one after the other and ends like this, whatever the journal
says before. -/
def Notes (x : Watched β) (notices : List Notice) (r : Except Abort β) : Prop :=
  ∀ j, ∃ j', (ExceptT.run x).run j = (r, j') ∧ j'.notices.toList = j.notices.toList ++ notices

theorem notes_pure (b : β) : (pure b : Watched β).Notes [] (.ok b) :=
  fun j => ⟨j, rfl, (List.append_nil _).symm⟩

theorem notes_note (n : Notice) : (Reports.note n : Watched Unit).Notes [n] (.ok ()) :=
  fun j => ⟨{ j with notices := j.notices.push n }, rfl, Array.toList_push⟩

/-- Notices come in the order in which the parts are run. -/
theorem Notes.bind {r : Except Abort γ} (first : x.Notes xs (.ok b)) (next : (f b).Notes ys r) :
    (x >>= f).Notes (xs ++ ys) r := by
  intro j
  obtain ⟨j', ran, told⟩ := first j
  obtain ⟨j'', ran', told'⟩ := next j'
  refine ⟨j'', (run_bind ran).trans ran', ?_⟩
  rw [told', told, List.append_assoc]

theorem Notes.attempt {r : Except Abort β} (notes : x.Notes xs r) :
    (Fork.attempt x : Watched _).Notes xs (.ok r) := by
  intro j
  obtain ⟨j', ran, told⟩ := notes j
  refine ⟨j', ?_, told⟩
  show StateT.run (Except.ok <$> ExceptT.run x) j = _
  rw [StateT.run_map, ran]
  rfl

/-- A call of the predicate reports nothing. -/
theorem notes_asking (p : Nat → Except Abort Bool) (i : Nat) : (asking p i).Notes [] (p i) :=
  fun j => ⟨{ j with calls := j.calls + 1, arguments := j.arguments.push (.index i) }, rfl,
    (List.append_nil _).symm⟩

end Watched

open Watched

section
variable {p : Nat → Bool} {t : Threshold} {lo hi n i : Nat}

/-- A loop over a leaf reports nothing. -/
theorem notes_firstMatch (p : Nat → Bool) (lo hi : Nat) :
    (firstMatch (asking (Callback.ofFun p)) lo hi).Notes []
      (.ok ((List.range' lo (hi - lo)).find? p)) := by
  induction len : hi - lo generalizing lo with
  | zero =>
    rw [firstMatch_of_le _ (by omega)]
    exact notes_pure none
  | succ n ih =>
    rw [firstMatch_of_lt _ (by omega), List.range'_succ, List.find?_cons, ← List.append_nil []]
    refine (notes_asking (Callback.ofFun p) lo).bind ?_
    cases p lo with
    | true => exact notes_pure (some lo)
    | false => exact ih (lo + 1) (by omega)

/-- A leaf with a match reports it once it is stored. -/
theorem notes_searchLeaf (p : Nat → Bool) (lo hi : Nat) (span : Span) :
    let found := (List.range' lo (hi - lo)).find? p
    (searchLeaf (asking (Callback.ofFun p)) lo hi .empty).Notes ((Halving.leaf span).reports found)
      (.ok (.ofFirst found, none)) := by
  intro found
  rw [← List.nil_append (Halving.reports _ _)]
  refine (notes_firstMatch p lo hi).attempt.bind ?_
  unfold found
  cases (List.range' lo (hi - lo)).find? p with
  | none => exact notes_pure _
  | some i => exact (notes_note _).bind (notes_pure _)

/-- A range that is reached after a match is reported, and nothing in it is. -/
theorem notes_searchRange_set {cell : MatchCell} (set : cell.isSet) (lo hi : Nat) :
    (searchRange t (searchLeaf (asking (Callback.ofFun p))) lo hi cell).Notes [.skipping lo hi]
      (.ok (cell, none)) := by
  rw [searchRange, if_pos set]
  exact (notes_note _).bind (notes_pure _)

/-- The right half starts with the cell that the left half leaves. -/
theorem notes_searchRange_halves {xs ys : List Notice} {cell cell' : MatchCell} (long : ¬ n ≤ t.val)
    (first : (searchRange t (searchLeaf (asking (Callback.ofFun p))) lo (lo + n / 2)
      .empty).Notes xs (.ok (cell, none)))
    (second : (searchRange t (searchLeaf (asking (Callback.ofFun p))) (lo + n / 2) (lo + n)
      cell).Notes ys (.ok (cell', none))) :
    (searchRange t (searchLeaf (asking (Callback.ofFun p))) lo (lo + n) .empty).Notes (xs ++ ys)
      (.ok (cell', none)) := by
  have long' : ¬ lo + n - lo ≤ t.val := by rwa [Nat.add_sub_cancel_left]
  rw [searchRange, MatchCell.isSet_empty, if_neg Bool.false_ne_true, dif_neg long',
    Nat.add_sub_cancel_left, ← List.append_nil ys]
  exact first.bind (second.bind (notes_pure _))

/-- A range reports the match that its first leaf with one stores, and what is skipped then. -/
theorem notes_searchRange (small : lo + n ≤ maxSize) :
    let found := (List.range' lo n).find? p
    (searchRange t (searchLeaf (asking (Callback.ofFun p))) lo (lo + n) .empty).Notes
      ((halving t lo n).reports found) (.ok (.ofFirst found, none)) := by
  intro found
  unfold found
  induction n using Nat.strongRecOn generalizing lo with
  | ind n ih =>
    by_cases short : n ≤ t.val
    · have leaf := notes_searchLeaf p lo (lo + n) ⟨lo, lo + n⟩
      rw [Nat.add_sub_cancel_left] at leaf
      rw [searchRange_of_le rfl short, halving_of_le short]
      exact leaf
    · have two := Threshold.two_le short
      have whole : lo + n / 2 + (n - n / 2) = lo + n := by omega
      have middle : lo + n / 2 ≤ maxSize := by omega
      have left := ih (n / 2) (by omega) middle
      have right := ih (n - n / 2) (by omega) (whole.trans_le small)
      rw [whole] at right
      rw [range'_halves lo n, List.find?_append]
      cases hit : (List.range' lo (n / 2)).find? p with
      | none =>
        rw [hit] at left
        rw [Option.none_or, reports_of_right short fun i hit =>
          (List.mem_range'_1.mp (List.mem_of_find?_eq_some hit)).1]
        exact notes_searchRange_halves short left right
      | some i =>
        have inside := List.mem_range'_1.mp (List.mem_of_find?_eq_some hit)
        -- The match is in the cell by now, so that the right half is left out.
        have set : (MatchCell.ofFirst (some i)).isSet := by
          rw [MatchCell.isSet_eq, ← hit, MatchCell.get_ofFirst (by omega), hit]
          rfl
        rw [hit] at left
        rw [Option.some_or, reports_of_left short inside.2]
        exact notes_searchRange_halves short left (notes_searchRange_set set _ _)

/-- A search reports what the search of its range does. -/
theorem notes_findAny (lo : Nat) (small : hi ≤ maxSize) (t : Threshold) (p : Nat → Bool) :
    let found := (List.range' lo (hi - lo)).find? p
    (findAny t (asking (Callback.ofFun p)) lo hi).Notes ((halving t lo (hi - lo)).reports found)
      (.ok found) := by
  intro found
  have search : (searchRange t (searchLeaf (asking (Callback.ofFun p))) lo hi .empty).Notes
      ((halving t lo (hi - lo)).reports found) (.ok (.ofFirst found, none)) := by
    rcases Nat.le_total hi lo with empty | range
    · have short : hi - lo ≤ t.val := Nat.sub_eq_zero_of_le empty ▸ Nat.zero_le t.val
      rw [searchRange, MatchCell.isSet_empty, if_neg Bool.false_ne_true, dif_pos short,
        halving_of_le short]
      exact notes_searchLeaf p lo hi _
    · obtain ⟨n, rfl⟩ := Nat.exists_eq_add_of_le range
      unfold found
      rw [Nat.add_sub_cancel_left]
      exact notes_searchRange small
  have answer : (MatchCell.ofFirst found).get = found := by
    unfold found
    rcases Nat.le_total hi lo with empty | range
    · rw [Nat.sub_eq_zero_of_le empty]
      rfl
    · exact MatchCell.get_ofFirst (by omega)
  rw [← List.append_nil (Halving.reports _ _)]
  refine search.bind ?_
  show Notes (pure (MatchCell.ofFirst found).get) [] _
  rw [answer]
  exact notes_pure found

/-- What is told of a search for a predicate that never fails. -/
theorem exists_run_findAny (lo : Nat) (small : hi ≤ maxSize) (t : Threshold) {found : Option Nat}
    (first : firstStop (Callback.ofFun p) lo (hi - lo) = found) :
    ∃ j, (findAny t (asking (Callback.ofFun p)) lo hi).run' = (.ok found, j) ∧
      j.notices.toList = (halving t lo (hi - lo)).reports found ∧
      j.arguments.toList = (askedUntil lo (hi - lo) found).map .index := by
  have ends : stopped (Callback.ofFun p) found = .ok found := by
    cases found <;> rfl
  obtain ⟨xs, asks, clean⟩ := asks_findAny lo small t (Callback.ofFun p)
  have notes := notes_findAny lo small t p
  rw [show (List.range' lo (hi - lo)).find? p = found from first] at notes
  obtain ⟨j, ran, asked⟩ := asks .empty
  obtain ⟨j', ran', noted⟩ := notes .empty
  obtain rfl : j = j' := congrArg Prod.snd (ran.symm.trans ran')
  rw [first] at clean
  rw [clean found ends] at asked
  exact ⟨j, ran', noted, asked⟩

end

/-- A search by a single worker for what a predicate accepts. Unless there is a match nothing is
reported. A first match is reported first, and then, in order, the ranges to the right of the way to
its leaf, which tile all that is left of the search after this leaf. None of them is empty, nothing
in them is asked about, and as each range that is reached is reported, none of them is cut. -/
theorem findAny_reports (t : Threshold) (p : Nat → Bool) (lo hi : Nat) (small : hi ≤ maxSize) :
    let run := (findAny t (onIndex ⟨true, true⟩ (Callback.ofFun p)) lo hi).run'
    let tree := halving t lo (hi - lo)
    (∀ i, lo ≤ i → i < hi → p i → (∀ k, lo ≤ k → k < i → p k = false) →
      let skipped := tree.rightOf i
      run.1 = .ok (some i) ∧
      run.2.notices.toList = .found i true :: skipped.map (fun s => .skipping s.lo s.hi) ∧
      run.2.notices.toList.map Notice.text =
        s!"TRACE [search] Found index {i} (stored: true)" :: skipped.map (fun s =>
          s!"TRACE [search] Skipping range {s.lo}..{s.hi}, a match was already found") ∧
      run.2.arguments.toList = (List.range' lo (i + 1 - lo)).map .index ∧
      (∀ s ∈ skipped, s.lo < s.hi) ∧
      ∃ before leaf after, tree.leaves = before ++ leaf :: after ∧ leaf.lo ≤ i ∧ i < leaf.hi ∧
        Tiles leaf.hi hi skipped ∧ Tiles lo hi (before ++ leaf :: skipped)) ∧
    ((∀ k, lo ≤ k → k < hi → p k = false) →
      run.1 = .ok none ∧ run.2.notices = #[] ∧
      run.2.arguments.toList = (List.range' lo (hi - lo)).map .index) := by
  intro run tree
  constructor
  · intro i above below hit before skipped
    have first : firstStop (Callback.ofFun p) lo (hi - lo) = some i := by
      refine firstStop_eq_some_iff.mpr ⟨above, below, fun skip => ?_, fun k above before' => ?_⟩
      · rw [Callback.ofFun, hit] at skip
        cases skip
      · rw [Callback.ofFun, before k above before']
    have whole : lo + (hi - lo) = hi := by omega
    obtain ⟨j, ran, noted, asked⟩ := exists_run_findAny lo small t first
    obtain ⟨prior, leaf, after, around⟩ := exists_around t above (whole.symm ▸ below)
    have back := around.back
    rw [whole] at back
    rw [show run = _ from ran]
    refine ⟨rfl, noted, ?_, asked, around.nonempty, prior, leaf, after, around.leaves,
      around.inside.1, around.inside.2, back, around.front.append ⟨rfl, ?_, back⟩⟩
    · rw [noted, Halving.reports, List.map_cons, text_found, List.map_map]
      rfl
    · exact Nat.le_of_lt (Nat.lt_of_le_of_lt around.inside.1 around.inside.2)
  · intro unmatched
    have first : firstStop (Callback.ofFun p) lo (hi - lo) = none := by
      refine firstStop_eq_none_iff.mpr fun k above below => ?_
      rw [Callback.ofFun, unmatched k above below]
    obtain ⟨j, ran, noted, asked⟩ := exists_run_findAny lo small t first
    rw [show run = _ from ran]
    exact ⟨rfl, Array.toList_inj.mp noted, asked⟩

/-- The match at 2 is in the leaf `2..4`, to the right of which `4..8` and `8..15` are left. -/
theorem findAny_reports_sample :
    let p (i : Nat) : Bool := i % 5 = 2
    let run := (findAny ⟨2, by decide⟩ (onIndex ⟨true, true⟩ (Callback.ofFun p)) 1 15).run'
    15 ≤ maxSize ∧ p 2 ∧ (∀ k, 1 ≤ k → k < 2 → p k = false) ∧
    run.1 = .ok (some 2) ∧ run.2.notices = #[.found 2 true, .skipping 4 8, .skipping 8 15] ∧
    run.2.arguments = #[.index 1, .index 2] ∧
    ∃ before leaf after, (halving ⟨2, by decide⟩ 1 14).leaves = before ++ leaf :: after ∧
      leaf.lo ≤ 2 ∧ 2 < leaf.hi ∧ Tiles leaf.hi 15 [⟨4, 8⟩, ⟨8, 15⟩] ∧
      Tiles 1 15 (before ++ leaf :: [⟨4, 8⟩, ⟨8, 15⟩]) := by
  intro p run
  have small : 15 ≤ maxSize := by decide
  have unmatched : ∀ k, 1 ≤ k → k < 2 → p k = false := by
    intro k above below
    obtain rfl : k = 1 := by omega
    rfl
  have skipped : (halving ⟨2, by decide⟩ 1 14).rightOf 2 = [⟨4, 8⟩, ⟨8, 15⟩] := by
    rw [rightOf_of_left (by decide) (by decide), rightOf_of_left (by decide) (by decide),
      rightOf_of_right (by decide) (by decide), halving_of_le (by decide)]
    rfl
  obtain ⟨matched, -⟩ := findAny_reports ⟨2, by decide⟩ p 1 15 small
  obtain ⟨result, notices, -, arguments, -, tiles⟩ :=
    matched 2 (by decide) (by decide) rfl unmatched
  rw [skipped] at notices tiles
  exact ⟨small, rfl, unmatched, result, Array.toList_inj.mp notices, Array.toList_inj.mp arguments,
    tiles⟩

end Bisection
