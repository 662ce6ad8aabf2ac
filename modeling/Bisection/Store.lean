/-!
# The elements of an array

A `Store` holds a sequence of elements. Most are held one by one. Values of a
type that has a single value take no room, so a store of them is a count, which
may be as large as a size can be. `Store.toList` is the sequence either way, and
each operation has a lemma that says what it does to the sequence.

Loops over a store take its elements one at a time, so that a loop that stops
early has only looked at the elements before.
-/

namespace Bisection
set_option autoImplicit false

/-- A sequence of elements. -/
inductive Store (α : Type) where
  /-- Elements held one by one. -/
  | cells (xs : Array α)
  /-- `count` copies of the only value of a type. -/
  | copies (single : ∀ x y : α, x = y) (x : α) (count : Nat)

namespace Store
variable {α : Type}

instance : Inhabited (Store α) := ⟨.cells #[]⟩

/-- The number of elements. -/
def size : Store α → Nat
  | cells xs => xs.size
  | copies _ _ n => n

/-- The element at an index. -/
def get? : Store α → Nat → Option α
  | cells xs, i => xs[i]?
  | copies _ x n, i => if i < n then some x else none

/-- The elements in order. -/
def toList : Store α → List α
  | cells xs => xs.toList
  | copies _ x n => List.replicate n x

/-- The elements in order. -/
def toArray : Store α → Array α
  | cells xs => xs
  | copies _ x n => Array.replicate n x

/-- The value of all elements, if the type has no other and it equals itself in its order. -/
def uniform? [Ord α] : Store α → Option α
  | cells _ => none
  | copies _ x n => if 0 < n ∧ compare x x = .eq then some x else none

/-- The elements from `lo` up to and without `hi`. -/
def slice : Store α → Nat → Nat → Store α
  | cells xs, lo, hi => if lo = 0 ∧ xs.size ≤ hi then cells xs else cells (xs.extract lo hi)
  | copies single x n, lo, hi => copies single x (min hi n - lo)

/-- The store with the elements from `lo` up to and without `hi` replaced by others. -/
def splice : Store α → Nat → Nat → Array α → Store α
  | cells xs, lo, hi, ys =>
    if lo = 0 ∧ xs.size ≤ hi then cells ys
    else cells (xs.extract 0 lo ++ ys ++ xs.extract hi xs.size)
  | copies single x n, lo, hi, ys => copies single x (min lo n + ys.size + (n - hi))

/-- The store with more elements at the end. -/
def append (s : Store α) (ys : Array α) : Store α := s.splice s.size s.size ys

/-- The store with other elements in the places from `lo` on, as far as there are such places. -/
def overwrite : Store α → Nat → Array α → Store α
  | cells xs, lo, ys => cells (ys.foldl (fun (xs, i) y => (xs.setIfInBounds i y, i + 1)) (xs, lo)).1
  | copies single x n, _, _ => copies single x n

@[simp] theorem length_toList (s : Store α) : s.toList.length = s.size := by
  cases s <;> simp [toList, size]

@[simp] theorem toList_toArray (s : Store α) : s.toArray.toList = s.toList := by
  cases s <;> simp [toList, toArray]

@[simp] theorem size_toArray (s : Store α) : s.toArray.size = s.size := by
  cases s <;> simp [toArray, size]

theorem getElem?_toList (s : Store α) (i : Nat) : s.toList[i]? = s.get? i := by
  cases s with
  | cells xs => simp [toList, get?]
  | copies single x n => simp [toList, get?, List.getElem?_replicate]

theorem toList_of_uniform? [Ord α] {s : Store α} {x : α} (h : s.uniform? = some x) :
    s.toList = List.replicate s.size x ∧ 0 < s.size ∧ compare x x = .eq := by
  cases s with
  | cells xs => simp [uniform?] at h
  | copies single y n =>
    simp only [uniform?, Option.ite_none_right_eq_some, Option.some.injEq] at h
    obtain ⟨⟨pos, eq⟩, rfl⟩ := h
    exact ⟨rfl, pos, eq⟩

theorem isSome_get? (s : Store α) (i : Nat) : (s.get? i).isSome ↔ i < s.size := by
  rw [← getElem?_toList, ← length_toList]
  simp

theorem exists_get? (s : Store α) {i : Nat} (lt : i < s.size) : ∃ x, s.get? i = some x :=
  Option.isSome_iff_exists.mp ((s.isSome_get? i).mpr lt)

@[simp] theorem toList_slice (s : Store α) (lo hi : Nat) :
    (s.slice lo hi).toList = (s.toList.take hi).drop lo := by
  cases s with
  | cells xs =>
    simp only [slice]
    split
    · next h =>
      have : xs.toList.length ≤ hi := by simpa using h.2
      simp [toList, h.1, List.take_of_length_le this]
    · simp [toList, List.extract_eq_take_drop, List.drop_take]
  | copies single x n => simp [slice, toList]

@[simp] theorem size_slice (s : Store α) (lo hi : Nat) :
    (s.slice lo hi).size = min hi s.size - lo := by
  rw [← length_toList, toList_slice]
  simp

theorem toList_slices (s : Store α) {lo hi : Nat} (h : lo ≤ hi) :
    (s.slice 0 lo).toList ++ (s.slice lo hi).toList ++ (s.slice hi s.size).toList = s.toList := by
  have front : s.toList.take lo = (s.toList.take hi).take lo := by
    rw [List.take_take, Nat.min_eq_left h]
  rw [toList_slice, toList_slice, toList_slice, List.drop_zero, front, List.take_append_drop,
    List.take_of_length_le (Nat.le_of_eq s.length_toList), List.take_append_drop]

@[simp] theorem toList_splice (s : Store α) (lo hi : Nat) (ys : Array α) :
    (s.splice lo hi ys).toList = s.toList.take lo ++ ys.toList ++ s.toList.drop hi := by
  cases s with
  | cells xs =>
    simp only [splice]
    split
    · next h =>
      have : xs.toList.length ≤ hi := by simpa using h.2
      simp [toList, h.1, List.drop_eq_nil_of_le this]
    · simp [toList, List.take_of_length_le]
  | copies single x n =>
    have h : ys.toList = List.replicate ys.size x := by
      rw [List.eq_replicate_iff]
      exact ⟨by simp, fun y _ => single y x⟩
    simp [splice, toList, h]

@[simp] theorem size_splice (s : Store α) (lo hi : Nat) (ys : Array α) :
    (s.splice lo hi ys).size = min lo s.size + ys.size + (s.size - hi) := by
  rw [← length_toList, toList_splice]
  simp [Nat.add_assoc]

@[simp] theorem toList_append (s : Store α) (ys : Array α) :
    (s.append ys).toList = s.toList ++ ys.toList := by
  rw [append, toList_splice, List.take_of_length_le (by simp), List.drop_eq_nil_of_le (by simp),
    List.append_nil]

@[simp] theorem toList_overwrite (s : Store α) {lo : Nat} {ys : Array α}
    (h : lo + ys.size ≤ s.size) : (s.overwrite lo ys).toList =
      s.toList.take lo ++ ys.toList ++ s.toList.drop (lo + ys.size) := by
  cases s with
  | cells xs =>
    have fold (ys : List α) (xs : Array α) (lo : Nat) (h : lo + ys.length ≤ xs.size) :
        (ys.foldl (fun (xs, i) y => (xs.setIfInBounds i y, i + 1)) (xs, lo)).1.toList =
          xs.toList.take lo ++ ys ++ xs.toList.drop (lo + ys.length) := by
      induction ys generalizing xs lo with
      | nil => simp
      | cons y ys ih =>
        rw [List.length_cons] at h
        have set : (xs.setIfInBounds lo y).toList.take (lo + 1) = xs.toList.take lo ++ [y] := by
          rw [Array.toList_setIfInBounds, List.take_add_one, List.take_set_of_le (Nat.le_refl lo),
            List.getElem?_set_self (by simp; omega)]
          rfl
        rw [List.foldl_cons, ih _ _ (by rw [Array.size_setIfInBounds]; omega), set,
          Array.toList_setIfInBounds, List.drop_set_of_lt (by omega)]
        simp [Nat.add_assoc, Nat.add_comm 1]
    simp only [overwrite, toList, ← Array.foldl_toList]
    exact fold ys.toList xs lo (by simpa [size] using h)
  | copies single x n =>
    have same : ys.toList = List.replicate ys.size x := by
      rw [List.eq_replicate_iff]
      exact ⟨by simp, fun y _ => single y x⟩
    simp only [size] at h
    simp only [overwrite, toList, same, List.take_replicate, List.drop_replicate,
      List.replicate_append_replicate]
    congr 1
    omega

section
variable {β : Type} {m : Type → Type} [Monad m]

/-- The fold of `n` copies of one element. -/
@[specialize] def foldCopies (f : β → α → m β) (x : α) : Nat → β → m β
  | 0, b => pure b
  | n + 1, b => do foldCopies f x n (← f b x)

/-- The fold of the elements from left to right. -/
@[inline] def foldlM (f : β → α → m β) (b : β) : Store α → m β
  | cells xs => xs.foldlM f b
  | copies _ x n => foldCopies f x n b

theorem foldCopies_eq_foldlM (f : β → α → m β) (x : α) (n : Nat) (b : β) :
    foldCopies f x n b = (List.replicate n x).foldlM f b := by
  induction n generalizing b with
  | zero => rfl
  | succ n ih =>
    rw [foldCopies, List.replicate_succ, List.foldlM_cons]
    exact congrArg (f b x >>= ·) (funext ih)

theorem foldlM_eq_foldlM_toList (f : β → α → m β) (b : β) (s : Store α) :
    s.foldlM f b = s.toList.foldlM f b := by
  cases s with
  | cells xs => rw [foldlM, toList, Array.foldlM_toList]
  | copies single x n => exact foldCopies_eq_foldlM f x n b

/-- Calls `f` on each element. -/
@[inline] def forM (f : α → m Unit) (s : Store α) : m Unit := s.foldlM (fun _ x => f x) ()

/-- The results of `f` on each element. -/
@[inline] def mapM (f : α → m β) (s : Store α) : m (Array β) :=
  s.foldlM (fun out x => do pure (out.push (← f x))) #[]

/-- The results of `f` on each index from `lo` on, as many as there are elements. -/
@[inline] def mapIndicesM (f : Nat → m β) (lo : Nat) (s : Store α) : m (Array β) :=
  s.foldlM (fun out _ => do pure (out.push (← f (lo + out.size)))) #[]

/-- The results of `f` on the elements in the same place of two stores. -/
@[inline] def zipWithM {γ : Type} (f : α → γ → m β) (s : Store α) (t : Store γ) : m (Array β) :=
  s.foldlM (fun out x =>
    match t.get? out.size with
    | some y => do pure (out.push (← f x y))
    | none => pure out) #[]

/-- All elements combined from left to right, if there are any. -/
@[inline] def reduceM (op : α → α → m α) (s : Store α) : m (Option α) :=
  s.foldlM (fun total x =>
    match total with
    | some total => some <$> op total x
    | none => pure (some x)) none

end

end Store

end Bisection
