import Bisection.Element.Kinds
import Bisection.Script.Step

/-!
# Lawful scripts

What a script is expected to be like for its results not to depend on who runs it: its callbacks
never give up, operators are associative, comparators are total preorders, and a sort takes only
identical elements for equal. The elements are expected to obey the laws of their order and of their
keys, which those of each kind do.
-/

namespace Bisection
set_option autoImplicit false

/-! ## Elements -/

/-- The natural order is a total preorder, having the same key is an equivalence, and elements with
the same key are hashed from the same bytes. -/
class LawfulElement (α : Type) [Element α] : Prop where
  order : Std.TransOrd α
  keys : Equivalence fun x y : α => UniqueKey.sameKey x y = true
  bytes : ∀ x y : α, UniqueKey.sameKey x y → UniqueKey.keyBytes x = UniqueKey.keyBytes y

namespace LawfulElement

/-- Having the same key is an equivalence if keys are values that are compared. -/
theorem equivalence_of_key {α κ : Type} [BEq κ] [LawfulBEq κ] (key : α → κ) :
    Equivalence fun x y => (key x == key y) = true where
  refl _ := BEq.rfl
  symm := BEq.symm
  trans := BEq.trans

instance {k : IntKind} : LawfulElement (Fixed k) where
  order := inferInstanceAs (Std.TransCmp (compareOn Fixed.val))
  keys := equivalence_of_key id
  bytes _ _ same := congrArg _ (eq_of_beq same)

instance {f : BinaryFormat} : LawfulElement (Binary f) where
  order := inferInstanceAs (Std.TransCmp (compareOn Binary.rank))
  keys := equivalence_of_key Binary.canonicalBits
  bytes _ _ same := congrArg (littleEndian _) (eq_of_beq same)

instance : LawfulElement Char where
  order := inferInstanceAs (Std.TransOrd Char)
  keys := equivalence_of_key id
  bytes _ _ same := congrArg _ (eq_of_beq same)

instance : LawfulElement Bool where
  order := inferInstanceAs (Std.TransOrd Bool)
  keys := equivalence_of_key id
  bytes _ _ same := congrArg _ (eq_of_beq same)

instance : LawfulElement String where
  order := inferInstanceAs (Std.TransOrd String)
  keys := equivalence_of_key id
  bytes _ _ same := congrArg _ (eq_of_beq same)

instance : LawfulElement Unit where
  order := inferInstanceAs (Std.TransCmp (compareOn fun _ : Unit => (0 : Nat)))
  keys := ⟨fun _ => rfl, fun _ => rfl, fun _ _ => rfl⟩
  bytes _ _ _ := rfl

instance : LawfulElement Keyed where
  order := inferInstanceAs (Std.TransCmp (compareOn fun x : Keyed => x.key.val))
  keys := equivalence_of_key Keyed.key
  bytes _ _ same := congrArg Fixed.bytes (eq_of_beq same)

end LawfulElement

/-! ## Callbacks -/

namespace Callback
variable {α β γ : Type}

/-- A callback that never gives up, and computes what a plain function does. -/
def Computes (f : α → Except Abort β) (g : α → β) : Prop := ∀ x, f x = .ok (g x)

/-- A callback on pairs that never gives up. -/
def Computes₂ (f : α → β → Except Abort γ) (g : α → β → γ) : Prop := ∀ x y, f x y = .ok (g x y)

end Callback

open Callback

/-- The callbacks of an operation never give up, and are what the operation expects of them. -/
def Operation.Lawful {α : Type} [Element α] : Operation α → Prop
  | .forEach f | .replaceWith f => ∃ g, Computes f g
  | .replaceWithIndex f => ∃ g, Computes f g
  | .replaceWithCombined _ f => ∃ g, Computes₂ f g
  | .replaceWithSizes _ f => ∃ g, Computes₂ f g
  | .reduce _ op | .cumulate _ op | .precumulate _ op => ∃ g, Computes₂ op g ∧ Std.Associative g
  | .summaryBy cmp => ∃ g, Computes₂ cmp g ∧ Std.TransCmp g
  | .anyIndex p | .any p | .all p | .removeAll p | .retain p => ∃ g, Computes p g
  | .appendSelected p _ => ∃ g, Computes p g
  | .sort => ∀ x y : α, compare x y = .eq → x = y
  | .sortBy cmp => ∃ g, Computes₂ cmp g ∧ Std.TransCmp g ∧ ∀ x y, g x y = .eq → x = y
  | .isSortedBy cmp => ∃ g, Computes₂ cmp g
  | .info | .summary | .indexOf _ | .removeConsecutiveDuplicates | .isSorted => True

mutual

/-- The callbacks of a step and of the steps in it are lawful. -/
def Step.Lawful {α : Type} [Element α] : Step α → Prop
  | .withThreshold _ => True
  | .bounds _ _ steps => steps.Lawful
  | .perform op _ => op.Lawful
  | @Step.map _ β _ f _ sequel => LawfulElement β ∧ (∃ g, Computes f g) ∧ sequel.Lawful
  | .select p _ sequel => (∃ g, Computes p g) ∧ sequel.Lawful
  | .unique _ sequel => sequel.Lawful

/-- Each of the steps is lawful. -/
def Steps.Lawful {α : Type} [Element α] : Steps α → Prop
  | .nil => True
  | .cons first rest => first.Lawful ∧ rest.Lawful

/-- The steps on a new array are lawful. -/
def Sequel.Lawful {α : Type} [Element α] : Sequel α → Prop
  | .absent => True
  | .steps steps => steps.Lawful

end

end Bisection
