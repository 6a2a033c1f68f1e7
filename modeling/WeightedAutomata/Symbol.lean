import WeightedAutomata.Error
import WeightedAutomata.Text.Padded
import WeightedAutomata.Text.Quoted

/-!
Symbols of an alphabet, with epsilon for "nothing is read or written".

Epsilon comes before every concrete value in the order and equals none of them, not even the
value whose text is the same.
-/

namespace WeightedAutomata

/-- Values that can be told apart and put in order. -/
class Alphabet (α : Type) extends Ord α, Std.TransOrd α, Std.LawfulEqOrd α where
  decEq (a b : α) : Decidable (a = b)

instance {α : Type} [Alphabet α] : DecidableEq α := Alphabet.decEq

instance : Alphabet String where
  decEq := inferInstance

inductive Symbol (α : Type) where
  | epsilon
  | concrete (value : α)
  deriving DecidableEq

namespace Symbol

variable {α β : Type}

instance : Inhabited (Symbol α) := ⟨epsilon⟩

def isEpsilon : Symbol α → Bool
  | epsilon => true
  | concrete _ => false

def value? : Symbol α → Option α
  | epsilon => none
  | concrete a => some a

/-- The concrete value; epsilon has none to give. -/
def value : Symbol α → Except Error α
  | epsilon => .error .epsilonCast
  | concrete a => .ok a

def map (f : α → β) : Symbol α → Symbol β
  | epsilon => epsilon
  | concrete a => concrete (f a)

/-- Epsilon first, then the order of the values. -/
protected def compare [Ord α] : Symbol α → Symbol α → Ordering
  | epsilon, epsilon => .eq
  | epsilon, concrete _ => .lt
  | concrete _, epsilon => .gt
  | concrete a, concrete b => compare a b

instance [Ord α] : Ord (Symbol α) := ⟨Symbol.compare⟩

instance [Ord α] [Std.TransOrd α] : Std.TransOrd (Symbol α) where
  eq_swap {a b} := by
    cases a <;> cases b <;> simp [compare, Symbol.compare]
    exact Std.OrientedCmp.eq_swap
  isLE_trans {a b c} hab hbc := by
    cases a <;> cases b <;> cases c <;> simp_all [compare, Symbol.compare]
    exact Std.TransCmp.isLE_trans hab hbc

instance [Ord α] [Std.LawfulEqOrd α] : Std.LawfulEqOrd (Symbol α) where
  compare_self {a} := by
    cases a <;> simp [compare, Symbol.compare]
  eq_of_compare {a b} h := by
    cases a <;> cases b <;> simp_all [compare, Symbol.compare]

variable [Text.Shown α]

def text : Symbol α → String
  | epsilon => "<eps>"
  | concrete a => Text.Shown.text a

/-- The constructor, with the value's literal form. -/
def literal : Symbol α → String
  | epsilon => "Epsilon"
  | concrete a => s!"Value({Text.Shown.literal a})"

/-- A concrete value is set into the field; epsilon keeps its own text in every field. -/
def setInto (f : Text.Field) : Symbol α → String
  | epsilon => "<eps>"
  | concrete a => f.set a

end Symbol

/-- Strings go to the left of a field and are cut by its limit. -/
instance : Text.Shown String := ⟨id, Text.quoted, .left, true⟩

/-- Numbers go to the right of a field and are never cut. -/
instance : Text.Shown Int := ⟨toString, toString, .right, false⟩

end WeightedAutomata
