import Mathlib.Order.Defs.PartialOrder
import WeightedAutomata.Weight

/-!
The order of weights, with zero at its lower end.
-/

namespace WeightedAutomata.Weight

variable {r : Range}

instance : PartialOrder (Weight r) where
  le := (· ≤ ·)
  lt := (· < ·)
  le_refl a := Int.le_refl a.log.val
  le_trans _ _ _ hab hbc := Int.le_trans hab hbc
  lt_iff_le_not_ge _ _ := Int.lt_iff_le_and_not_ge
  le_antisymm _ _ hab hba := Weight.ext (Int.le_antisymm hab hba)

lemma le_iff {a b : Weight r} : a ≤ b ↔ a.log.val ≤ b.log.val := Iff.rfl

lemma lt_iff {a b : Weight r} : a < b ↔ a.log.val < b.log.val := Iff.rfl

lemma zero_le (a : Weight r) : 0 ≤ a := a.log.ge_least

lemma le_one (a : Weight .probability) : a ≤ 1 := a.le_top

lemma log_ne_zero {a : Weight r} (ha : a ≠ 0) : a.log ≠ .zero := fun h =>
  ha (Weight.ext (by rw [h, log_zero]))

/-- Zero's logarithm is the least, so it alone is not above itself. -/
lemma ne_zero_iff {a : Weight r} : a ≠ 0 ↔ -0x8000000000000000 < a.log.val := by
  constructor
  · intro ha
    exact Int.not_le.1 fun hle => log_ne_zero ha (Log.eq_zero_of_le hle)
  · rintro hlt rfl
    exact Int.lt_irrefl _ hlt

end WeightedAutomata.Weight
