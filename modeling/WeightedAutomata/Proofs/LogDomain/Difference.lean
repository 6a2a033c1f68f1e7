import WeightedAutomata.LogDomain.Words
import Mathlib.Order.Lattice
import Mathlib.Order.Nat

/-!
Differences of logarithms, from one gap to the next.

The step of a difference is counted from the smaller logarithm. Counted from the larger one it says
how far the difference lies below, and that is nothing past the end of the table. Where a step grows
by one at least from each gap to the next, the way down gets shorter as the gap gets wider. So the
three cases of a difference (no number to take away, a step of the table, a gap past its end) join
without a fall.
-/

namespace WeightedAutomata.LogDomain

variable {d : LogDomain}

/-- How far a difference lies below the larger of two logarithms with this gap. -/
def fall (d : LogDomain) (gap : Nat) : Int :=
  if gap < d.tableLength then gap - d.differenceStep gap else 0

/-- The steps of subtraction do not lead above the larger logarithm and grow with the gap. Two equal
logarithms have no step. -/
structure Growing (d : LogDomain) : Prop where
  le_gap : ∀ gap, 0 < gap → gap < d.tableLength → d.differenceStep gap ≤ gap
  grows : ∀ gap, 0 < gap → gap + 1 < d.tableLength →
    d.differenceStep gap + 1 ≤ d.differenceStep (gap + 1)

/-! ### One gap and the next -/

lemma Growing.fall_nonneg (h : d.Growing) {gap : Nat} (hpositive : 0 < gap) : 0 ≤ d.fall gap := by
  have hle := h.le_gap gap hpositive
  unfold fall
  split_ifs <;> omega

lemma Growing.fall_succ_le (h : d.Growing) {gap : Nat} (hpositive : 0 < gap) :
    d.fall (gap + 1) ≤ d.fall gap := by
  have hnonneg := h.fall_nonneg hpositive
  have hgrows := h.grows gap hpositive
  unfold fall at *
  split_ifs at * <;> omega

lemma Growing.fall_anti (h : d.Growing) {gap gap' : Nat} (hpositive : 0 < gap)
    (hle : gap ≤ gap') : d.fall gap' ≤ d.fall gap := by
  induction gap', hle using Nat.le_induction with
  | base => exact le_rfl
  | succ gap' hle ih => exact (h.fall_succ_le (hpositive.trans_le hle)).trans ih

/-! ### Differences -/

@[simp] lemma difference_zero (a : Log) : d.difference a .zero = a := if_pos rfl

lemma difference_of_le {a c : Log} (hle : a.val ≤ c.val) : d.difference a c = .zero := by
  by_cases hc : c = .zero
  · rw [hc, difference_zero]
    exact Log.eq_zero_of_le (hc ▸ hle)
  · exact (if_neg hc).trans (if_pos hle)

/-- What lies below the range becomes zero. Nothing lies above it. -/
lemma Growing.val_difference (h : d.Growing) {a c : Log} (hc : c ≠ .zero) (hlt : c.val < a.val) :
    (d.difference a c).val =
      max (-0x8000000000000000) (a.val - d.fall (a.val - c.val).toNat) := by
  have hage := a.ge_least
  have hale := a.le_greatest
  have hnonneg := h.fall_nonneg (show 0 < (a.val - c.val).toNat by omega)
  unfold difference fall at *
  simp only [if_neg hc, if_neg (not_le.2 hlt)]
  split_ifs with hgap
  · rw [if_pos hgap] at hnonneg
    rw [Log.val_saturate]
    omega
  · omega

lemma Growing.difference_le (h : d.Growing) (a c : Log) : (d.difference a c).val ≤ a.val := by
  have hage := a.ge_least
  by_cases hc : c = .zero
  · rw [hc, difference_zero]
  rcases le_or_gt a.val c.val with hle | hlt
  · rw [difference_of_le hle]
    exact hage
  · have hnonneg := h.fall_nonneg (show 0 < (a.val - c.val).toNat by omega)
    rw [h.val_difference hc hlt]
    omega

/-- **A difference grows with what it is taken from and falls with what is taken away**, also across
the end of the table and the lower end of the range. -/
lemma Growing.difference_mono (h : d.Growing) {a a' c c' : Log} (ha : a.val ≤ a'.val)
    (hc : c'.val ≤ c.val) : (d.difference a c).val ≤ (d.difference a' c').val := by
  have hage := (d.difference a' c').ge_least
  rcases le_or_gt a.val c.val with hle | hlt
  · rw [difference_of_le hle]
    exact hage
  by_cases hzero' : c' = .zero
  · rw [hzero', difference_zero]
    exact (h.difference_le a c).trans ha
  have hzero : c ≠ .zero := fun h => hzero' (Log.eq_zero_of_le (h ▸ hc))
  -- the gap is wider, so the way down is no longer
  have hfall := h.fall_anti (show 0 < (a.val - c.val).toNat by omega)
    (show (a.val - c.val).toNat ≤ (a'.val - c'.val).toNat by omega)
  rw [h.val_difference hzero hlt, h.val_difference hzero' (by omega)]
  omega

/-- On words every operation of a difference stays within its word. -/
lemma Growing.differenceInWords_eq (h : d.Growing)
    (hwords : (d.tableLength : Int) ≤ Log.greatest.val) (a c : Log) :
    d.differenceInWords a c = some (d.difference a c) := by
  unfold differenceInWords difference
  by_cases hc : c = .zero
  · simp only [if_pos hc]
  by_cases hle : a.val ≤ c.val
  · simp only [if_neg hc, if_pos hle]
  simp only [if_neg hc, if_neg hle]
  have hlow : c.val ≤ a.val := by omega
  have hnonneg := gap_nonneg hlow
  rw [if_neg (by omega)]
  by_cases hgap : (a.val - c.val).toNat < d.tableLength
  · have hstep := h.le_gap _ (show 0 < (a.val - c.val).toNat by omega) hgap
    have hale := a.le_greatest
    have hgap' := (gap_lt_tableLength_iff hwords hlow).2 hgap
    rw [if_neg (by omega), if_pos hgap, toNat_gap hwords hlow hgap, if_neg ?_]
    rw [Log.val_greatest]
    omega
  · have hgap' := mt (gap_lt_tableLength_iff hwords hlow).1 hgap
    rw [if_pos (by omega), if_neg hgap]

end WeightedAutomata.LogDomain
