import WeightedAutomata.LogDomain
import Mathlib.Order.Monotone.Basic
import Mathlib.Order.Lattice

/-!
Sums of logarithms, from one gap to the next.

The larger of two logarithms rises by a step that depends on the gap alone and is nothing past the
end of the table. Two properties of the steps carry everything: from one gap to the next a step does
not grow, and it falls by one at most. By the first, a sum does not fall when the smaller logarithm
is raised; by the second, it does not fall when the larger one is, although the step gets smaller.
-/

namespace WeightedAutomata.LogDomain

variable {d : LogDomain}

/-- How far a sum lies above the larger of two logarithms with this gap. -/
def rise (d : LogDomain) (gap : Nat) : Nat := if gap < d.tableLength then d.sumStep gap else 0

/-- The steps of addition fall slowly and have come down to one where the table ends. -/
structure Tapering (d : LogDomain) : Prop where
  /-- No step is greater than the one before it. -/
  falls : ∀ gap, gap + 1 < d.tableLength → d.sumStep (gap + 1) ≤ d.sumStep gap
  /-- No step is less than the one before it by more than one. -/
  slowly : ∀ gap, gap + 1 < d.tableLength → d.sumStep gap ≤ d.sumStep (gap + 1) + 1
  last : ∀ gap, gap + 1 = d.tableLength → d.sumStep gap ≤ 1

/-! ### One gap and the next -/

lemma Tapering.rise_succ_le (h : d.Tapering) (gap : Nat) : d.rise (gap + 1) ≤ d.rise gap := by
  have hfalls := h.falls gap
  unfold rise
  split_ifs <;> omega

lemma Tapering.rise_le_succ (h : d.Tapering) (gap : Nat) : d.rise gap ≤ d.rise (gap + 1) + 1 := by
  have hslowly := h.slowly gap
  have hlast := h.last gap
  unfold rise
  split_ifs <;> omega

lemma Tapering.rise_anti (h : d.Tapering) : Antitone d.rise :=
  antitone_nat_of_succ_le h.rise_succ_le

lemma Tapering.add_rise_mono (h : d.Tapering) : Monotone fun gap => gap + d.rise gap :=
  monotone_nat_of_le_succ fun gap => by
    have := h.rise_le_succ gap
    omega

/-! ### Sums -/

@[simp] lemma zero_sum (c : Log) : d.sum .zero c = c := if_pos rfl

@[simp] lemma sum_zero (a : Log) : d.sum a .zero = a := by
  by_cases ha : a = .zero
  · rw [ha, zero_sum]
  · exact (if_neg ha).trans (if_pos rfl)

/-- The larger logarithm, raised by the step of the gap and cut to the range. -/
lemma val_sum {a c : Log} (ha : a ≠ .zero) (hc : c ≠ .zero) :
    (d.sum a c).val =
      min (max a.val c.val + d.rise (a.val - c.val).natAbs) 0x7fffffffffffffff := by
  have hage := a.ge_least
  have hale := a.le_greatest
  have hcge := c.ge_least
  have hcle := c.le_greatest
  have hlow : (if a.val ≤ c.val then a else c).val = min a.val c.val := by
    split_ifs <;> omega
  have hhigh : (if a.val ≤ c.val then c else a).val = max a.val c.val := by
    split_ifs <;> omega
  have hgap : (max a.val c.val - min a.val c.val).toNat = (a.val - c.val).natAbs := by omega
  unfold sum rise
  simp only [if_neg ha, if_neg hc, hlow, hhigh, hgap]
  -- inside the table the step is added, past it nothing
  by_cases hlt : (a.val - c.val).natAbs < d.tableLength
  · rw [if_pos hlt, if_pos hlt, Log.val_saturate]
    omega
  · rw [if_neg hlt, if_neg hlt, hhigh]
    omega

lemma sum_comm (a c : Log) : d.sum a c = d.sum c a := by
  by_cases ha : a = .zero
  · rw [ha, zero_sum, sum_zero]
  by_cases hc : c = .zero
  · rw [hc, zero_sum, sum_zero]
  have hgap : (a.val - c.val).natAbs = (c.val - a.val).natAbs := by omega
  refine Log.ext ?_
  rw [val_sum ha hc, val_sum hc ha, max_comm, hgap]

lemma le_sum (a c : Log) : max a.val c.val ≤ (d.sum a c).val := by
  have hale := a.le_greatest
  have hage := a.ge_least
  have hcle := c.le_greatest
  have hcge := c.ge_least
  by_cases ha : a = .zero
  · rw [ha, zero_sum, Log.val_zero]
    omega
  by_cases hc : c = .zero
  · rw [hc, sum_zero, Log.val_zero]
    omega
  rw [val_sum ha hc]
  omega

lemma sum_le (h : d.Tapering) (a c : Log) : (d.sum a c).val ≤ max a.val c.val + d.rise 0 := by
  by_cases ha : a = .zero
  · rw [ha, zero_sum]
    omega
  by_cases hc : c = .zero
  · rw [hc, sum_zero]
    omega
  have hrise := h.rise_anti (Nat.zero_le (a.val - c.val).natAbs)
  rw [val_sum ha hc]
  omega

/-- The larger of two numbers and the step of their gap, on both sides of the place where the other
becomes the larger one. -/
lemma Tapering.raised_mono (h : d.Tapering) {x x' : Int} (hx : x ≤ x') (y : Int) :
    max x y + d.rise (x - y).natAbs ≤ max x' y + d.rise (x' - y).natAbs := by
  rcases le_total x' y with hx'y | hyx'
  · -- the gap gets smaller
    have hrise := h.rise_anti (show (x' - y).natAbs ≤ (x - y).natAbs by omega)
    omega
  · rcases le_total x y with hxy | hyx
    · -- the sum of two equal numbers lies between
      have hshrinks := h.rise_anti (Nat.zero_le (x - y).natAbs)
      have hgrows := h.add_rise_mono (Nat.zero_le (x' - y).natAbs)
      simp only at hgrows
      omega
    · -- the gap gets greater, but the larger number too
      have hgrows := h.add_rise_mono (show (x - y).natAbs ≤ (x' - y).natAbs by omega)
      simp only at hgrows
      omega

lemma Tapering.sum_mono_left (h : d.Tapering) {a a' : Log} (ha : a.val ≤ a'.val) (c : Log) :
    (d.sum a c).val ≤ (d.sum a' c).val := by
  by_cases hzero : a = .zero
  · have hle := le_sum (d := d) a' c
    rw [hzero, zero_sum]
    omega
  by_cases hc : c = .zero
  · rw [hc, sum_zero, sum_zero]
    exact ha
  have hzero' : a' ≠ .zero := fun h => hzero (Log.eq_zero_of_le (h ▸ ha))
  have hraised := h.raised_mono ha c.val
  rw [val_sum hzero hc, val_sum hzero' hc]
  omega

/-- **A sum does not fall when a part is raised**, at any gap and at either end of the range. -/
lemma Tapering.sum_mono (h : d.Tapering) {a a' c c' : Log} (ha : a.val ≤ a'.val)
    (hc : c.val ≤ c'.val) : (d.sum a c).val ≤ (d.sum a' c').val :=
  calc (d.sum a c).val ≤ (d.sum a' c).val := h.sum_mono_left ha c
    _ = (d.sum c a').val := by rw [sum_comm]
    _ ≤ (d.sum c' a').val := h.sum_mono_left hc a'
    _ = (d.sum a' c').val := by rw [sum_comm]

end WeightedAutomata.LogDomain
