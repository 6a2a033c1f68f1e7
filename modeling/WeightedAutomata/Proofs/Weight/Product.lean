import WeightedAutomata.Proofs.Probability
import Mathlib.Algebra.Ring.Int.Defs

/-!
Products of probabilities, in any order and in any groups.

All logarithms of probabilities are on one side of the range, so a product that has reached its end
stays there: to saturate at every step comes to the same as to saturate the exact sum of the
logarithms once. From this the laws of products of many weights follow, also of those that underflow
on the way.
-/

namespace WeightedAutomata.Weight

/-! ### Two factors -/

lemma mul_mono {a a' b b' : Weight .probability} (ha : a ≤ a') (hb : b ≤ b') : a * b ≤ a' * b' := by
  change a.log.val ≤ a'.log.val at ha
  change b.log.val ≤ b'.log.val at hb
  change (a * b).log.val ≤ (a' * b').log.val
  rw [val_mul, val_mul]
  omega

/-! ### Any number of factors -/

variable {ws : List (Weight .probability)}

lemma sum_vals_nonpos (ws : List (Weight .probability)) : (ws.map (·.log.val)).sum ≤ 0 := by
  induction ws with
  | nil => exact Int.le_refl 0
  | cons w ws ih =>
    have hw := w.val_nonpos
    rw [List.map_cons, List.sum_cons]
    omega

/-- **A product saturates as the exact sum of its logarithms does.** -/
lemma val_product (ws : List (Weight .probability)) :
    (product ws).log.val = max (-0x8000000000000000) (ws.map (·.log.val)).sum := by
  rw [product_eq_prod]
  induction ws with
  | nil => rfl
  | cons w ws ih =>
    have hw := w.val_nonpos
    rw [List.prod_cons, val_mul, ih, List.map_cons, List.sum_cons]
    omega

lemma product_append (ws vs : List (Weight .probability)) :
    product (ws ++ vs) = product ws * product vs := by
  simp only [product_eq_prod, List.prod_append]

lemma sum_vals_le_of_mem {w : Weight .probability} (hw : w ∈ ws) :
    (ws.map (·.log.val)).sum ≤ w.log.val := by
  obtain ⟨before, after, rfl⟩ := List.append_of_mem hw
  have hbefore := sum_vals_nonpos before
  have hafter := sum_vals_nonpos after
  rw [List.map_append, List.map_cons, List.sum_append, List.sum_cons]
  omega

lemma product_eq_zero_iff :
    product ws = 0 ↔ (ws.map (·.log.val)).sum ≤ -0x8000000000000000 := by
  have hval := val_product ws
  constructor
  · intro h
    rw [h, log_zero, Log.val_zero] at hval
    omega
  · intro h
    refine Weight.ext ?_
    rw [hval, log_zero, Log.val_zero]
    omega

/-- **Products of probabilities depend neither on order nor on grouping**, whether or not they
underflow on the way. Multiplication is commutative, associative and monotone, with one neutral and
zero absorbing; it adds logarithms and collapses nothing. A product is zero exactly when a factor is
or the exact sum of the logarithms has left the range. -/
theorem product_regular :
    (∀ a b : Weight .probability, a * b = b * a) ∧
    (∀ a b c : Weight .probability, a * b * c = a * (b * c)) ∧
    (∀ a a' b b' : Weight .probability, a ≤ a' → b ≤ b' → a * b ≤ a' * b') ∧
    (∀ a : Weight .probability, 1 * a = a ∧ a * 1 = a ∧ 0 * a = 0 ∧ a * 0 = 0) ∧
    (∀ a b : Weight .probability, (a * b).log = a.log.times b.log ∧ (a * b).log.val ≤ 0) ∧
    (∀ ws vs : List (Weight .probability), ws.Perm vs → product ws = product vs) ∧
    (∀ ws vs : List (Weight .probability), product (ws ++ vs) = product ws * product vs) ∧
    (∀ ws : List (Weight .probability), product ws = 0 ↔
      0 ∈ ws ∨ (ws.map (·.log.val)).sum ≤ -0x8000000000000000) := by
  refine ⟨mul_comm, mul_assoc, fun a a' b b' ha hb => mul_mono ha hb,
    fun a => ⟨one_mul a, mul_one a, zero_mul a, mul_zero a⟩,
    fun a b => ⟨log_mul_eq_times a b, (a * b).val_nonpos⟩, fun ws vs h => ?_, product_append,
    fun ws => ?_⟩
  · rw [product_eq_prod, product_eq_prod, h.prod_eq]
  · rw [product_eq_zero_iff]
    refine ⟨Or.inr, fun h => h.elim (fun hzero => ?_) id⟩
    exact sum_vals_le_of_mem hzero

/-- Three probabilities of which the first two together underflow. -/
def underflowing : List (Weight .probability) :=
  [⟨.saturate (-0x7fffffffffffffff), by decide⟩, ⟨.saturate (-1), by decide⟩, 1]

/-- The last weight is one and comes first in the other order; the product is zero in both, though
no factor is. -/
theorem product_regular_underflowing :
    underflowing.Perm underflowing.reverse ∧ product underflowing = product underflowing.reverse ∧
      product underflowing = 0 ∧ 0 ∉ underflowing ∧
      (0 : Weight .probability) ≤ 1 ∧ underflowing[1] ≤ 1 ∧
      (0 : Weight .probability) * underflowing[1] ≤ 1 * 1 := by
  have hperm : underflowing.Perm underflowing.reverse := underflowing.reverse_perm.symm
  have hle : (0 : Weight .probability) ≤ 1 := by decide
  have hle' : underflowing[1] ≤ 1 := by decide
  obtain ⟨-, -, hmono, -, -, hunordered, -, hzero⟩ := product_regular
  exact ⟨hperm, hunordered _ _ hperm, (hzero _).2 (Or.inr (by decide)), by decide, hle, hle',
    hmono _ _ _ _ hle hle'⟩

end WeightedAutomata.Weight
