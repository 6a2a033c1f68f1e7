import Mathlib.Order.Lattice
import WeightedAutomata.Proofs.Probability
import WeightedAutomata.Proofs.Weight.Order

/-!
Quotients and products.

A quotient subtracts what a product adds, so each undoes the other as long as neither end of the
range is reached. The least logarithm is taken for zero, so it counts as an end. With probabilities
a quotient above one collapses to zero.
-/

namespace WeightedAutomata.Weight

variable {r : Range}

/-! ### Exact sums and differences, cut to the range -/

lemma mul_eq {a b : Weight r} (ha : a ≠ 0) (hb : b ≠ 0) :
    a * b = ofLog (.saturate (a.log.val + b.log.val)) :=
  congrArg ofLog (if_neg (not_or.2 ⟨log_ne_zero ha, log_ne_zero hb⟩))

lemma div_eq {a b : Weight r} (ha : a ≠ 0) (hb : b ≠ 0) :
    a / b = ofLog (.saturate (a.log.val - b.log.val)) :=
  congrArg ofLog (if_neg (not_or.2 ⟨log_ne_zero ha, log_ne_zero hb⟩))

lemma ofLog_zero : (ofLog .zero : Weight r) = 0 := by
  refine Weight.ext ?_
  rw [log_ofLog, ite_self, log_zero]

@[simp] lemma zero_div (b : Weight r) : 0 / b = 0 :=
  (congrArg ofLog (if_pos (Or.inl rfl))).trans ofLog_zero

@[simp] lemma div_zero (a : Weight r) : a / 0 = 0 :=
  (congrArg ofLog (if_pos (Or.inr rfl))).trans ofLog_zero

lemma val_ofLog_of_mem {x : Int} (hlo : -0x8000000000000000 < x) (hhi : x ≤ r.top.val) :
    (ofLog (.saturate x) : Weight r).log.val = x := by
  have hle := r.top.le_greatest
  have hval := Log.val_saturate_of_mem hlo.le (hhi.trans hle)
  rw [log_ofLog, hval, if_pos hhi, hval]

lemma ofLog_eq_zero_of_pos {x : Int} (h : 0 < x) :
    (ofLog (.saturate x) : Weight .probability) = 0 := by
  refine Weight.ext ?_
  rw [log_ofLog, if_neg ?_, log_zero]
  change ¬ (Log.saturate x).val ≤ 0
  rw [Log.val_saturate]
  omega

lemma val_ofLog_magnitude (x : Int) : (ofLog (.saturate x) : Weight .magnitude).log.val =
    max (-0x8000000000000000) (min x 0x7fffffffffffffff) := by
  have hle : (Log.saturate x).val ≤ Range.magnitude.top.val := Log.le_greatest _
  rw [log_ofLog, if_pos hle, Log.val_saturate]

lemma magnitude_val_mul {a b : Weight .magnitude} (ha : a ≠ 0) (hb : b ≠ 0) : (a * b).log.val =
    max (-0x8000000000000000) (min (a.log.val + b.log.val) 0x7fffffffffffffff) := by
  rw [mul_eq ha hb, val_ofLog_magnitude]

lemma magnitude_val_div {a b : Weight .magnitude} (ha : a ≠ 0) (hb : b ≠ 0) : (a / b).log.val =
    max (-0x8000000000000000) (min (a.log.val - b.log.val) 0x7fffffffffffffff) := by
  rw [div_eq ha hb, val_ofLog_magnitude]

/-! ### There and back -/

lemma div_mul_of_mem {a b : Weight r} (ha : a ≠ 0) (hb : b ≠ 0)
    (hlo : -0x8000000000000000 < a.log.val - b.log.val)
    (hhi : a.log.val - b.log.val ≤ r.top.val) : a / b * b = a := by
  have hval : (a / b).log.val = a.log.val - b.log.val := by
    rw [div_eq ha hb, val_ofLog_of_mem hlo hhi]
  have hdiv : a / b ≠ 0 := ne_zero_iff.2 (by omega)
  have hle := a.le_top
  refine Weight.ext ?_
  rw [mul_eq hdiv hb, hval, sub_add_cancel, val_ofLog_of_mem (ne_zero_iff.1 ha) hle]

lemma mul_div_of_mem {a b : Weight r} (ha : a ≠ 0) (hb : b ≠ 0)
    (hlo : -0x8000000000000000 < a.log.val + b.log.val)
    (hhi : a.log.val + b.log.val ≤ r.top.val) : a * b / b = a := by
  have hval : (a * b).log.val = a.log.val + b.log.val := by
    rw [mul_eq ha hb, val_ofLog_of_mem hlo hhi]
  have hmul : a * b ≠ 0 := ne_zero_iff.2 (by omega)
  have hle := a.le_top
  refine Weight.ext ?_
  rw [div_eq hmul hb, hval, add_sub_cancel_right, val_ofLog_of_mem (ne_zero_iff.1 ha) hle]

/-- A quotient of probabilities is undone unless it is above one. -/
lemma probability_div_mul (a b : Weight .probability) :
    a / b * b = if b ≠ 0 ∧ a ≤ b then a else 0 := by
  by_cases hb : b = 0
  · simp [hb]
  by_cases ha : a = 0
  · simp [ha]
  have hage := ne_zero_iff.1 ha
  have hbge := b.val_nonpos
  by_cases hle : a ≤ b
  · have hval := le_iff.1 hle
    rw [if_pos ⟨hb, hle⟩]
    refine div_mul_of_mem ha hb (by omega) ?_
    change _ ≤ (0 : Int)
    omega
  · -- a quotient above one is no probability
    have hval := mt le_iff.2 hle
    rw [if_neg fun h => hle h.2, div_eq ha hb, ofLog_eq_zero_of_pos (by omega), zero_mul]

/-- A product of probabilities is undone unless it is zero. -/
lemma probability_mul_div (a b : Weight .probability) :
    a * b / b = if b ≠ 0 ∧ a * b ≠ 0 then a else 0 := by
  by_cases hb : b = 0
  · simp [hb]
  by_cases hmul : a * b = 0
  · simp [hmul]
  have ha : a ≠ 0 := by
    rintro rfl
    exact hmul (zero_mul b)
  have hlo := ne_zero_iff.1 hmul
  have hage := a.val_nonpos
  have hbge := b.val_nonpos
  rw [val_mul] at hlo
  rw [if_pos ⟨hb, hmul⟩]
  refine mul_div_of_mem ha hb (by omega) ?_
  change _ ≤ (0 : Int)
  omega

lemma magnitude_mul_div {a b : Weight .magnitude} (hb : b ≠ 0) : a * b / b = a ↔ a = 0 ∨
    -0x8000000000000000 < a.log.val + b.log.val ∧
      a.log.val + b.log.val ≤ 0x7fffffffffffffff := by
  by_cases ha : a = 0
  · simp [ha]
  have hage := ne_zero_iff.1 ha
  have hale := a.log.le_greatest
  have hbge := ne_zero_iff.1 hb
  have hble := b.log.le_greatest
  have hval := magnitude_val_mul ha hb
  rw [or_iff_right ha]
  by_cases hmul : a * b = 0
  · -- the product has reached the lower end
    rw [hmul, log_zero, Log.val_zero] at hval
    rw [hmul, zero_div]
    exact ⟨fun h => absurd h.symm ha, fun h => by omega⟩
  · have hlo := ne_zero_iff.1 hmul
    rw [Weight.ext_iff, magnitude_val_div hmul hb]
    omega

lemma magnitude_div_mul {a b : Weight .magnitude} (hb : b ≠ 0) : a / b * b = a ↔ a = 0 ∨
    -0x8000000000000000 < a.log.val - b.log.val ∧
      a.log.val - b.log.val ≤ 0x7fffffffffffffff := by
  by_cases ha : a = 0
  · simp [ha]
  have hage := ne_zero_iff.1 ha
  have hale := a.log.le_greatest
  have hbge := ne_zero_iff.1 hb
  have hble := b.log.le_greatest
  have hval := magnitude_val_div ha hb
  rw [or_iff_right ha]
  by_cases hdiv : a / b = 0
  · rw [hdiv, log_zero, Log.val_zero] at hval
    rw [hdiv, zero_mul]
    exact ⟨fun h => absurd h.symm ha, fun h => by omega⟩
  · have hlo := ne_zero_iff.1 hdiv
    rw [Weight.ext_iff, magnitude_val_mul hdiv hb]
    omega

/-- **A quotient undoes a product, and a product a quotient, except at the ends of the range.** A
probability that is divided and multiplied again comes back unless the quotient was above one, and
one that is multiplied and divided again unless the product was zero; what does not come back is
zero. A magnitude comes back exactly where it is zero itself or the exact logarithm in between fits
the range above zero's. A quotient by zero is zero. -/
theorem quotient_undoes_product :
    (∀ a b : Weight .probability, a / b * b = if b ≠ 0 ∧ a ≤ b then a else 0) ∧
    (∀ a b : Weight .probability, a * b / b = if b ≠ 0 ∧ a * b ≠ 0 then a else 0) ∧
    (∀ a b : Weight .magnitude, b ≠ 0 → (a * b / b = a ↔ a = 0 ∨
      -0x8000000000000000 < a.log.val + b.log.val ∧
        a.log.val + b.log.val ≤ 0x7fffffffffffffff)) ∧
    (∀ a b : Weight .magnitude, b ≠ 0 → (a / b * b = a ↔ a = 0 ∨
      -0x8000000000000000 < a.log.val - b.log.val ∧
        a.log.val - b.log.val ≤ 0x7fffffffffffffff)) ∧
    (∀ (r : Range) (a : Weight r), a / 0 = 0) :=
  ⟨probability_div_mul, probability_mul_div, fun _ _ => magnitude_mul_div,
    fun _ _ => magnitude_div_mul, fun _ => div_zero⟩

/-- The least magnitude above zero. -/
def faintest : Weight .magnitude := ⟨.saturate (-0x7fffffffffffffff), by decide⟩

/-- The least magnitude comes back from a division by one. Multiplied by itself it underflows and
does not come back; divided by the greatest one neither. -/
theorem quotient_undoes_product_faintest :
    (1 : Weight .magnitude) ≠ 0 ∧ faintest / 1 * 1 = faintest ∧
      faintest ≠ 0 ∧ faintest * faintest / faintest ≠ faintest ∧
      (cap .greatest : Weight .magnitude) ≠ 0 ∧
      faintest / cap .greatest * cap .greatest ≠ faintest := by
  obtain ⟨-, -, hmul, hdiv, -⟩ := quotient_undoes_product
  have hone : (1 : Weight .magnitude) ≠ 0 := by decide
  have hfaintest : faintest ≠ 0 := by decide
  have hgreatest : (cap .greatest : Weight .magnitude) ≠ 0 := by decide
  exact ⟨hone, (hdiv _ _ hone).2 (by decide), hfaintest, mt (hmul _ _ hfaintest).1 (by decide),
    hgreatest, mt (hdiv _ _ hgreatest).1 (by decide)⟩

end WeightedAutomata.Weight
