import WeightedAutomata.Weight
import Mathlib.Algebra.BigOperators.Group.List.Basic
import Mathlib.Algebra.GroupWithZero.Defs

/-!
Products of weights.

One is neutral in either range. A product of probabilities saturates at one end only: what would
lie below the range is zero, and zero is the least logarithm. So the saturating product of
probabilities is a commutative monoid, and the product along a path depends neither on order nor
on grouping. Magnitudes have no such law, since a product that is too great is zero.
-/

namespace WeightedAutomata

namespace Log

lemma times_one (a : Log) : a.times one = a := by
  unfold times
  split
  · next h =>
    rcases h with rfl | h
    · rfl
    · cases congrArg val h
  · rw [val_one, add_zero, saturate_val]

lemma one_times (a : Log) : one.times a = a := by
  unfold times
  split
  · next h =>
    rcases h with h | rfl
    · cases congrArg val h
    · rfl
  · rw [val_one, zero_add, saturate_val]

end Log

namespace Weight

section Range

variable {r : Range}

instance : MulOneClass (Weight r) where
  one_mul a := by
    refine Weight.ext ?_
    rw [log_mul, log_one, Log.one_times, if_pos a.le_top]
  mul_one a := by
    refine Weight.ext ?_
    rw [log_mul, log_one, Log.times_one, if_pos a.le_top]

instance : MulZeroClass (Weight r) where
  zero_mul a := by
    refine Weight.ext ?_
    have htimes : Log.zero.times a.log = .zero := if_pos (Or.inl rfl)
    rw [log_mul, log_zero, htimes, ite_self]
  mul_zero a := by
    refine Weight.ext ?_
    have htimes : a.log.times .zero = .zero := if_pos (Or.inr rfl)
    rw [log_mul, log_zero, htimes, ite_self]

lemma one_ne_zero : (1 : Weight r) ≠ 0 := fun h => by
  have hval := congrArg (fun w : Weight r => w.log.val) h
  cases hval

lemma map_product {K : Type} [Monoid K] (κ : Weight r →* K) (ws : List (Weight r)) :
    κ (product ws) = (ws.map κ).prod := by
  have hfoldl : ∀ w : Weight r, κ (ws.foldl (· * ·) w) = κ w * (ws.map κ).prod := by
    induction ws with
    | nil => intro w; exact (mul_one _).symm
    | cons v ws ih => intro w; rw [List.foldl_cons, ih, map_mul, List.map_cons, List.prod_cons,
        mul_assoc]
  unfold product
  rw [hfoldl, map_one, one_mul]

end Range

lemma val_nonpos (a : Weight .probability) : a.log.val ≤ 0 := a.le_top

lemma val_times (a b : Weight .probability) :
    (a.log.times b.log).val = max (-0x8000000000000000) (a.log.val + b.log.val) := by
  have ha := a.val_nonpos
  have hb := b.val_nonpos
  have ha' := a.log.ge_least
  have hb' := b.log.ge_least
  unfold Log.times
  by_cases hzero : a.log = .zero ∨ b.log = .zero
  · rw [if_pos hzero, Log.val_zero]
    rcases hzero with h | h
    · rw [h, Log.val_zero]
      omega
    · rw [h, Log.val_zero]
      omega
  · -- no overflow above, since both logarithms are at most zero
    rw [if_neg hzero, Log.val_saturate]
    omega

/-- Nothing collapses: the product of two probabilities is never above one. -/
lemma log_mul_eq_times (a b : Weight .probability) : (a * b).log = a.log.times b.log := by
  have ha := a.val_nonpos
  have hb := b.val_nonpos
  have hle : (a.log.times b.log).val ≤ Range.probability.top.val := by
    rw [val_times]
    change _ ≤ 0
    omega
  rw [log_mul, if_pos hle]

/-- Logarithms of probabilities are added, down to the least of the range. -/
lemma val_mul (a b : Weight .probability) :
    (a * b).log.val = max (-0x8000000000000000) (a.log.val + b.log.val) := by
  rw [log_mul_eq_times, val_times]

instance : CommMonoid (Weight .probability) where
  __ := (inferInstance : MulOneClass (Weight .probability))
  mul_assoc a b c := by
    have ha := a.val_nonpos
    have hc := c.val_nonpos
    refine Weight.ext ?_
    simp only [val_mul]
    omega
  mul_comm a b := by
    refine Weight.ext ?_
    rw [val_mul, val_mul, add_comm]

lemma product_eq_prod (ws : List (Weight .probability)) : product ws = ws.prod :=
  List.prod_eq_foldl.symm

end Weight

end WeightedAutomata
