import Mathlib.Algebra.Order.Round
import Mathlib.Analysis.SpecialFunctions.Log.Base
import WeightedAutomata.Proofs.LogDomain.Difference
import WeightedAutomata.Proofs.LogDomain.Sum

/-!
Steps that are rounded from the exact logarithms.

The exact step of a sum falls by less than one from each gap to the next, and that of a difference
grows by more than one. Rounding keeps both, so a domain whose steps are rounded to the nearest
integer has the properties that sums and differences need.
-/

namespace WeightedAutomata.LogDomain

variable {d : LogDomain}

/-! ### The base -/

/-- The base of the logarithms. -/
noncomputable def radix (d : LogDomain) : ℝ := 1 + (10 : ℝ) ^ (-(d.precision : ℤ))

lemma one_lt_radix (d : LogDomain) : 1 < d.radix :=
  lt_add_of_pos_right 1 (zpow_pos (by norm_num) _)

lemma radix_pos (d : LogDomain) : 0 < d.radix := one_pos.trans d.one_lt_radix

lemma radix_sub_one (d : LogDomain) : d.radix - 1 = ((10 : ℝ) ^ d.precision)⁻¹ := by
  rw [radix, zpow_neg, zpow_natCast]
  ring

lemma radix_le (hprecision : 1 ≤ d.precision) : d.radix ≤ 11 / 10 := by
  have hpow : (10 : ℝ) ^ 1 ≤ 10 ^ d.precision := pow_le_pow_right₀ (by norm_num) hprecision
  have hinv : ((10 : ℝ) ^ d.precision)⁻¹ ≤ 10⁻¹ := inv_anti₀ (by norm_num) (by simpa using hpow)
  have hsub := d.radix_sub_one
  linarith

/-- No power of the base is a power of ten: one numerator is odd, the other is even. -/
lemma radix_pow_ne (hprecision : 1 ≤ d.precision) (n : ℕ) : d.radix ^ n ≠ 10 ^ d.precision := by
  intro h
  have hten : (10 : ℝ) ^ d.precision ≠ 0 := by positivity
  have hradix : d.radix = (10 ^ d.precision + 1) / 10 ^ d.precision := by
    have hsub := d.radix_sub_one
    field_simp at hsub ⊢
    linarith
  rw [hradix, div_pow, div_eq_iff (pow_ne_zero n hten)] at h
  -- a power of an odd number is odd, and a power of ten is even
  have hnat : (10 ^ d.precision + 1) ^ n = 10 ^ d.precision * (10 ^ d.precision) ^ n := by
    exact_mod_cast h
  have heven : Even (10 ^ d.precision) := (by decide : Even 10).pow_of_ne_zero (by omega)
  have hodd : Odd ((10 ^ d.precision + 1) ^ n) := heven.add_one.pow
  rw [hnat] at hodd
  exact Nat.not_even_iff_odd.2 hodd (heven.mul_right _)

/-! ### Exact steps -/

/-- How far the exact logarithm of a sum lies above the larger one. -/
noncomputable def exactRise (d : LogDomain) (gap : ℕ) : ℝ :=
  Real.logb d.radix (1 + d.radix ^ (-(gap : ℤ)))

/-- How far the exact logarithm of a difference lies above the smaller one. -/
noncomputable def exactStep (d : LogDomain) (gap : ℕ) : ℝ :=
  Real.logb d.radix (d.radix ^ gap - 1)

lemma one_add_radix_pos (d : LogDomain) (gap : ℕ) : 0 < 1 + d.radix ^ (-(gap : ℤ)) := by
  have := zpow_pos d.radix_pos (-(gap : ℤ))
  linarith

lemma radix_pow_sub_one_pos (d : LogDomain) {gap : ℕ} (hpositive : 0 < gap) :
    0 < d.radix ^ gap - 1 :=
  sub_pos.2 (one_lt_pow₀ d.one_lt_radix hpositive.ne')

lemma logb_radix_mul (d : LogDomain) {x : ℝ} (hx : 0 < x) :
    Real.logb d.radix (d.radix * x) = Real.logb d.radix x + 1 := by
  rw [Real.logb_mul d.radix_pos.ne' hx.ne', Real.logb_self_eq_one d.one_lt_radix, add_comm]

lemma exactRise_succ_le (d : LogDomain) (gap : ℕ) : d.exactRise (gap + 1) ≤ d.exactRise gap := by
  have hpow : d.radix ^ (-((gap + 1 : ℕ) : ℤ)) ≤ d.radix ^ (-(gap : ℤ)) :=
    zpow_le_zpow_right₀ d.one_lt_radix.le (by omega)
  exact Real.logb_le_logb_of_le d.one_lt_radix (d.one_add_radix_pos _) (by linarith)

lemma exactRise_le_succ (d : LogDomain) (gap : ℕ) :
    d.exactRise gap ≤ d.exactRise (gap + 1) + 1 := by
  have hmul : d.radix * (1 + d.radix ^ (-((gap + 1 : ℕ) : ℤ))) =
      d.radix + d.radix ^ (-(gap : ℤ)) := by
    rw [mul_add, mul_one, ← zpow_one_add₀ d.radix_pos.ne']
    congr 2
    push_cast
    ring
  unfold exactRise
  rw [← d.logb_radix_mul (d.one_add_radix_pos _), hmul]
  refine Real.logb_le_logb_of_le d.one_lt_radix (d.one_add_radix_pos _) ?_
  have := d.one_lt_radix
  linarith

lemma exactStep_le_gap (d : LogDomain) {gap : ℕ} (hpositive : 0 < gap) : d.exactStep gap ≤ gap := by
  have hlog : Real.logb d.radix (d.radix ^ gap) = gap := by
    rw [Real.logb_pow, Real.logb_self_eq_one d.one_lt_radix, mul_one]
  rw [← hlog]
  exact Real.logb_le_logb_of_le d.one_lt_radix (d.radix_pow_sub_one_pos hpositive) (by linarith)

lemma exactStep_add_one_le (d : LogDomain) {gap : ℕ} (hpositive : 0 < gap) :
    d.exactStep gap + 1 ≤ d.exactStep (gap + 1) := by
  have hpos := d.radix_pow_sub_one_pos hpositive
  unfold exactStep
  rw [← d.logb_radix_mul hpos]
  refine Real.logb_le_logb_of_le d.one_lt_radix (mul_pos d.radix_pos hpos) ?_
  have := d.one_lt_radix
  rw [mul_sub, mul_one, pow_succ']
  linarith

/-! ### Rounded steps -/

/-- The entries of the table are the exact steps of sums, rounded. There are as many as the integer
part of the logarithm of `10 ^ precision`. -/
structure RoundedSums (d : LogDomain) : Prop where
  tableLength_eq : d.tableLength = ⌊Real.log (10 ^ d.precision) / Real.log d.radix⌋₊
  sumStep_eq : ∀ gap < d.tableLength, (d.sumStep gap : ℤ) = round (d.exactRise gap)

/-- The steps of differences are the exact ones, rounded. -/
def RoundedDifferences (d : LogDomain) : Prop :=
  ∀ gap, 0 < gap → gap < d.tableLength → d.differenceStep gap = round (d.exactStep gap)

/-- The gaps up to the length of the table are those where the larger number is less than
`10 ^ precision` times the smaller one. The table itself ends one gap before. -/
lemma RoundedSums.le_tableLength_iff (h : d.RoundedSums) (hprecision : 1 ≤ d.precision) (gap : ℕ) :
    gap ≤ d.tableLength ↔ d.radix ^ gap < 10 ^ d.precision := by
  have hlog : 0 < Real.log d.radix := Real.log_pos d.one_lt_radix
  have hten : (1 : ℝ) ≤ 10 ^ d.precision := one_le_pow₀ (by norm_num)
  have hpow : 0 < d.radix ^ gap := pow_pos d.radix_pos gap
  rw [h.tableLength_eq, Nat.le_floor_iff (div_nonneg (Real.log_nonneg hten) hlog.le),
    le_div_iff₀ hlog, ← Real.log_pow, Real.log_le_log_iff hpow (by positivity)]
  exact ⟨fun hle => lt_of_le_of_ne hle (radix_pow_ne hprecision gap), le_of_lt⟩

lemma round_mono : Monotone (round : ℝ → ℤ) := fun x y hxy => by
  rw [round_eq, round_eq]
  exact Int.floor_le_floor (by linarith)

lemma sq_lt_cube {e : ℝ} (hpos : 0 < e) (hle : e ≤ 1 / 10) :
    (1 + e * (1 + e) ^ 2) ^ 2 < (1 + e) ^ 3 := by
  have hterm : e * (1 + e) ^ 2 ≤ e * (11 / 10) ^ 2 := by gcongr; linarith
  have hsquare : e * e ≤ 1 / 10 * e := mul_le_mul_of_nonneg_right hle hpos.le
  have hcube : 0 < e ^ 3 := pow_pos hpos 3
  calc (1 + e * (1 + e) ^ 2) ^ 2 ≤ (1 + e * (11 / 10) ^ 2) ^ 2 := by gcongr
    _ < (1 + e) ^ 3 := by nlinarith

/-- The step of the last gap in the table is less than one and a half. -/
lemma RoundedSums.exactRise_last (h : d.RoundedSums) (hprecision : 1 ≤ d.precision) {gap : ℕ}
    (hgap : gap + 1 = d.tableLength) : d.exactRise gap < 3 / 2 := by
  have hb := d.one_lt_radix
  have hle := radix_le hprecision
  have hsub := d.radix_sub_one
  have hten : (0 : ℝ) < 10 ^ d.precision := by positivity
  have hfar : (10 : ℝ) ^ d.precision ≤ d.radix ^ (gap + 2) := not_lt.1 fun hlt =>
    absurd ((h.le_tableLength_iff hprecision (gap + 2)).2 hlt) (by omega)
  have hterm : d.radix ^ (-(gap : ℤ)) ≤ (d.radix - 1) * d.radix ^ 2 := by
    have hpow : 0 < d.radix ^ gap := pow_pos d.radix_pos gap
    rw [hsub, zpow_neg, zpow_natCast, inv_mul_eq_div, le_div_iff₀ hten, inv_mul_le_iff₀ hpow,
      ← pow_add]
    exact hfar
  -- with this term the square of the sum is below the cube of the base
  have hsquare : (1 + d.radix ^ (-(gap : ℤ))) ^ 2 < d.radix ^ 3 := by
    have hpos := d.one_add_radix_pos gap
    calc (1 + d.radix ^ (-(gap : ℤ))) ^ 2 ≤ (1 + (d.radix - 1) * d.radix ^ 2) ^ 2 := by gcongr
      _ < d.radix ^ 3 := by
        have hcube := sq_lt_cube (sub_pos.2 hb) (by linarith : d.radix - 1 ≤ 1 / 10)
        rwa [add_sub_cancel] at hcube
  have hlog : Real.logb d.radix ((1 + d.radix ^ (-(gap : ℤ))) ^ 2) < (3 : ℕ) :=
    (Real.logb_lt_iff_lt_rpow hb (pow_pos (d.one_add_radix_pos gap) 2)).2
      (by rwa [Real.rpow_natCast])
  rw [Real.logb_pow] at hlog
  unfold exactRise
  push_cast at hlog
  linarith

/-- **The rounded steps of sums taper off.** -/
lemma RoundedSums.tapering (h : d.RoundedSums) (hprecision : 1 ≤ d.precision) : d.Tapering where
  falls gap hgap := by
    have hround := round_mono (d.exactRise_succ_le gap)
    rw [← h.sumStep_eq _ hgap, ← h.sumStep_eq gap (by omega)] at hround
    omega
  slowly gap hgap := by
    have hround := round_mono (d.exactRise_le_succ gap)
    rw [round_add_one, ← h.sumStep_eq _ hgap, ← h.sumStep_eq gap (by omega)] at hround
    omega
  last gap hgap := by
    have hround : round (d.exactRise gap) < 2 := by
      have hlt := h.exactRise_last hprecision hgap
      have hle := round_le_add_half (d.exactRise gap)
      exact_mod_cast hle.trans_lt (by linarith : d.exactRise gap + 1 / 2 < 2)
    rw [← h.sumStep_eq gap (by omega)] at hround
    omega

/-- **The rounded steps of differences grow.** -/
lemma RoundedDifferences.growing (h : d.RoundedDifferences) : d.Growing where
  le_gap gap hpositive hgap := by
    have hround := round_mono (d.exactStep_le_gap hpositive)
    rwa [round_natCast, ← h gap hpositive hgap] at hround
  grows gap hpositive hgap := by
    have hround := round_mono (d.exactStep_add_one_le hpositive)
    rwa [round_add_one, ← h gap hpositive (by omega), ← h _ (by omega) hgap] at hround

/-! ### The domain of one decimal place -/

/-- The logarithm of `x` is rounded to `k` if `x ^ 2` lies between the odd powers next to
`b ^ (2 * k)`. -/
lemma round_logb_eq {b x : ℚ} {k : ℤ} (hb : 1 < b) (hx : 0 < x) (hlo : b ^ (2 * k - 1) ≤ x ^ 2)
    (hhi : x ^ 2 < b ^ (2 * k + 1)) : round (Real.logb b x) = k := by
  have hb' : (1 : ℝ) < b := by exact_mod_cast hb
  have hx' : (0 : ℝ) < (x : ℝ) ^ 2 := by exact_mod_cast pow_pos hx 2
  have hlo' : (b : ℝ) ^ (2 * k - 1) ≤ (x : ℝ) ^ 2 := by exact_mod_cast hlo
  have hhi' : (x : ℝ) ^ 2 < (b : ℝ) ^ (2 * k + 1) := by exact_mod_cast hhi
  -- squared, half a unit is a whole power of the base
  have hlog : Real.logb b ((x : ℝ) ^ 2) = 2 * Real.logb b x := by
    rw [Real.logb_pow]
    norm_num
  rw [← Real.rpow_intCast, ← Real.le_logb_iff_rpow_le hb' hx', hlog] at hlo'
  rw [← Real.rpow_intCast, ← Real.logb_lt_iff_lt_rpow hb' hx', hlog] at hhi'
  push_cast at hlo' hhi'
  exact round_eq_iff.2 ⟨by linarith, by linarith⟩

/-- The domain of base `1.1`, with its tables written out. -/
def tenths : LogDomain where
  precision := 1
  base := 1.1
  logBase := 0.09531017980432493
  tableLength := 24
  sumStep gap := [7, 7, 6, 6, 5, 5, 5, 4, 4, 4, 3, 3, 3, 3, 2, 2, 2, 2, 2, 2, 1, 1, 1, 1].getD gap 0
  differenceStep gap := [-0x8000000000000000, -24, -16, -12, -8, -5, -3, -1, 1, 3, 5, 6, 8, 9, 11,
    12, 13, 15, 16, 17, 18, 19, 21, 22].getD gap 0

@[simp] lemma radix_tenths : tenths.radix = 11 / 10 := by
  norm_num [radix, tenths]

lemma tenths_roundedSums : tenths.RoundedSums where
  tableLength_eq := by
    have hlog : 0 < Real.log (11 / 10) := Real.log_pos (by norm_num)
    have hlo : Real.log ((11 / 10) ^ 24) ≤ Real.log 10 :=
      Real.log_le_log (by norm_num) (by norm_num)
    have hhi : Real.log 10 < Real.log ((11 / 10) ^ 25) :=
      Real.log_lt_log (by norm_num) (by norm_num)
    rw [Real.log_pow, ← le_div_iff₀ hlog] at hlo
    rw [Real.log_pow, ← div_lt_iff₀ hlog] at hhi
    have hfloor : ⌊Real.log 10 / Real.log (11 / 10)⌋₊ = 24 :=
      (Nat.floor_eq_iff ((Nat.cast_nonneg 24).trans hlo)).2 ⟨hlo, hhi.trans_eq (by norm_num)⟩
    rw [radix_tenths, show tenths.precision = 1 from rfl, pow_one, hfloor]
    rfl
  sumStep_eq gap hgap := by
    have hsquares : ∀ gap : ℕ, gap < 24 → 0 < 1 + (11 / 10 : ℚ) ^ (-(gap : ℤ)) ∧
        (11 / 10 : ℚ) ^ (2 * (tenths.sumStep gap : ℤ) - 1) ≤ (1 + (11 / 10) ^ (-(gap : ℤ))) ^ 2 ∧
        (1 + (11 / 10) ^ (-(gap : ℤ))) ^ 2 <
          (11 / 10 : ℚ) ^ (2 * (tenths.sumStep gap : ℤ) + 1) := by
      decide +kernel
    obtain ⟨hx, hlo, hhi⟩ := hsquares gap hgap
    rw [← round_logb_eq (by norm_num) hx hlo hhi, exactRise, radix_tenths]
    push_cast
    rfl

lemma tenths_roundedDifferences : tenths.RoundedDifferences := by
  intro gap hpositive hgap
  have hsquares : ∀ gap < 24, 0 < gap → 0 < (11 / 10 : ℚ) ^ gap - 1 ∧
      (11 / 10 : ℚ) ^ (2 * tenths.differenceStep gap - 1) ≤ ((11 / 10) ^ gap - 1) ^ 2 ∧
      ((11 / 10) ^ gap - 1) ^ 2 < (11 / 10 : ℚ) ^ (2 * tenths.differenceStep gap + 1) := by
    decide +kernel
  obtain ⟨hx, hlo, hhi⟩ := hsquares gap hgap hpositive
  rw [← round_logb_eq (by norm_num) hx hlo hhi, exactStep, radix_tenths]
  push_cast
  rfl

end WeightedAutomata.LogDomain
