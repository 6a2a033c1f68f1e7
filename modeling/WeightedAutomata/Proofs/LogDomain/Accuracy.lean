import WeightedAutomata.Proofs.LogDomain.Rounded

/-!
How far a sum of logarithms lies from the exact one.

Next to the larger logarithm stands the exact rise on one side and the step of the table on the
other, so it is enough to compare these two. Within the table they differ by half a unit at most.
Past the end of the table there is no step, and the exact rise is less than one unit as soon as the
larger number is more than `10 ^ precision` times the smaller one. That holds of every gap that is
greater than the length of the table, but not of that gap itself, which is the first without a step:
there the exact rise is a little more than one unit and is lost.
-/

namespace WeightedAutomata.LogDomain

variable {d : LogDomain}

/-! ### Powers of the base against the exact rise -/

lemma radix_zpow_lt_iff (d : LogDomain) (gap : ℕ) (k : ℤ) :
    d.radix ^ k < 1 + d.radix ^ (-(gap : ℤ)) ↔ (k : ℝ) < d.exactRise gap := by
  rw [exactRise, Real.lt_logb_iff_rpow_lt d.one_lt_radix (d.one_add_radix_pos gap),
    Real.rpow_intCast]

lemma lt_radix_zpow_iff (d : LogDomain) (gap : ℕ) (k : ℤ) :
    1 + d.radix ^ (-(gap : ℤ)) < d.radix ^ k ↔ d.exactRise gap < k := by
  rw [exactRise, Real.logb_lt_iff_lt_rpow d.one_lt_radix (d.one_add_radix_pos gap),
    Real.rpow_intCast]

lemma radix_zpow_add (d : LogDomain) (x y : ℤ) : d.radix ^ x + d.radix ^ y =
    d.radix ^ max x y * (1 + d.radix ^ (-((x - y).natAbs : ℤ))) := by
  have hb := d.radix_pos.ne'
  rw [mul_add, mul_one, ← zpow_add₀ hb]
  rcases le_total x y with h | h
  · rw [max_eq_right h, add_comm, show y + -((x - y).natAbs : ℤ) = x by omega]
  · rw [max_eq_left h, show x + -((x - y).natAbs : ℤ) = y by omega]

lemma zpow_max_add_lt_iff (d : LogDomain) (x y k : ℤ) :
    d.radix ^ (max x y + k) < d.radix ^ x + d.radix ^ y ↔
      (k : ℝ) < d.exactRise (x - y).natAbs := by
  rw [radix_zpow_add, zpow_add₀ d.radix_pos.ne', mul_lt_mul_iff_right₀ (zpow_pos d.radix_pos _),
    radix_zpow_lt_iff]

lemma lt_zpow_max_add_iff (d : LogDomain) (x y k : ℤ) :
    d.radix ^ x + d.radix ^ y < d.radix ^ (max x y + k) ↔
      d.exactRise (x - y).natAbs < k := by
  rw [radix_zpow_add, zpow_add₀ d.radix_pos.ne', mul_lt_mul_iff_right₀ (zpow_pos d.radix_pos _),
    lt_radix_zpow_iff]

/-! ### The step of the table against the exact rise -/

lemma exactRise_pos (d : LogDomain) (gap : ℕ) : 0 < d.exactRise gap := by
  have hpos := zpow_pos d.radix_pos (-(gap : ℤ))
  exact Real.logb_pos d.one_lt_radix (by linarith)

/-- The exact rise is less than one unit where the larger number is more than `10 ^ precision` times
the smaller one. -/
lemma exactRise_lt_one_iff (d : LogDomain) (gap : ℕ) :
    d.exactRise gap < 1 ↔ (10 : ℝ) ^ d.precision < d.radix ^ gap := by
  have hlt := d.lt_radix_zpow_iff gap 1
  have hten : (0 : ℝ) < 10 ^ d.precision := by positivity
  rw [Int.cast_one, zpow_one, ← lt_sub_iff_add_lt', radix_sub_one, zpow_neg, zpow_natCast,
    inv_lt_inv₀ (pow_pos d.radix_pos gap) hten] at hlt
  exact hlt.symm

/-- It is more than one unit where the larger number is less. -/
lemma one_lt_exactRise_iff (d : LogDomain) (gap : ℕ) :
    1 < d.exactRise gap ↔ d.radix ^ gap < (10 : ℝ) ^ d.precision := by
  have hlt := d.radix_zpow_lt_iff gap 1
  have hten : (0 : ℝ) < 10 ^ d.precision := by positivity
  rw [Int.cast_one, zpow_one, ← sub_lt_iff_lt_add', radix_sub_one, zpow_neg, zpow_natCast,
    inv_lt_inv₀ hten (pow_pos d.radix_pos gap)] at hlt
  exact hlt.symm

lemma RoundedSums.lt_radix_pow_iff (h : d.RoundedSums) (hprecision : 1 ≤ d.precision) (gap : ℕ) :
    (10 : ℝ) ^ d.precision < d.radix ^ gap ↔ d.tableLength < gap := by
  have hle := h.le_tableLength_iff hprecision gap
  have hne := radix_pow_ne hprecision gap
  rw [← not_iff_not, not_lt, not_lt, hle, le_iff_lt_or_eq, or_iff_left hne]

/-- A step of the table is the exact rise to half a unit, and past the gap that is the length of the
table less than one unit is lost. -/
lemma RoundedSums.rise_near (h : d.RoundedSums) (hprecision : 1 ≤ d.precision) {gap : ℕ}
    (hne : gap ≠ d.tableLength) :
    (d.rise gap : ℝ) - 1 < d.exactRise gap ∧ d.exactRise gap < d.rise gap + 1 := by
  -- inside the table the step is rounded, past it the neglected term is below one unit
  rcases lt_or_gt_of_ne hne with hlt | hgt
  · have hround := abs_le.1 (abs_sub_round (d.exactRise gap))
    have hrise : (d.rise gap : ℤ) = round (d.exactRise gap) := by
      rw [← h.sumStep_eq gap hlt, rise, if_pos hlt]
    rw [← hrise, Int.cast_natCast] at hround
    constructor <;> linarith
  · have hpos := d.exactRise_pos gap
    have hone := (d.exactRise_lt_one_iff gap).2 ((h.lt_radix_pow_iff hprecision gap).2 hgt)
    rw [rise, if_neg (by omega), Nat.cast_zero]
    constructor <;> linarith

/-- At the first gap past the table between one unit and two are lost. -/
lemma RoundedSums.rise_tableLength (h : d.RoundedSums) (hprecision : 1 ≤ d.precision) :
    d.rise d.tableLength = 0 ∧ 1 < d.exactRise d.tableLength ∧ d.exactRise d.tableLength < 2 := by
  have hnear := (h.le_tableLength_iff hprecision d.tableLength).1 le_rfl
  have hfar := (h.lt_radix_pow_iff hprecision (d.tableLength + 1)).2 (Nat.lt_succ_self _)
  have hnext := (d.exactRise_lt_one_iff _).2 hfar
  have hle := d.exactRise_le_succ d.tableLength
  exact ⟨if_neg (lt_irrefl _), (d.one_lt_exactRise_iff _).2 hnear, by linarith⟩

/-! ### Sums -/

/-- **A sum of logarithms is the exact one to less than one unit, but for one gap.** At the gap that
is the length of the table, the first one without a step, the sum lies between one unit and two
below the exact one. Those past it are exactly the gaps where the larger number is more than
`10 ^ precision` times the smaller one. -/
theorem sum_accuracy (d : LogDomain) (hprecision : 1 ≤ d.precision) (hd : d.RoundedSums) :
    (∀ a c : Log, a ≠ .zero → c ≠ .zero →
      max a.val c.val + d.rise (a.val - c.val).natAbs ≤ 0x7fffffffffffffff →
      ((a.val - c.val).natAbs ≠ d.tableLength →
        d.radix ^ ((d.sum a c).val - 1) < d.radix ^ a.val + d.radix ^ c.val ∧
          d.radix ^ a.val + d.radix ^ c.val < d.radix ^ ((d.sum a c).val + 1)) ∧
      ((a.val - c.val).natAbs = d.tableLength →
        d.radix ^ ((d.sum a c).val + 1) < d.radix ^ a.val + d.radix ^ c.val ∧
          d.radix ^ a.val + d.radix ^ c.val < d.radix ^ ((d.sum a c).val + 2))) ∧
    (∀ gap : ℕ, (10 : ℝ) ^ d.precision < d.radix ^ gap ↔ d.tableLength < gap) := by
  refine ⟨fun a c ha hc hfits => ?_, hd.lt_radix_pow_iff hprecision⟩
  have hval : (d.sum a c).val = max a.val c.val + d.rise (a.val - c.val).natAbs := by
    rw [val_sum ha hc, min_eq_left hfits]
  rw [hval]
  refine ⟨fun hne => ?_, fun heq => ?_⟩
  · have hnear := hd.rise_near hprecision hne
    rw [add_sub_assoc, add_assoc, zpow_max_add_lt_iff, lt_zpow_max_add_iff]
    push_cast
    exact hnear
  · -- at the table's end nothing is added, though more than one unit is missing
    have hlost := hd.rise_tableLength hprecision
    rw [heq, hlost.1, Nat.cast_zero, add_zero, zpow_max_add_lt_iff, lt_zpow_max_add_iff, heq]
    exact_mod_cast hlost.2

/-- With base `1.1` two ones add up to the logarithm seven. At the gap of 24, where the table ends,
the sum of the powers lies between the next two. -/
theorem sum_accuracy_tenths :
    1 ≤ tenths.precision ∧ tenths.RoundedSums ∧ (tenths.sum .one .one).val = 7 ∧
      tenths.radix ^ 6 < tenths.radix ^ 0 + tenths.radix ^ 0 ∧
      tenths.radix ^ 0 + tenths.radix ^ 0 < tenths.radix ^ 8 ∧
      (tenths.sum (.saturate 24) .one).val = 24 ∧
      tenths.radix ^ 25 < tenths.radix ^ 24 + tenths.radix ^ 0 ∧
      tenths.radix ^ 24 + tenths.radix ^ 0 < tenths.radix ^ 26 ∧
      (10 : ℝ) ^ 1 < tenths.radix ^ 25 := by
  have hprecision : 1 ≤ tenths.precision := le_rfl
  obtain ⟨hsum, hgap⟩ := sum_accuracy tenths hprecision tenths_roundedSums
  have hval : (tenths.sum .one .one).val = 7 := by decide
  have hval' : (tenths.sum (.saturate 24) .one).val = 24 := by decide
  obtain ⟨hlo, hhi⟩ := (hsum .one .one (by decide) (by decide) (by decide)).1 (by decide)
  obtain ⟨hlo', hhi'⟩ :=
    (hsum (.saturate 24) .one (by decide) (by decide) (by decide)).2 (by decide)
  rw [hval] at hlo hhi
  rw [hval'] at hlo' hhi'
  exact ⟨hprecision, tenths_roundedSums, hval, by exact_mod_cast hlo, by exact_mod_cast hhi, hval',
    by exact_mod_cast hlo', by exact_mod_cast hhi', (hgap 25).2 (by decide)⟩

/-- The first gap without a step: with base `1.1` the sum of the powers at 24 and at zero is above
the power at 25, but the sum of the logarithms is 24, and the larger number is less than ten times
the smaller one. -/
theorem sum_inaccurate_tenths :
    1 ≤ tenths.precision ∧ tenths.precision ≤ maxPrecision ∧ tenths.RoundedSums ∧
      Log.saturate 24 ≠ .zero ∧ Log.one ≠ .zero ∧
      (tenths.sum (.saturate 24) .one).val = 24 ∧ (tenths.sum (.saturate 24) .one).val <
        Log.greatest.val ∧
      ¬ tenths.radix ^ (Log.saturate 24).val + tenths.radix ^ Log.one.val <
        tenths.radix ^ ((tenths.sum (.saturate 24) .one).val + 1) ∧
      tenths.tableLength ≤ 24 ∧ ¬ (10 : ℝ) ^ tenths.precision < tenths.radix ^ 24 := by
  have hval : (tenths.sum (.saturate 24) .one).val = 24 := by decide
  refine ⟨le_rfl, by decide, tenths_roundedSums, by decide, by decide, hval, by decide, ?_, le_rfl,
    ?_⟩
  · rw [hval, show (Log.saturate 24).val = 24 from rfl, Log.val_one, radix_tenths]
    norm_num
  · rw [radix_tenths, show tenths.precision = 1 from rfl]
    norm_num

end WeightedAutomata.LogDomain
