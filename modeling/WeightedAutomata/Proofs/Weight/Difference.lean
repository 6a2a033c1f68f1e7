import WeightedAutomata.Proofs.LogDomain.Rounded
import WeightedAutomata.Proofs.Weight.Order

/-!
Differences of magnitudes are ordered as the numbers are.

A magnitude is its logarithm, so this is what `Growing` steps give for logarithms: the difference
grows with the first magnitude, falls with the second one and lies between zero and the first.
-/

namespace WeightedAutomata.Weight

open LogDomain

variable {d : LogDomain}

lemma log_minus (a b : Weight .magnitude) : (minus d a b).log = d.difference a.log b.log := by
  have hle : (d.difference a.log b.log).val ≤ Range.magnitude.top.val := Log.le_greatest _
  unfold minus
  rw [log_ofLog, if_pos hle]

lemma minus_le (h : d.Growing) (a b : Weight .magnitude) : minus d a b ≤ a := by
  have hle := h.difference_le a.log b.log
  rwa [← log_minus] at hle

lemma minus_zero (a : Weight .magnitude) : minus d a 0 = a := by
  refine Weight.ext ?_
  rw [log_minus, log_zero, difference_zero]

lemma minus_eq_zero_of_le {a b : Weight .magnitude} (hle : a ≤ b) : minus d a b = 0 := by
  refine Weight.ext ?_
  rw [log_minus, difference_of_le hle, log_zero]

lemma minus_mono (h : d.Growing) {a a' b b' : Weight .magnitude} (ha : a ≤ a') (hb : b' ≤ b) :
    minus d a b ≤ minus d a' b' := by
  have hle := h.difference_mono ha hb
  rwa [← log_minus, ← log_minus] at hle

/-- Within the table the step is added to the smaller logarithm, and a result below the range is
zero. -/
lemma val_minus (h : d.Growing) {a b : Weight .magnitude} (hb : b ≠ 0) (hlt : b < a)
    (hgap : (a.log.val - b.log.val).toNat < d.tableLength) : (minus d a b).log.val =
      max (-0x8000000000000000)
        (b.log.val + d.differenceStep (a.log.val - b.log.val).toNat) := by
  have hval := lt_iff.1 hlt
  rw [log_minus, h.val_difference (log_ne_zero hb) hval, fall, if_pos hgap]
  omega

/-- **A difference of magnitudes lies between zero and the first one, grows with it and falls with
the second one**, where the steps of subtraction grow. Nothing taken away leaves a magnitude as it
is, and as much or more leaves zero. Carried out on words no operation overflows. Within the table
the result is the smaller logarithm and its step, or zero if that is below the range. -/
theorem minus_ordered (d : LogDomain) (h : d.Growing) :
    (∀ a b : Weight .magnitude, minus d a b ≤ a) ∧
    (∀ a : Weight .magnitude, minus d a 0 = a) ∧
    (∀ a b : Weight .magnitude, a ≤ b → minus d a b = 0) ∧
    (∀ a a' b : Weight .magnitude, a ≤ a' → minus d a b ≤ minus d a' b) ∧
    (∀ a b b' : Weight .magnitude, b ≤ b' → minus d a b' ≤ minus d a b) ∧
    ((d.tableLength : Int) ≤ Log.greatest.val → ∀ a b : Weight .magnitude,
      d.differenceInWords a.log b.log = some (minus d a b).log) ∧
    (∀ a b : Weight .magnitude, b ≠ 0 → b < a →
      (a.log.val - b.log.val).toNat < d.tableLength →
      let raised := b.log.val + d.differenceStep (a.log.val - b.log.val).toNat
      raised ≤ a.log.val ∧
        (-0x8000000000000000 ≤ raised → (minus d a b).log.val = raised) ∧
        (raised < -0x8000000000000000 → minus d a b = 0)) := by
  refine ⟨minus_le h, minus_zero, fun _ _ => minus_eq_zero_of_le,
    fun _ _ _ ha => minus_mono h ha le_rfl, fun _ _ _ hb => minus_mono h le_rfl hb,
    fun hwords a b => ?_, fun a b hb hlt hgap => ?_⟩
  · rw [h.differenceInWords_eq hwords, log_minus]
  · have hval := lt_iff.1 hlt
    have hstep := h.le_gap _ (by omega) hgap
    have hminus := val_minus h hb hlt hgap
    refine ⟨by omega, fun hle => by omega, fun hlow => Weight.ext ?_⟩
    rw [hminus, log_zero, Log.val_zero]
    omega

/-- With base `1.1`: from the logarithm two the number one is taken, at the gap of two. Next to the
lower end of the range the same gap leads below it, and the difference is zero although the two
numbers differ. -/
theorem minus_ordered_tenths :
    tenths.Growing ∧ (1 : Weight .magnitude) ≤ cap (.saturate 2) ∧
      minus tenths 1 1 ≤ minus tenths (cap (.saturate 2)) 1 ∧
      (minus tenths (cap (.saturate 2)) 1).log.val = -16 ∧
      minus tenths (cap (.saturate (-0x7ffffffffffffffd)))
        (cap (.saturate (-0x7fffffffffffffff))) = 0 ∧
      tenths.differenceInWords (.saturate 2) .one = some (.saturate (-16)) := by
  have hgrowing : tenths.Growing := tenths_roundedDifferences.growing
  obtain ⟨-, -, -, hmono, -, hwords, hexact⟩ := minus_ordered tenths hgrowing
  have hle : (1 : Weight .magnitude) ≤ cap (.saturate 2) := by decide
  have hval : (minus tenths (cap (.saturate 2)) 1).log.val = -16 :=
    (hexact _ 1 (by decide) (by decide) (by decide)).2.1 (by decide)
  refine ⟨hgrowing, hle, hmono _ _ _ hle, hval, ?_, ?_⟩
  · exact (hexact _ _ (by decide) (by decide) (by decide)).2.2 (by decide)
  · exact (hwords (by decide) (cap (.saturate 2)) 1).trans (congrArg some (Log.ext hval))

end WeightedAutomata.Weight
