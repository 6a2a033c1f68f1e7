import WeightedAutomata.LogDomain

/-!
Sums and differences of logarithms, carried out on words.

The gap of two logarithms is then a word as well: where they are further apart than the greatest
word, it is the greatest word. Such a gap lies past every table that words can index, so nothing is
lost.
-/

namespace WeightedAutomata

/-- The gap from one logarithm up to another, at most the greatest word. -/
def Log.gap (high low : Log) : Log := .saturate (high.val - low.val)

namespace LogDomain

variable (d : LogDomain)

/-- The logarithm of `b ^ a + b ^ c`. -/
def sumInWords (a c : Log) : Log :=
  if a = .zero then c
  else if c = .zero then a
  else
    let low := if a.val ≤ c.val then a else c
    let high := if a.val ≤ c.val then c else a
    let gap := Log.gap high low
    -- a negative word is no index
    if 0 ≤ gap.val ∧ gap.val.toNat < d.tableLength then
      .saturate (high.val + d.sumStep gap.val.toNat)
    else high

/-- The logarithm of `b ^ a - b ^ c`. There is none if an operation leaves the words: if the gap,
which is read without its sign, is negative, or if the raised logarithm is above the greatest word.
One below the least word becomes zero. -/
def differenceInWords (a c : Log) : Option Log :=
  if c = .zero then some a
  else if a.val ≤ c.val then some .zero
  else
    let gap := Log.gap a c
    if gap.val < 0 then none
    else if d.tableLength ≤ gap.val.toNat then some a
    else
      let raised := c.val + d.differenceStep gap.val.toNat
      if Log.greatest.val < raised then none else some (.saturate raised)

variable {d : LogDomain}

/-- A gap that is cut to a word is on the same side of the table's end. -/
theorem gap_lt_tableLength_iff (hwords : (d.tableLength : Int) ≤ Log.greatest.val)
    {high low : Log} (hle : low.val ≤ high.val) :
    (Log.gap high low).val.toNat < d.tableLength ↔
      (high.val - low.val).toNat < d.tableLength := by
  simp only [Log.gap, Log.val_saturate, Log.val_greatest] at hwords ⊢
  omega

/-- A gap within the table is not cut. -/
theorem toNat_gap (hwords : (d.tableLength : Int) ≤ Log.greatest.val) {high low : Log}
    (hle : low.val ≤ high.val) (hlt : (high.val - low.val).toNat < d.tableLength) :
    (Log.gap high low).val.toNat = (high.val - low.val).toNat := by
  simp only [Log.gap, Log.val_saturate, Log.val_greatest] at hwords ⊢
  omega

theorem gap_nonneg {high low : Log} (hle : low.val ≤ high.val) : 0 ≤ (Log.gap high low).val := by
  simp only [Log.gap, Log.val_saturate]
  omega

/-- A sum on words is the exact sum, cut to a word. -/
theorem sumInWords_eq (hwords : (d.tableLength : Int) ≤ Log.greatest.val) (a c : Log) :
    d.sumInWords a c = d.sum a c := by
  unfold sumInWords sum
  by_cases ha : a = .zero
  · simp only [if_pos ha]
  by_cases hc : c = .zero
  · simp only [if_neg ha, if_pos hc]
  simp only [if_neg ha, if_neg hc]
  generalize hlow : (if a.val ≤ c.val then a else c) = low
  generalize hhigh : (if a.val ≤ c.val then c else a) = high
  have hle : low.val ≤ high.val := by
    subst hlow hhigh
    split <;> omega
  by_cases hlt : (high.val - low.val).toNat < d.tableLength
  · rw [if_pos ⟨gap_nonneg hle, (gap_lt_tableLength_iff hwords hle).2 hlt⟩, if_pos hlt,
      toNat_gap hwords hle hlt]
  · rw [if_neg fun h => hlt ((gap_lt_tableLength_iff hwords hle).1 h.2), if_neg hlt]

end LogDomain

end WeightedAutomata
