import WeightedAutomata.Proofs.LogDomain.Rounded
import WeightedAutomata.Proofs.Weight.Order

/-!
Sums of weights are ordered as the numbers are.

The sum of two weights is the sum of their logarithms, cut at the top of the range. The order of
sums rests on one thing, that the steps of addition taper off: then more of a summand is no less of
the sum, of two weights as of many.
-/

namespace WeightedAutomata.Weight

open LogDomain

variable {d : LogDomain} {r : Range}

/-! ### Two weights -/

lemma val_plus (a b : Weight r) :
    (plus d a b).log.val = min (d.sum a.log b.log).val r.top.val := by
  unfold plus
  rw [log_cap]
  split_ifs <;> omega

lemma plus_comm (a b : Weight r) : plus d a b = plus d b a :=
  congrArg cap (sum_comm a.log b.log)

@[simp] lemma zero_plus (a : Weight r) : plus d 0 a = a := by
  have hle := a.le_top
  refine Weight.ext ?_
  rw [val_plus, log_zero, zero_sum, min_eq_left hle]

@[simp] lemma plus_zero (a : Weight r) : plus d a 0 = a := by
  rw [plus_comm, zero_plus]

lemma plus_mono (h : d.Tapering) {a a' b b' : Weight r} (ha : a ≤ a') (hb : b ≤ b') :
    plus d a b ≤ plus d a' b' := by
  have hsum := h.sum_mono ha hb
  rw [le_iff, val_plus, val_plus]
  omega

lemma le_plus_left (a b : Weight r) : a ≤ plus d a b := by
  have hsum := le_sum (d := d) a.log b.log
  have hle := a.le_top
  rw [le_iff, val_plus]
  omega

lemma le_plus_right (a b : Weight r) : b ≤ plus d a b := by
  rw [plus_comm]
  exact le_plus_left b a

lemma plus_eq_zero_iff {a b : Weight r} : plus d a b = 0 ↔ a = 0 ∧ b = 0 := by
  constructor
  · intro h
    exact ⟨le_antisymm (h ▸ le_plus_left a b) (zero_le a),
      le_antisymm (h ▸ le_plus_right a b) (zero_le b)⟩
  · rintro ⟨rfl, rfl⟩
    exact zero_plus 0

lemma val_plus_le (h : d.Tapering) (a b : Weight r) :
    (plus d a b).log.val ≤ max a.log.val b.log.val + d.rise 0 := by
  have hsum := sum_le h a.log b.log
  rw [val_plus]
  omega

/-! ### Any number of weights -/

lemma le_foldl_plus (ws : List (Weight r)) (a : Weight r) : a ≤ ws.foldl (plus d) a := by
  induction ws generalizing a with
  | nil => exact le_rfl
  | cons w ws ih => exact (le_plus_left a w).trans (ih (plus d a w))

lemma foldl_plus_mono (h : d.Tapering) {ws vs : List (Weight r)} (hle : List.Forall₂ (· ≤ ·) ws vs)
    {a b : Weight r} (hab : a ≤ b) : ws.foldl (plus d) a ≤ vs.foldl (plus d) b := by
  induction hle generalizing a b with
  | nil => exact hab
  | cons hwv _ ih => exact ih (plus_mono h hab hwv)

lemma sum_append (ws vs : List (Weight r)) : sum d (ws ++ vs) = vs.foldl (plus d) (sum d ws) :=
  List.foldl_append

lemma le_sum_of_mem {ws : List (Weight r)} {w : Weight r} (hw : w ∈ ws) : w ≤ sum d ws := by
  obtain ⟨before, after, rfl⟩ := List.append_of_mem hw
  rw [sum_append, List.foldl_cons]
  exact (le_plus_right (sum d before) w).trans (le_foldl_plus after _)

lemma sum_le_append (ws vs : List (Weight r)) : sum d ws ≤ sum d (ws ++ vs) := by
  rw [sum_append]
  exact le_foldl_plus vs _

/-- **Sums of weights grow with their summands**, where the steps of addition taper off. The sum of
two weights does not depend on their order, has zero as its neutral element, is not below either of
them, is zero for two zeros only, and exceeds the greater logarithm by the first step at most; it is
the same where the gap is cut to a word. The sum of many weights adds them one after the other, so
it is not below any of them, and it does not fall when some are raised or others are added. A sum of
probabilities stops at one. -/
theorem sum_ordered (d : LogDomain) (h : d.Tapering) (r : Range) :
    (∀ a b : Weight r, plus d a b = plus d b a) ∧
    (∀ a : Weight r, plus d 0 a = a ∧ plus d a 0 = a) ∧
    (∀ a a' b b' : Weight r, a ≤ a' → b ≤ b' → plus d a b ≤ plus d a' b') ∧
    (∀ a b : Weight r, a ≤ plus d a b ∧ b ≤ plus d a b) ∧
    (∀ a b : Weight r, plus d a b = 0 ↔ a = 0 ∧ b = 0) ∧
    (∀ a b : Weight r, (plus d a b).log.val ≤ max a.log.val b.log.val + d.rise 0) ∧
    ((d.tableLength : Int) ≤ Log.greatest.val →
      ∀ a b : Weight r, plus d a b = cap (d.sumInWords a.log b.log)) ∧
    (∀ a b : Weight .probability,
      (plus d a b).log.val = min (d.sum a.log b.log).val 0 ∧ plus d a b ≤ 1) ∧
    (sum d ([] : List (Weight r)) = 0 ∧
      ∀ (ws : List (Weight r)) w, sum d (ws ++ [w]) = plus d (sum d ws) w) ∧
    (∀ (ws : List (Weight r)), ∀ w ∈ ws, w ≤ sum d ws) ∧
    (∀ ws vs : List (Weight r), List.Forall₂ (· ≤ ·) ws vs → sum d ws ≤ sum d vs) ∧
    (∀ ws vs : List (Weight r), sum d ws ≤ sum d (ws ++ vs)) ∧
    (∀ ws : List (Weight .probability), sum d ws ≤ 1) :=
  ⟨plus_comm, fun a => ⟨zero_plus a, plus_zero a⟩, fun _ _ _ _ => plus_mono h,
    fun a b => ⟨le_plus_left a b, le_plus_right a b⟩, fun _ _ => plus_eq_zero_iff, val_plus_le h,
    fun hwords a b => congrArg cap (sumInWords_eq hwords a.log b.log).symm,
    fun a b => ⟨val_plus a b, le_one _⟩, ⟨rfl, fun ws w => sum_append ws [w]⟩,
    fun _ _ => le_sum_of_mem, fun _ _ hle => foldl_plus_mono h hle le_rfl, sum_le_append,
    fun _ => le_one _⟩

/-- With base `1.1`: one and one have the logarithm seven. When the first is raised to the logarithm
24, where the table ends, the step is lost and the sum is not less all the same. At the top of the
range the sum of magnitudes stays where it is. -/
theorem sum_ordered_tenths :
    tenths.Tapering ∧ (1 : Weight .magnitude) ≤ cap (.saturate 24) ∧
      (plus tenths 1 1 : Weight .magnitude).log.val = 7 ∧
      plus tenths 1 1 ≤ plus tenths (cap (.saturate 24) : Weight .magnitude) 1 ∧
      sum tenths [1, 1] ≤ sum tenths [(cap (.saturate 24) : Weight .magnitude), 1] ∧
      (cap .greatest : Weight .magnitude) ≤ sum tenths [cap .greatest, cap .greatest] ∧
      plus tenths 1 1 = (cap (tenths.sumInWords .one .one) : Weight .magnitude) := by
  have htapering : tenths.Tapering := tenths_roundedSums.tapering le_rfl
  obtain ⟨-, -, hmono, -, -, -, hwords, -, -, hmem, hraised, -⟩ :=
    sum_ordered tenths htapering .magnitude
  have hle : (1 : Weight .magnitude) ≤ cap (.saturate 24) := by decide
  exact ⟨htapering, hle, by decide, hmono _ _ _ _ hle le_rfl,
    hraised _ _ (.cons hle (.cons le_rfl .nil)), hmem _ _ List.mem_cons_self,
    hwords (by decide) 1 1⟩

end WeightedAutomata.Weight
