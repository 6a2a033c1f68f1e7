import WeightedAutomata.EpsilonFilter
import Mathlib.Tactic.Common

/-!
Which sequences of moves the filter lets through.

Between two matches the sides may move alone or together in many orders. Of all orders with the
same number of steps on either side the filter lets one through: both move together as long as both
have steps to make, and then the side that has some left goes on alone. A match sets the filter
back, so each stretch between matches stands for itself.
-/

namespace WeightedAutomata

/-! ### Sequences of moves and their blocks -/

namespace Move

/-- A longest stretch of a sequence without a match: the sequence begins there or a match stands
before it, and ends there or a match stands after it. -/
def IsBlock (ms b : List Move) : Prop :=
  both ∉ b ∧ ∃ p s, ms = p ++ b ++ s ∧
    (p = [] ∨ ∃ p', p = p' ++ [both]) ∧ (s = [] ∨ ∃ s', s = both :: s')

/-- Both sides together, and then one of them alone. -/
def Canonical (b : List Move) : Prop :=
  ∃ i j, b = List.replicate i epsilons ++ List.replicate j outer ∨
    b = List.replicate i epsilons ++ List.replicate j inner

/-- The steps of the outer side that write nothing. -/
def outerSteps (b : List Move) : Nat := b.count outer + b.count epsilons

/-- The steps of the inner side that read nothing. -/
def innerSteps (b : List Move) : Nat := b.count inner + b.count epsilons

/-- The steps made together as far as they go, and then those that one side has left: of the two
differences one is zero. -/
def interleaving (k l : Nat) : List Move :=
  List.replicate (min k l) epsilons ++
    (List.replicate (k - l) outer ++ List.replicate (l - k) inner)

variable {ms b s : List Move} {k l : Nat}

/-- A sequence is a block, or a block before a match and a shorter sequence. -/
@[elab_as_elim]
lemma block_induction {motive : List Move → Prop} (block : ∀ b, both ∉ b → motive b)
    (matched : ∀ b s, both ∉ b → motive s → motive (b ++ both :: s)) (ms : List Move) :
    motive ms := by
  by_cases h : both ∈ ms
  · obtain ⟨b, s, rfl, hb⟩ := List.eq_append_cons_of_mem h
    exact matched b s hb (block_induction block matched s)
  · exact block ms h
termination_by ms.length

lemma isBlock_self (hb : both ∉ b) : IsBlock b b :=
  ⟨hb, [], [], by simp, Or.inl rfl, Or.inl rfl⟩

lemma isBlock_first (hb : both ∉ b) : IsBlock (b ++ both :: s) b :=
  ⟨hb, [], both :: s, rfl, Or.inl rfl, Or.inr ⟨s, rfl⟩⟩

lemma IsBlock.later {c : List Move} (h : IsBlock s c) : IsBlock (b ++ both :: s) c := by
  obtain ⟨hc, p, t, rfl, hp, ht⟩ := h
  refine ⟨hc, b ++ both :: p, t, by simp, Or.inr ?_, ht⟩
  obtain rfl | ⟨p, rfl⟩ := hp
  · exact ⟨b, rfl⟩
  · exact ⟨b ++ both :: p, by simp⟩

lemma both_notMem_interleaving : both ∉ interleaving k l := by
  simp [interleaving]

lemma count_epsilons_interleaving : (interleaving k l).count epsilons = min k l := by
  simp [interleaving, List.count_replicate]

lemma outerSteps_interleaving : outerSteps (interleaving k l) = k := by
  have halone : (interleaving k l).count outer = k - l := by
    simp [interleaving, List.count_replicate]
  rw [outerSteps, halone, count_epsilons_interleaving]
  omega

lemma innerSteps_interleaving : innerSteps (interleaving k l) = l := by
  have halone : (interleaving k l).count inner = l - k := by
    simp [interleaving, List.count_replicate]
  rw [innerSteps, halone, count_epsilons_interleaving]
  omega

lemma canonical_interleaving : Canonical (interleaving k l) := by
  refine ⟨min k l, ?_⟩
  rcases Nat.le_total l k with h | h
  · exact ⟨k - l, Or.inl (by simp [interleaving, Nat.sub_eq_zero_of_le h])⟩
  · exact ⟨l - k, Or.inr (by simp [interleaving, Nat.sub_eq_zero_of_le h])⟩

lemma Canonical.eq_interleaving (h : Canonical b) :
    b = interleaving (outerSteps b) (innerSteps b) := by
  obtain ⟨i, j, rfl | rfl⟩ := h
  · simp [outerSteps, innerSteps, interleaving, List.count_replicate]
  · simp [outerSteps, innerSteps, interleaving, List.count_replicate]

end Move

/-! ### Runs of the filter -/

namespace FilterState

open Move

variable {f : FilterState} {m : Move} {ms p b s : List Move}

def run (f : FilterState) (ms : List Move) : FilterState := ms.foldl step f

@[simp] lemma run_nil : f.run [] = f := rfl

@[simp] lemma run_cons : f.run (m :: ms) = (f.step m).run ms := rfl

lemma run_append : f.run (p ++ s) = (f.run p).run s := List.foldl_append

/-- The moves never lead to where nothing may move. -/
def Accepts (f : FilterState) (ms : List Move) : Prop := ∀ p, p <+: ms → f.run p ≠ invalid

lemma invalid_run (ms : List Move) : invalid.run ms = invalid := by
  induction ms with
  | nil => rfl
  | cons m ms ih => exact ih

/-- Nothing leads out of the invalid state, so the last state tells whether it was ever reached. -/
lemma accepts_iff : f.Accepts ms ↔ f.run ms ≠ invalid := by
  constructor
  · intro h
    exact h ms List.prefix_rfl
  · rintro h p ⟨s, rfl⟩ hp
    rw [run_append, hp, invalid_run] at h
    exact h rfl

lemma accepts_append : f.Accepts (p ++ s) ↔ (f.run p).Accepts s := by
  rw [accepts_iff, accepts_iff, run_append]

lemma accepts_cons : f.Accepts (m :: ms) ↔ (f.step m).Accepts ms := by
  rw [accepts_iff, accepts_iff, run_cons]

lemma not_invalid_accepts : ¬ invalid.Accepts ms := fun h => accepts_iff.1 h (invalid_run ms)

lemma Accepts.of_append (h : f.Accepts (p ++ s)) : f.Accepts p :=
  fun q hq => h q (hq.trans (List.prefix_append p s))

lemma step_both (hf : f ≠ invalid) : f.step both = moveBoth := by
  cases f with
  | moveBoth | moveOuter | moveInner => rfl
  | invalid => exact absurd rfl hf

/-- After a match the filter stands where it began. -/
lemma accepts_match : f.Accepts (p ++ both :: s) ↔ f.Accepts p ∧ moveBoth.Accepts s := by
  rw [accepts_append, accepts_cons]
  by_cases hp : f.run p = invalid
  · have hstopped : ¬ f.Accepts p := fun h => accepts_iff.1 h hp
    simp [hp, hstopped, step, not_invalid_accepts]
  · have hpassed : f.Accepts p := accepts_iff.2 hp
    simp [hpassed, step_both hp]

lemma run_replicate (h : f.step m = f) (n : Nat) : f.run (List.replicate n m) = f := by
  induction n with
  | zero => rfl
  | succ n ih => rw [List.replicate_succ, run_cons, h, ih]

/-! ### One side alone -/

/-- One move may be made again and again; of all others only a match is let through. -/
structure Repeats (f : FilterState) (m : Move) : Prop where
  valid : f ≠ invalid
  stays : f.step m = f
  bars : ∀ x, x ≠ both → x ≠ m → f.step x = invalid

lemma repeats_outer : Repeats moveOuter outer where
  valid := by decide
  stays := rfl
  bars := by rintro (_ | _ | _ | _) <;> simp [step]

lemma repeats_inner : Repeats moveInner inner where
  valid := by decide
  stays := rfl
  bars := by rintro (_ | _ | _ | _) <;> simp [step]

lemma Repeats.accepts_replicate (h : Repeats f m) (n : Nat) : f.Accepts (List.replicate n m) := by
  rw [accepts_iff, run_replicate h.stays]
  exact h.valid

lemma Repeats.eq_replicate (h : Repeats f m) (hb : both ∉ b) (hf : f.Accepts b) :
    ∃ n, b = List.replicate n m := by
  induction b with
  | nil => exact ⟨0, rfl⟩
  | cons x b ih =>
    rw [List.mem_cons, not_or] at hb
    rw [accepts_cons] at hf
    by_cases hx : x = m
    · subst hx
      rw [h.stays] at hf
      obtain ⟨n, rfl⟩ := ih hb.2 hf
      exact ⟨n + 1, rfl⟩
    · rw [h.bars x (Ne.symm hb.1) hx] at hf
      exact absurd hf not_invalid_accepts

/-! ### One block -/

lemma canonical_of_accepts (hb : both ∉ b) (h : moveBoth.Accepts b) : Canonical b := by
  induction b with
  | nil => exact ⟨0, 0, Or.inl rfl⟩
  | cons m b ih =>
    have hrest : both ∉ b := fun hmem => hb (List.mem_cons_of_mem m hmem)
    rw [accepts_cons] at h
    -- Only a joint move leaves the filter where it was; a side that moves alone bars the rest.
    cases m with
    | both => exact absurd List.mem_cons_self hb
    | outer =>
      obtain ⟨j, rfl⟩ := repeats_outer.eq_replicate hrest h
      exact ⟨0, j + 1, Or.inl rfl⟩
    | inner =>
      obtain ⟨j, rfl⟩ := repeats_inner.eq_replicate hrest h
      exact ⟨0, j + 1, Or.inr rfl⟩
    | epsilons =>
      obtain ⟨i, j, rfl | rfl⟩ := ih hrest h
      · exact ⟨i + 1, j, Or.inl rfl⟩
      · exact ⟨i + 1, j, Or.inr rfl⟩

lemma Repeats.accepts_replicate_moveBoth (h : Repeats f m) (hm : moveBoth.step m = f) (n : Nat) :
    moveBoth.Accepts (List.replicate n m) := by
  cases n with
  | zero => simp [accepts_iff]
  | succ n =>
    rw [List.replicate_succ, accepts_cons, hm]
    exact h.accepts_replicate n

lemma accepts_of_canonical (h : Canonical b) : moveBoth.Accepts b := by
  have hjoint : ∀ i, moveBoth.run (List.replicate i epsilons) = moveBoth := run_replicate rfl
  obtain ⟨i, j, rfl | rfl⟩ := h
  · rw [accepts_append, hjoint]
    exact repeats_outer.accepts_replicate_moveBoth rfl j
  · rw [accepts_append, hjoint]
    exact repeats_inner.accepts_replicate_moveBoth rfl j

/-! ### Whole sequences -/

lemma accepts_of_isBlock (h : moveBoth.Accepts ms) (hb : IsBlock ms b) : moveBoth.Accepts b := by
  -- The match before the block matters, not the one after it.
  obtain ⟨-, p, s, rfl, hp, -⟩ := hb
  have hpb : moveBoth.Accepts (p ++ b) := h.of_append
  obtain rfl | ⟨p, rfl⟩ := hp
  · exact hpb
  · rw [List.append_assoc] at hpb
    exact (accepts_match.1 hpb).2

lemma accepts_of_blocks (h : ∀ b, IsBlock ms b → Canonical b) : moveBoth.Accepts ms := by
  induction ms using block_induction with
  | block b hb => exact accepts_of_canonical (h b (isBlock_self hb))
  | matched b s hb ih =>
    have hfirst : moveBoth.Accepts b := accepts_of_canonical (h b (isBlock_first hb))
    have hlater : moveBoth.Accepts s := ih fun c hc => h c hc.later
    exact accepts_match.2 ⟨hfirst, hlater⟩

/-- The steps of the two sides leave one block that is let through. -/
lemma accepts_steps_iff {k l : Nat} :
    moveBoth.Accepts b ∧ both ∉ b ∧ outerSteps b = k ∧ innerSteps b = l ↔
      b = interleaving k l := by
  constructor
  · rintro ⟨h, hb, rfl, rfl⟩
    exact (canonical_of_accepts hb h).eq_interleaving
  · rintro rfl
    exact ⟨accepts_of_canonical canonical_interleaving, both_notMem_interleaving,
      outerSteps_interleaving, innerSteps_interleaving⟩

/-- **The filter lets exactly the canonical interleavings through.** A sequence of moves is let
through if and only if in each of its blocks both sides move together first and then at most one of
them alone. So of all blocks between two matches in which the outer side makes `k` steps and the
inner side `l`, exactly one is let through, whatever comes before and after. -/
theorem accepts_exactly_interleavings (ms p b s : List Move) (k l : Nat) :
    (moveBoth.Accepts ms ↔ ∀ c, IsBlock ms c → Canonical c) ∧
      (moveBoth.Accepts (p ++ both :: b ++ both :: s) ∧
          both ∉ b ∧ outerSteps b = k ∧ innerSteps b = l ↔
        moveBoth.Accepts p ∧ moveBoth.Accepts s ∧ b = interleaving k l) := by
  constructor
  · -- a sequence is accepted exactly if each of its blocks is
    constructor
    · intro h c hc
      exact canonical_of_accepts hc.1 (accepts_of_isBlock h hc)
    · exact accepts_of_blocks
  · -- a match brings the filter back to where it started, so the parts are judged apart
    have hparts : moveBoth.Accepts (p ++ both :: b ++ both :: s) ↔
        moveBoth.Accepts p ∧ moveBoth.Accepts b ∧ moveBoth.Accepts s := by
      rw [accepts_match, accepts_match, and_assoc]
    rw [hparts, ← accepts_steps_iff]
    tauto

end FilterState

end WeightedAutomata
