import WeightedAutomata.Proofs.Splice.Outcome

/-!
What a splice that fails leaves behind.

A splice is not undone when it fails. The edges that it has tied stay, and so does the state that it
has made for them.
-/

namespace WeightedAutomata

open Automaton

variable {L I O : Type} {r : Range} [Alphabet I] [Alphabet O]

namespace Splice

variable {σ : Splice L r} {a b : Automaton L r I O} {cause : Error}

lemma not_admitted_iff :
    ¬ σ.Admitted a ↔ ∃ f start, σ = .attach f start ∧ ¬ a.contains start := by
  simp [Admitted]

lemma StopsAt.exists_unknown {tied : List (StateId × Arc StateId L r)}
    {e : StateId × Arc StateId L r} {added : List (Transition L r)}
    (h : σ.StopsAt a b cause tied e added) : ∃ s, cause = .unknownState s ∧ ¬ b.contains s :=
  ⟨b.missing e, h.cause, not_contains_missing h.stops⟩

/-- Where the state for the open ends is made at once, it is there when the splice stops. -/
lemma StopsAt.stateCount {tied : List (StateId × Arc StateId L r)}
    {e : StateId × Arc StateId L r} {added : List (Transition L r)}
    (h : σ.StopsAt a b cause tied e added) (hother : ∀ f start, σ ≠ .attach f start) :
    b.stateCount = a.stateCount + 1 := by
  have hmade : σ.early.length ≤ tied.length ∧ σ.opens = true := by
    cases σ with
    | attach f start => exact absurd rfl (hother f start)
    | _ => exact ⟨Nat.zero_le _, rfl⟩
  rw [h.kept.stateCount, decide_eq_true hmade.1, if_pos ⟨rfl, hmade.2⟩]

variable [LabelOver L I O]

/-- **A splice that fails keeps what it has done.** It names a state that is not in force. Either
this is the state to start from, and nothing is changed; or it is an end of an edge, and the edges
before that one stay tied. All splices but those that attach a piece leave at least a new state. -/
theorem failed_keeps (ops : List (Operation L r)) (σ : Splice L r) {cause : Error}
    {b : Automaton L r I O} (hrun : σ.run (reach ops) = .error cause b) :
    (∃ s, cause = .unknownState s ∧ ¬ b.contains s) ∧
      ((∃ f start, σ = .attach f start ∧ cause = .unknownState start ∧ b = reach ops) ∨
        ∃ tied e added, σ.StopsAt (reach ops) b cause tied e added) ∧
      ((∀ f start, σ ≠ .attach f start) → b.stateCount = (reach ops).stateCount + 1) := by
  obtain ⟨ts, ha⟩ := consistent_reach ops
  by_cases hadmitted : σ.Admitted (reach ops)
  · rcases run_cases ha hadmitted with ⟨_, _, hok, -⟩ | ⟨_, _, tied, e, added, hfails, hstops⟩
    · rw [hok] at hrun
      cases hrun
    · obtain ⟨rfl, rfl⟩ := EStateM.Result.error.inj (hfails.symm.trans hrun)
      exact ⟨hstops.exists_unknown, .inr ⟨tied, e, added, hstops⟩, hstops.stateCount⟩
  · obtain ⟨f, start, rfl, hstart⟩ := not_admitted_iff.1 hadmitted
    obtain ⟨rfl, rfl⟩ :=
      EStateM.Result.error.inj ((run_attach_of_not_contains hstart).symm.trans hrun)
    exact ⟨⟨start, rfl, hstart⟩, .inl ⟨f, start, rfl, rfl, rfl⟩,
      fun hother => absurd rfl (hother f start)⟩

/-! ### A state that has been removed -/

/-- A start state, and a handle that is void. -/
def voided : List (Operation Letter .probability) :=
  [.call (.addState false), .call (.removeState ⟨1, 0⟩)]

/-- An exit from the start, and one from the state that has been removed. -/
def severed : Fragment Letter .probability :=
  ⟨#[], #[], #[⟨⟨0, 0⟩, .concrete "a", 1⟩, ⟨⟨1, 0⟩, .concrete "b", 1⟩]⟩

/-- Attached to the start, the first exit is tied to a final state before the second one fails. -/
theorem failed_keeps_severed :
    ∃ b tied e added,
      (attach severed ⟨0, 0⟩).run (reach voided) = .error (.unknownState ⟨1, 0⟩) b ∧
        (attach severed ⟨0, 0⟩).StopsAt (reach voided) b (.unknownState ⟨1, 0⟩) tied e added := by
  have hrun : (attach severed ⟨0, 0⟩).run (reach voided) = .error (.unknownState ⟨1, 0⟩)
      ((reach voided).after (attach severed ⟨0, 0⟩).run) := rfl
  obtain ⟨-, ⟨f, start, heq, hcause, -⟩ | ⟨tied, e, added, hstops⟩, -⟩ := failed_keeps _ _ hrun
  · cases heq
    cases hcause
  · exact ⟨_, tied, e, added, hrun, hstops⟩

/-- A junction and one of the two edges are left, which were not there before. -/
theorem concat_keeps_severed :
    ∃ b, (concat severed .empty).run (reach voided) = .error (.unknownState ⟨1, 0⟩) b ∧
      (reach voided).stateCount = 1 ∧ (reach voided).transitionCount = 0 ∧
      b.stateCount = 2 ∧ b.transitionCount = 1 :=
  ⟨(reach voided).after (concat severed .empty).run, rfl, by decide, by decide, by decide +kernel,
    by decide +kernel⟩

end Splice

end WeightedAutomata
