import WeightedAutomata.Handle

/-!
What can go wrong, by cause, and the text of each cause.
-/

namespace WeightedAutomata

inductive Error where
  /-- No logarithm base is defined for this many digits. -/
  | precisionOutOfRange (precision : Nat)
  /-- A concrete value was asked of epsilon. -/
  | epsilonCast
  | unknownState (state : StateId)
  | unknownTransition (transition : TransitionId)
  | startStateRemoval
  /-- A state cannot go while `incoming` transitions of other states lead to it. -/
  | stateHasIncoming (state : StateId) (incoming : Nat)
  /-- Both sides of a composition use intermediate symbols and share none. -/
  | disjointAlphabets
  | stateLimit (limit : Nat)
  deriving DecidableEq

def Error.message : Error → String
  | precisionOutOfRange p => s!"log precision {p} out of range (expected 1..=6)"
  | epsilonCast => "epsilon cannot be cast to an underlying symbol value"
  | unknownState s => s!"unknown or removed state {s.name}"
  | unknownTransition t => s!"unknown or removed transition {t.name}"
  | startStateRemoval => "the start state cannot be removed"
  | stateHasIncoming s n => s!"state {s.name} is still the target of {n} transition(s)"
  | disjointAlphabets => "outer output alphabet and inner input alphabet share no symbol"
  | stateLimit n => s!"composition exceeded the limit of {n} states"

end WeightedAutomata
