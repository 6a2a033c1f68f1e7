/-!
Handles of the things an automaton owns.

A handle names a slot and the generation of the thing in it. A slot that has been vacated moves on
to its next generation, so a handle that has gone stale can be told from the one now in force.
-/

namespace WeightedAutomata

/-- The two kinds of things an automaton owns. -/
inductive Entity where
  | state
  | transition
  deriving DecidableEq

/-- A slot and the generation of its content. -/
structure Handle (e : Entity) where
  index : Nat
  generation : Nat
  deriving DecidableEq, Hashable

abbrev StateId := Handle .state

abbrev TransitionId := Handle .transition

namespace Handle

variable {e : Entity}

/-- Handles are ordered by slot, then by generation. -/
instance : Ord (Handle e) :=
  ⟨fun a b => (compare a.index b.index).then (compare a.generation b.generation)⟩

/-- The slot, after the letter of the kind: `s3`, `t0`. -/
def name (h : Handle e) : String :=
  (match e with | .state => "s" | .transition => "t") ++ toString h.index

def described (s : StateId) : String :=
  s!"StateId \x7b index: {s.index}, generation: {s.generation} \x7d"

end Handle

end WeightedAutomata
