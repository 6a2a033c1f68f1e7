import WeightedAutomata.Automaton.Basic

/-!
Paths through an automaton, as sequences of its transitions.

Parallel transitions have handles of their own, so a path says which of them it takes.
-/

namespace WeightedAutomata

variable {L I O : Type} {r : Range} [LabelOver L I O] [Alphabet I] [Alphabet O]

namespace Automaton

/-- The transitions lead from one state to another, each one on from where the last has ended. -/
def Leads (a : Automaton L r I O) : StateId → List (Transition L r) → StateId → Prop
  | s, [], u => s = u
  | s, t :: p, u => t ∈ (a.transitionsFrom s).toList ∧ a.Leads t.target p u

/-- The transitions lead from the start to a final state. -/
def Accepts (a : Automaton L r I O) (p : List (Transition L r)) : Prop :=
  ∃ u, a.Leads a.start p u ∧ a.isFinal u

end Automaton

namespace Transition

def inputs (p : List (Transition L r)) : List I :=
  p.filterMap fun t => (Label.input t.label).value?

def outputs (p : List (Transition L r)) : List O :=
  p.filterMap fun t => (Label.output t.label).value?

def product (p : List (Transition L r)) : Weight r := Weight.product (p.map (·.weight))

end Transition

end WeightedAutomata
