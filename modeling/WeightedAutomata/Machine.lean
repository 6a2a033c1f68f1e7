import WeightedAutomata.Automaton.Basic

/-!
What a walk sees of an automaton: a start, which states are final, and the arcs of each state in
their order. The states of a composition are seen the same way without ever being stored.
-/

namespace WeightedAutomata

structure Arc (σ L : Type) (r : Range) where
  target : σ
  label : L
  weight : Weight r
  deriving DecidableEq

/-- A weighted machine over states `σ`. -/
structure Machine (σ L : Type) (r : Range) where
  start : σ
  isFinal : σ → Bool
  arcs : σ → LazyList (Arc σ L r)

variable {L I O : Type} {r : Range} [LabelOver L I O] [Alphabet I] [Alphabet O]

def Transition.arc (t : Transition L r) : Arc StateId L r := ⟨t.target, t.label, t.weight⟩

/-- The arcs of a state are its transitions in the order they were added. -/
def Automaton.machine (a : Automaton L r I O) : Machine StateId L r where
  start := a.start
  isFinal := a.isFinal
  arcs s := (a.transitionsFrom s).map Transition.arc

end WeightedAutomata
