import WeightedAutomata.Arena.Basic
import WeightedAutomata.Index
import WeightedAutomata.Label
import WeightedAutomata.LazyList
import WeightedAutomata.PartitionPoint
import WeightedAutomata.Weight

/-!
Weighted automata: acceptors over symbols and transducers over pairs.

States and transitions live in two arenas. A state keeps its transitions by slot number, four
times over: in the order they were added, by input, by output (on transducers) and by weight.
It also counts the transitions of other states that lead to it.
-/

namespace WeightedAutomata

/-- A weighted transition. It belongs to its source. -/
structure Transition (L : Type) (r : Range) where
  id : TransitionId
  source : StateId
  target : StateId
  label : L
  weight : Weight r
  deriving DecidableEq

/-- What an automaton knows of one state. The lists hold slots of its own transitions. -/
structure StateRecord (I O : Type) [Ord I] [Ord O] where
  isFinal : Bool
  /-- Transitions of other states that lead here; loops do not count. -/
  incoming : Nat
  /-- In the order they were added. -/
  outgoing : Array Nat
  byInput : Index (Symbol I)
  /-- Kept on transducers only. -/
  byOutput : Index (Symbol O)
  /-- Lightest first; of equal weights the one added first. -/
  byWeight : Array Nat

def StateRecord.isolated {I O : Type} [Ord I] [Ord O] (isFinal : Bool) : StateRecord I O :=
  { isFinal, incoming := 0, outgoing := #[], byInput := .empty, byOutput := .empty
    byWeight := #[] }

structure Automaton (L : Type) (r : Range) (I : Type := String) (O : Type := String)
    [Alphabet I] [Alphabet O] where
  states : Arena .state (StateRecord I O)
  transitions : Arena .transition (Transition L r)

/-- An automaton over single symbols. -/
abbrev Acceptor (r : Range) (α : Type := String) [Alphabet α] := Automaton (Symbol α) r α α

/-- An automaton over pairs of symbols. -/
abbrev Transducer (r : Range) (I : Type := String) (O : Type := String) [Alphabet I] [Alphabet O] :=
  Automaton (Pair I O) r I O

namespace Automaton

variable {L I O : Type} {r : Range} [LabelOver L I O] [Alphabet I] [Alphabet O]

def single (isFinal : Bool) : Automaton L r I O := ⟨Arena.empty.insert (.isolated isFinal), .empty⟩

/-- The automaton to begin with: its start state is not final. -/
def new : Automaton L r I O := single false

instance : Inhabited (Automaton L r I O) := ⟨new⟩

/-- The start state is the first state of every automaton and is never removed, so its handle is
always the same. -/
def start (_ : Automaton L r I O) : StateId := ⟨0, 0⟩

variable (a : Automaton L r I O)

def contains (s : StateId) : Bool := a.states.contains s

/-- Final states are in force and marked. -/
def isFinal (s : StateId) : Bool := (a.states.get? s).any (·.isFinal)

/-- The number of transitions of other states that lead to a state in force. -/
def incoming? (s : StateId) : Option Nat := (a.states.get? s).map (·.incoming)

def transition? (t : TransitionId) : Option (Transition L r) := a.transitions.get? t

/-- The states in force, in slot order: the start first. -/
def stateIds : List StateId := a.states.handles

def finalStates : List StateId := a.stateIds.filter a.isFinal

def stateCount : Nat := a.states.size

def transitionCount : Nat := a.transitions.size

def allTransitions : List (Transition L r) := a.transitions.toList.map Prod.snd

def inSlots (slots : Array Nat) : LazyList (Transition L r) :=
  (LazyList.ofArray slots).filterMap a.transitions.at?

/-- The transitions of a state in the order they were added. -/
def transitionsFrom (s : StateId) : LazyList (Transition L r) :=
  match a.states.get? s with
  | some d => a.inSlots d.outgoing
  | none => .nil

/-- The transitions of a state that read `k`, epsilon included. -/
def transitionsReading (s : StateId) (k : Symbol I) : LazyList (Transition L r) :=
  match a.states.get? s with
  | some d => a.inSlots (d.byInput.find k)
  | none => .nil

/-- The transitions of a state that write `k`, where the automaton keeps them by output. -/
def transitionsWriting (s : StateId) (k : Symbol O) : LazyList (Transition L r) :=
  match a.states.get? s with
  | some d => a.inSlots (d.byOutput.find k)
  | none => .nil

def transitionsByWeight (s : StateId) : List (Transition L r) :=
  match a.states.get? s with
  | some d => d.byWeight.toList.filterMap a.transitions.at?
  | none => []

/-- The transitions of a state in one group for each output. -/
def transitionsByOutput (s : StateId) : List (Symbol O × List (Transition L r)) :=
  match a.states.get? s with
  | some d => d.byOutput.toList.map fun (k, slots) => (k, slots.filterMap a.transitions.at?)
  | none => []

/-- A list of the transitions of a state, output by output. Which output comes first is open. -/
def ListedByOutput (s : StateId) (ts : List (Transition L r)) : Prop :=
  ∃ groups : List (Symbol O × List (Transition L r)),
    groups.Perm (a.transitionsByOutput s) ∧ ts = groups.flatMap Prod.snd

def degree (s : StateId) : Nat := ((a.states.get? s).map (·.outgoing.size)).getD 0

def described : String :=
  s!"Automaton \x7b start: {a.start.described}, states: {a.stateCount}, " ++
    s!"transitions: {a.transitionCount} \x7d"

end Automaton

end WeightedAutomata
