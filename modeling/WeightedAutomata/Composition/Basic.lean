import WeightedAutomata.EpsilonFilter
import WeightedAutomata.Machine

/-!
The composition of two automata: what the outer one writes, the inner one reads.

A composed state is a state of either side and a filter state. Nothing is stored: the moves out of
a composed state are found when they are asked for, from the outer side's transitions and the
inner side's transitions by input.
-/

namespace WeightedAutomata

structure ComposedState where
  outer : StateId
  inner : StateId
  filter : FilterState
  deriving DecidableEq, Hashable

def ComposedState.described (s : ComposedState) : String :=
  s!"ComposedState \x7b outer: {s.outer.described}, inner: {s.inner.described}, " ++
    s!"filter: {s.filter.name} \x7d"

/-- A move from one composed state to another. It reads what the outer side reads and writes what
the inner side writes. -/
structure ComposedMove (r : Range) (I : Type := String) (O : Type := String) where
  source : ComposedState
  target : ComposedState
  label : Pair I O
  weight : Weight r
  deriving DecidableEq

def ComposedMove.arc {I O : Type} {r : Range} (m : ComposedMove r I O) :
    Arc ComposedState (Pair I O) r :=
  ⟨m.target, m.label, m.weight⟩

structure Composition (A B : Type) {I M O : Type} [LabelOver A I M] [LabelOver B M O]
    [Alphabet I] [Alphabet M] [Alphabet O] (r : Range) where
  outer : Automaton A r I M
  inner : Automaton B r M O

namespace Composition

variable {A B I M O : Type} {r : Range} [LabelOver A I M] [LabelOver B M O]
  [Alphabet I] [Alphabet M] [Alphabet O]

/-- The outer side moves and the inner side waits. -/
def outerMove (s : ComposedState) (x : Transition A r) : ComposedMove r I O where
  source := s
  target := ⟨x.target, s.inner, s.filter.step .outer⟩
  label := ⟨Label.input x.label, .epsilon⟩
  weight := x.weight

/-- The inner side moves and the outer side waits. -/
def innerMove (s : ComposedState) (y : Transition B r) : ComposedMove r I O where
  source := s
  target := ⟨s.outer, y.target, s.filter.step .inner⟩
  label := ⟨.epsilon, Label.output y.label⟩
  weight := y.weight

def jointMove (s : ComposedState) (m : Move) (x : Transition A r) (y : Transition B r) :
    ComposedMove r I O where
  source := s
  target := ⟨x.target, y.target, s.filter.step m⟩
  label := ⟨Label.input x.label, Label.output y.label⟩
  weight := x.weight * y.weight

variable (c : Composition A B r)

def start : ComposedState := ⟨c.outer.start, c.inner.start, .moveBoth⟩

/-- Final when both sides are, whatever the filter. -/
def isFinal (s : ComposedState) : Bool := c.outer.isFinal s.outer && c.inner.isFinal s.inner

/-- The moves together with one outer transition: one for each inner transition that reads what
it writes. -/
def jointMoves (s : ComposedState) (m : Move) (x : Transition A r) :
    LazyList (ComposedMove r I O) :=
  if s.filter.allows m then
    (c.inner.transitionsReading s.inner (Label.output x.label)).map (jointMove s m x)
  else .nil

/-- The moves in which one outer transition takes part. One that writes nothing first moves alone,
then together with inner transitions that read nothing. -/
def movesWith (s : ComposedState) (x : Transition A r) : LazyList (ComposedMove r I O) :=
  if (Label.output x.label).isEpsilon then
    if s.filter.allows .outer then
      .cons (outerMove s x) fun _ => c.jointMoves s .epsilons x
    else c.jointMoves s .epsilons x
  else c.jointMoves s .both x

def innerMoves (s : ComposedState) : LazyList (ComposedMove r I O) :=
  if s.filter.allows .inner then
    (c.inner.transitionsReading s.inner .epsilon).map (innerMove s)
  else .nil

/-- The moves out of a composed state: those of each outer transition in the order they were
added, then those of the inner side alone. -/
def moves (s : ComposedState) : LazyList (ComposedMove r I O) :=
  if s.filter.isValid then
    ((c.outer.transitionsFrom s.outer).flatMap (c.movesWith s)).append fun _ => c.innerMoves s
  else .nil

/-- The composition as a walk sees it. -/
def machine : Machine ComposedState (Pair I O) r where
  start := c.start
  isFinal := c.isFinal
  arcs s := (c.moves s).map ComposedMove.arc

end Composition

section Alphabets

variable {L I O : Type} {r : Range} [LabelOver L I O] [Alphabet I] [Alphabet O]

def Automaton.written (a : Automaton L r I O) : List O :=
  a.allTransitions.filterMap fun t => (Label.output t.label).value?

def Automaton.read (a : Automaton L r I O) : List I :=
  a.allTransitions.filterMap fun t => (Label.input t.label).value?

end Alphabets

/-- The composition of two automata that have an intermediate symbol in common, or of which one
uses no concrete intermediate symbol. -/
def Composition.checked {A B I M O : Type} {r : Range} [LabelOver A I M] [LabelOver B M O]
    [Alphabet I] [Alphabet M] [Alphabet O] (outer : Automaton A r I M) (inner : Automaton B r M O) :
    Except Error (Composition A B r) :=
  let written := outer.written
  let read := inner.read
  let known := Std.TreeMap.ofList (written.map fun k => (k, ()))
  if !written.isEmpty && !read.isEmpty && !read.any known.contains then
    .error .disjointAlphabets
  else .ok ⟨outer, inner⟩

end WeightedAutomata
