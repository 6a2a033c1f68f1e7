import WeightedAutomata.Automaton.Edit
import WeightedAutomata.Composition.Basic
import WeightedAutomata.Limits
import Std.Data.HashMap

/-!
The reachable part of a composition as a transducer of its own.

Composed states are expanded in the order in which they were found. Each gets a state of the new
transducer when it is found, and its moves become transitions in their order when it is expanded.
The expansion stops short when a further state would exceed the limit.
-/

namespace WeightedAutomata

/-- A transducer in the making. -/
structure Expansion (I O : Type) [Alphabet I] [Alphabet O] (r : Range) where
  transducer : Transducer r I O
  /-- The composed states found so far, in the order in which they were found, each with its state
  of the transducer. -/
  found : Array (ComposedState × StateId)
  /-- The state of each composed state found so far. -/
  stateOf : Std.HashMap ComposedState StateId
  /-- A composed state was not admitted because of the limit. -/
  isFull : Bool

namespace Expansion

variable {I O : Type} {r : Range} [Alphabet I] [Alphabet O]

/-- The start alone, with nothing expanded. -/
def initial (start : ComposedState) (isFinal : Bool) : Expansion I O r :=
  let transducer : Transducer r I O := .single isFinal
  { transducer
    found := #[(start, transducer.start)]
    stateOf := .ofList [(start, transducer.start)]
    isFull := false }

/-- Adds a composed state under the next handle. -/
def adopt (x : Expansion I O r) (s : ComposedState) (isFinal : Bool) : Expansion I O r :=
  let id := x.transducer.nextState
  { x with
    transducer := x.transducer.grow isFinal
    found := x.found.push (s, id)
    stateOf := x.stateOf.insert s id }

/-- Adds the transition of a move between two states of the transducer. -/
def link (x : Expansion I O r) (source target : StateId) (m : ComposedMove r I O) :
    Expansion I O r :=
  { x with transducer := x.transducer.link source target m.label m.weight }

/-- Adds transitions for the moves out of one state, and states for the targets that are new, as
long as the limit admits them. -/
def follow (isFinal : ComposedState → Bool) (limit : Nat) (source : StateId) :
    LazyList (ComposedMove r I O) → Expansion I O r → Expansion I O r
  | .nil, x => x
  | .cons m later, x =>
    match x.stateOf[m.target]? with
    | some target => follow isFinal limit source (later ()) (x.link source target m)
    | none =>
      if x.found.size < limit then
        let target := x.transducer.nextState
        let x := x.adopt m.target (isFinal m.target)
        follow isFinal limit source (later ()) (x.link source target m)
      else { x with isFull := true }

end Expansion

namespace Composition

variable {A B I M O : Type} {r : Range} [LabelOver A I M] [LabelOver B M O]
  [Alphabet I] [Alphabet M] [Alphabet O] (c : Composition A B r)

/-- Expands the states found from position `i` on, at most `fuel` of them. Also says how many have
been expanded in all. -/
def expandFrom (limit : Nat) : Nat → Nat → Expansion I O r → Nat × Expansion I O r
  | 0, i, x => (i, x)
  | fuel + 1, i, x =>
    match x.found[i]? with
    | none => (i, x)
    | some (s, source) =>
      let x := x.follow c.isFinal limit source (c.moves s)
      if x.isFull then (i + 1, x) else expandFrom limit fuel (i + 1) x

/-- Expands the composition from its start. No more states are found than the limit admits beside
the start, so as many rounds are enough. -/
def expand (limit : Nat) : Nat × Expansion I O r :=
  c.expandFrom limit (max 1 limit) 0 (.initial c.start (c.isFinal c.start))

/-- The composition as a transducer, if it has no more states than the limit. -/
def materialize (limits : Limits) : Except Error (Transducer r I O) :=
  let (_, x) := c.expand limits.maxStates
  if x.isFull then .error (.stateLimit limits.maxStates) else .ok x.transducer

end Composition

end WeightedAutomata
