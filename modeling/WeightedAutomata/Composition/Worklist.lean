import WeightedAutomata.Composition.Expansion

/-!
The expansion of a composition with its queue.

The composed states that have been found but not expanded wait in a queue. Everything is written to
the transducer by edits that may fail, and a look-up of the composed state that is taken from the
queue may find nothing. Nothing says beforehand how many rounds there will be.
-/

namespace WeightedAutomata

/-- A transducer in the making, with the composed states that wait. -/
structure Worklist (I O : Type) [Alphabet I] [Alphabet O] (r : Range) where
  transducer : Transducer r I O
  /-- The state of each composed state found so far. -/
  stateOf : Std.HashMap ComposedState StateId
  /-- The composed states that have not been expanded, the one found first in front. -/
  queue : List ComposedState

namespace Worklist

variable {I O : Type} {r : Range} [Alphabet I] [Alphabet O]

def edit {α : Type} (w : Worklist I O r) (m : Edit (Pair I O) r α) :
    Except Error (α × Worklist I O r) :=
  match m w.transducer with
  | .ok x transducer => .ok (x, { w with transducer })
  | .error cause _ => .error cause

/-- The state of a composed state. One that is new gets a state and waits, unless the limit has been
reached. -/
def stateFor (isFinal : ComposedState → Bool) (limit : Nat) (w : Worklist I O r)
    (s : ComposedState) : Except Error (StateId × Worklist I O r) :=
  match w.stateOf[s]? with
  | some id => .ok (id, w)
  | none =>
    if limit ≤ w.stateOf.size then .error (.stateLimit limit)
    else do
      let (id, w) ← w.edit (Automaton.addState (isFinal s))
      return (id, { w with stateOf := w.stateOf.insert s id, queue := w.queue ++ [s] })

/-- Adds transitions for the moves out of one state. -/
def follow (isFinal : ComposedState → Bool) (limit : Nat) (source : StateId) :
    LazyList (ComposedMove r I O) → Worklist I O r → Except Error (Worklist I O r)
  | .nil, w => .ok w
  | .cons m later, w => do
    let (target, w) ← w.stateFor isFinal limit m.target
    let (_, w) ← w.edit (Automaton.addTransition source target m.label m.weight)
    follow isFinal limit source (later ()) w

end Worklist

namespace Composition

variable {A B I M O : Type} {r : Range} [LabelOver A I M] [LabelOver B M O]
  [Alphabet I] [Alphabet M] [Alphabet O] (c : Composition A B r)

def worklist : Except Error (Worklist I O r) := do
  let transducer : Transducer r I O := .new
  let w : Worklist I O r := ⟨transducer, .ofList [(c.start, transducer.start)], [c.start]⟩
  if c.isFinal c.start then
    let (_, w) ← w.edit (Automaton.setFinal transducer.start true)
    return w
  return w

/-- Expands the composed states that wait, one in each round, until none are left. Nothing is said
if some still wait after the last round. -/
def workOff (limit rounds : Nat) (w : Worklist I O r) : Option (Except Error (Worklist I O r)) :=
  match w.queue with
  | [] => some (.ok w)
  | s :: queue =>
    match rounds with
    | 0 => none
    | rounds + 1 =>
      let w := { w with queue }
      match w.stateOf[s]? with
      | none => workOff limit rounds w
      | some source =>
        match w.follow c.isFinal limit source (c.moves s) with
        | .error cause => some (.error cause)
        | .ok w => workOff limit rounds w

/-- The composition as a transducer, if that takes no more than so many rounds. -/
def materializeWithin (rounds : Nat) (limits : Limits) : Option (Except Error (Transducer r I O)) :=
  match c.worklist with
  | .error cause => some (.error cause)
  | .ok w => (c.workOff limits.maxStates rounds w).map fun result => result.map (·.transducer)

end Composition

end WeightedAutomata
