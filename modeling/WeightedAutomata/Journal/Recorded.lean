import WeightedAutomata.Compilation.Basic
import WeightedAutomata.Composition.Expansion
import WeightedAutomata.Journal.Basic
import WeightedAutomata.Walk
import Std.Data.HashSet

/-!
The operations that leave notes, together with their notes.

Each of them gives the result that the operation gives by itself.
-/

namespace WeightedAutomata

/-- Computations that write to a journal. -/
abbrev Recorded := StateM Journal

def note (e : Event) : Recorded Unit := modify (·.record e)

namespace Recorded

variable {A B L I M O σ : Type} {r : Range} [LabelOver A I M] [LabelOver B M O]
  [LabelOver L I O] [Alphabet I] [Alphabet M] [Alphabet O]

/-- Removes a state, and notes a removal that succeeded. -/
def removeState (s : StateId) (a : Automaton L r I O) :
    Recorded (EStateM.Result Error (Automaton L r I O) Unit) := do
  let result := Automaton.removeState s a
  if result matches .ok .. then note (.removed s)
  return result

/-- Compiles an expression, and notes the size of the automaton. -/
def compile (d : LogDomain) (e : Expr L) : Recorded (Except Error (Automaton L r I O)) := do
  match e.compile d with
  | .error cause => return .error cause
  | .ok ⟨a, final⟩ =>
    note (.compiled a.stateCount a.transitionCount final)
    return .ok a

/-- The moves out of a composed state, with a note that they were asked for. -/
def moves (c : Composition A B r) (s : ComposedState) :
    Recorded (LazyList (ComposedMove r I O)) := do
  note (.expanding s)
  return c.moves s

/-- Materializes a composition, with a note for each state that was expanded and, if all were, for
the size of the transducer. -/
def materialize (c : Composition A B r) (limits : Limits) :
    Recorded (Except Error (Transducer r I O)) := do
  let (count, x) := c.expand limits.maxStates
  for (s, _) in x.found.take count do note (.expanding s)
  if !x.isFull then
    note (.materialized x.transducer.stateCount x.transducer.transitionCount)
  return if x.isFull then .error (.stateLimit limits.maxStates) else .ok x.transducer

/-- Goes on with a breadth-first exploration: expands at most `count` more composed states, in the
order in which they were found, from position `i` on. -/
def exploreFrom (c : Composition A B r) : Nat → Nat → Array ComposedState →
    Std.HashSet ComposedState → Array (ComposedState × List (ComposedMove r I O)) →
    Recorded (Array (ComposedState × List (ComposedMove r I O)))
  | 0, _, _, _, done => return done
  | count + 1, i, found, known, done =>
    match found[i]? with
    | none => return done
    | some s => do
      let moves := (← moves c s).toList
      let (found, known) := moves.foldl (fun (found, known) m =>
        if known.contains m.target then (found, known)
        else (found.push m.target, known.insert m.target)) (found, known)
      exploreFrom c count (i + 1) found known (done.push (s, moves))

/-- The first `count` composed states in breadth-first order, each with the moves out of it. -/
def explore (c : Composition A B r) (count : Nat) :
    Recorded (List (ComposedState × List (ComposedMove r I O))) := do
  return (← exploreFrom c count 0 #[c.start] (.ofList [c.start]) #[]).toList

/-- A machine, and the note that is left when the arcs of a state are asked for. -/
structure Watched (σ L : Type) (r : Range) where
  machine : Machine σ L r
  asked : σ → Option Event

/-- The states of a stored automaton are there already, so asking for their arcs leaves no note.
-/
def ofAutomaton (a : Automaton L r I O) : Watched StateId L r := ⟨a.machine, fun _ => none⟩

def ofComposition (c : Composition A B r) : Watched ComposedState (Pair I O) r :=
  ⟨c.machine, fun s => some (.expanding s)⟩

/-- The note for what happens on a walk. -/
def Watched.event (m : Watched σ L r) : Occurrence σ → Option Event
  | .accepted n => some (.accepted n)
  | .pulled => none
  | .cut n => some (.cut n)
  | .gaveUp n => some (.gaveUp n)
  | .entered s => m.asked s

def Watched.record (m : Watched σ L r) (j : Journal) (o : Occurrence σ) : Journal :=
  match m.event o with
  | some e => j.record e
  | none => j

def begin (m : Watched σ L r) : Recorded (Walk σ L r) := do
  modify fun j => m.record j (.entered m.machine.start)
  return .begin m.machine

/-- The next path and the walk from there on. -/
def next (m : Watched σ L r) (limits : Limits) (w : Walk σ L r) :
    Recorded (Option (Path L r) × Walk σ L r) := fun j =>
  let (j, path, w) := Walk.advance m.machine limits m.record j 0 w
  ((path, w), j)

/-- At most `count` further paths after those in `found`, whether the walk came to its end while
they were sought, and the walk from there on. -/
def collect (m : Watched σ L r) (limits : Limits) :
    Nat → Array (Path L r) → Walk σ L r → Recorded (Array (Path L r) × Bool × Walk σ L r)
  | 0, found, w => return (found, false, w)
  | count + 1, found, w => do
    match ← next m limits w with
    | (none, w) => return (found, true, w)
    | (some path, w) => collect m limits count (found.push path) w

end Recorded

end WeightedAutomata
