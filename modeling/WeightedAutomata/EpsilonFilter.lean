/-!
The filter that keeps a composition from counting one path several times.

Where one side writes nothing and the other reads nothing, the two may move in either order or
together. The filter remembers who moved alone last and leaves one of these orders: joint moves
first, then one side alone until the next match.
-/

namespace WeightedAutomata

/-- Who may still move. -/
inductive FilterState where
  /-- Either side may move. -/
  | moveBoth
  /-- The outer side has moved alone; it may go on, or both may match. -/
  | moveOuter
  /-- The inner side has moved alone; it may go on, or both may match. -/
  | moveInner
  /-- Nothing may move. -/
  | invalid
  deriving DecidableEq, Hashable

inductive Move where
  /-- Both sides advance on the same concrete symbol. -/
  | both
  /-- The outer side writes nothing and the inner side waits. -/
  | outer
  /-- The inner side reads nothing and the outer side waits. -/
  | inner
  /-- Both sides advance, one writing nothing and the other reading nothing. -/
  | epsilons
  deriving DecidableEq

namespace FilterState

instance : Inhabited FilterState := ⟨moveBoth⟩

def step : FilterState → Move → FilterState
  | invalid, _ => invalid
  | _, .both => moveBoth
  | moveBoth, .outer => moveOuter
  | moveOuter, .outer => moveOuter
  | moveBoth, .inner => moveInner
  | moveInner, .inner => moveInner
  | moveBoth, .epsilons => moveBoth
  | _, _ => invalid

def isValid : FilterState → Bool
  | invalid => false
  | _ => true

/-- A move is allowed when it leaves the filter valid. -/
def allows (f : FilterState) (m : Move) : Bool := (f.step m).isValid

/-- The states in the order in which they are declared. -/
def rank : FilterState → Nat
  | moveBoth => 0
  | moveOuter => 1
  | moveInner => 2
  | invalid => 3

instance : Ord FilterState := ⟨fun f g => compare f.rank g.rank⟩

def name : FilterState → String
  | moveBoth => "MoveBoth"
  | moveOuter => "MoveOuter"
  | moveInner => "MoveInner"
  | invalid => "Invalid"

end FilterState

end WeightedAutomata
