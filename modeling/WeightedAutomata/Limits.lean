/-!
Bounds of walks and of the expansion of compositions.

Loops make path sets infinite and compositions multiply states, so both take their bounds from
the caller.
-/

namespace WeightedAutomata

structure Limits where
  /-- The most labels on one path. -/
  maxDepth : Nat := 2000
  /-- The most arcs a walk follows in search of one path before it gives up. -/
  maxSteps : Nat := 100000
  /-- The most states the expansion of a composition may create. -/
  maxStates : Nat := 1000000
  deriving DecidableEq

end WeightedAutomata
