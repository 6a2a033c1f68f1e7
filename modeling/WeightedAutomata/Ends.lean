/-!
Sequences that are used up from both ends.
-/

namespace WeightedAutomata

/-- What is left of a sequence: the items from position `first` up to `last`. -/
structure Ends (α : Type) where
  items : Array α
  first : Nat
  last : Nat

namespace Ends

variable {α : Type}

def ofList (xs : List α) : Ends α := ⟨xs.toArray, 0, xs.length⟩

def takeFirst (e : Ends α) : Option α × Ends α :=
  if e.first < e.last then (e.items[e.first]?, { e with first := e.first + 1 }) else (none, e)

def takeLast (e : Ends α) : Option α × Ends α :=
  if e.first < e.last then (e.items[e.last - 1]?, { e with last := e.last - 1 }) else (none, e)

end Ends

end WeightedAutomata
