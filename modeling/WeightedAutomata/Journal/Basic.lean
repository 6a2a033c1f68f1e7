import WeightedAutomata.Composition.Basic

/-!
What is worth a note while automata are built and walked, with a level of importance and a text,
and a journal that keeps the notes from a certain level on.
-/

namespace WeightedAutomata

/-- How important a note is, the least important level first. -/
inductive Level where
  | trace
  | debug
  | warn
  deriving DecidableEq

namespace Level

def rank : Level → Nat
  | trace => 0
  | debug => 1
  | warn => 2

def name : Level → String
  | trace => "TRACE"
  | debug => "DEBUG"
  | warn => "WARN"

end Level

inductive Event where
  | removed (state : StateId)
  | compiled (states transitions : Nat) (final : StateId)
  | materialized (states transitions : Nat)
  /-- The moves out of a composed state were asked for. -/
  | expanding (state : ComposedState)
  | accepted (length : Nat)
  | cut (depth : Nat)
  | gaveUp (steps : Nat)

namespace Event

def level : Event → Level
  | removed _ | expanding _ | accepted _ => .trace
  | compiled .. | materialized .. => .debug
  | cut _ | gaveUp _ => .warn

def text : Event → String
  | removed s => s!"removed state {s.name}"
  | compiled n m s => s!"compiled expression: {n} states, {m} transitions, final {s.name}"
  | materialized n m => s!"materialized composition: {n} states, {m} transitions"
  | expanding s => s!"expanding {s.described}"
  | accepted n => s!"accepted path of length {n}"
  | cut n => s!"path enumeration cut at depth {n}"
  | gaveUp n => s!"path enumeration stopped after {n} steps without a result"

end Event

/-- The events so far that are at least as important as the threshold. Without a threshold none is
kept. -/
structure Journal where
  threshold : Option Level
  events : Array Event

namespace Journal

def opened (threshold : Option Level) : Journal := ⟨threshold, #[]⟩

def keeps (j : Journal) (e : Event) : Bool := j.threshold.any (·.rank ≤ e.level.rank)

def record (j : Journal) (e : Event) : Journal :=
  if j.keeps e then { j with events := j.events.push e } else j

def lines (j : Journal) : List String :=
  j.events.toList.map fun e => e.level.name ++ " " ++ e.text

end Journal

end WeightedAutomata
