import WeightedAutomata.Automaton.Edit
import WeightedAutomata.Fragment.Basic

/-!
Splices: combinations of pieces that add states and transitions to an automaton.

Each splice adds one state where its operands meet, then ties the ends that meet there. A piece
may name a state that has been removed; the splice then fails at that edge and keeps what it has
added before it.
-/

namespace WeightedAutomata.Fragment

open Automaton

variable {L I O : Type} {r : Range} [LabelOver L I O] [Alphabet I] [Alphabet O]

/-- Ties the right ends of exits to a state. -/
def closeExits (exits : Array (Exit L r)) (target : StateId) : Edit L r Unit :=
  exits.forM fun e => discard (addTransition e.source target e.label e.weight)

/-- Ties the left ends of entries to a state. -/
def closeEntries (entries : Array (Entry L r)) (source : StateId) : Edit L r Unit :=
  entries.forM fun e => discard (addTransition source e.target e.label e.weight)

def closePassages (passages : Array (Passage L r)) (source target : StateId) : Edit L r Unit :=
  passages.forM fun p => discard (addTransition source target p.label p.weight)

/-- One piece after the other, through a new state. -/
def concat (f g : Fragment L r) : Edit L r (Fragment L r) := do
  let junction ← addState false
  closeExits f.exits junction
  closeEntries g.entries junction
  return {
    passages := #[]
    entries := f.entries ++ f.passages.map (·.into junction)
    exits := g.exits ++ g.passages.map (·.outOf junction) }

/-- Ties all ends of a piece to one state, each pass through it costing `again`. -/
def closeOn (f : Fragment L r) (hub : StateId) (again : Weight r) : Edit L r Unit := do
  let f := f.scale again
  closePassages f.passages hub hub
  closeEntries f.entries hub
  closeExits f.exits hub

/-- Any number of passes around a new state, entered and left by epsilon. -/
def closure (f : Fragment L r) (again leave : Weight r) : Edit L r (Fragment L r) := do
  let hub ← addState false
  f.closeOn hub again
  return { passages := #[], entries := #[⟨Label.epsilon, 1, hub⟩]
           exits := #[⟨hub, Label.epsilon, leave⟩] }

/-- A first pass through one piece, then any number of passes through another around a new state.
-/
def positiveClosure (f g : Fragment L r) (again leave : Weight r) : Edit L r (Fragment L r) := do
  let hub ← addState false
  closeExits f.exits hub
  g.closeOn hub again
  return { passages := #[], entries := f.entries ++ f.passages.map (·.into hub)
           exits := #[⟨hub, Label.epsilon, leave⟩] }

/-- Ties the left ends to a state and the right ends to one new final state. A piece without right
ends needs no such state and makes the first one final. -/
def attach (f : Fragment L r) (start : StateId) : Edit L r StateId := do
  if !(← get).contains start then throw (.unknownState start)
  if f.passages.isEmpty then
    closeEntries f.entries start
    if f.exits.isEmpty then
      setFinal start true
      return start
    else
      let final ← addState true
      closeExits f.exits final
      return final
  else
    let final ← addState true
    closePassages f.passages start final
    closeEntries f.entries start
    closeExits f.exits final
    return final

end WeightedAutomata.Fragment
