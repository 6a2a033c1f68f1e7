import WeightedAutomata.Automaton.Edit

/-!
The same changes, made one write after the other.

A transition and a state are looked up by their full handles whenever they are written, after the
writes before. A look-up that finds nothing fails the edit there, and what has been written stays
written. The removal of a state alone passes over what it does not find.
-/

namespace WeightedAutomata

/-- The arena without the thing a handle names, if it names one. -/
def Arena.remove {e : Entity} {α : Type} (a : Arena e α) (h : Handle e) : Arena e α :=
  if a.contains h then a.vacate h.index else a

namespace Stepwise

variable {L I O : Type} {r : Range} [LabelOver L I O] [Alphabet I] [Alphabet O]

/-- Writes the record of a state, which must be in force. -/
def write (s : StateId) (f : StateRecord I O → StateRecord I O) : Edit L r Unit := fun a =>
  if a.contains s then .ok () { a with states := a.states.update s.index f }
  else .error (.unknownState s) a

/-- Writes at the ends of a transition, at the source first. A loop has no other end. -/
def writeEnds (source target : StateId) (f g : StateRecord I O → StateRecord I O) :
    Edit L r Unit := do
  write source f
  if target ≠ source then write target g

/-- Adds a transition: first under its handle, then with its source, then with its target. -/
def addTransition (source target : StateId) (label : L) (weight : Weight r) :
    Edit L r TransitionId := do
  if !(← get).contains source then throw (.unknownState source)
  if !(← get).contains target then throw (.unknownState target)
  let t : Transition L r := ⟨(← get).nextTransition, source, target, label, weight⟩
  modify fun a => { a with transitions := a.transitions.insert t }
  let transitions := (← get).transitions
  writeEnds source target (·.file transitions t) .enter
  return t.id

/-- Removes a transition: first under its handle, then with its source, then with its target. -/
def removeTransition (id : TransitionId) : Edit L r (Transition L r) := do
  let some t := (← get).transition? id | throw (.unknownTransition id)
  modify fun a => { a with transitions := a.transitions.remove id }
  writeEnds t.source t.target (·.unfile t) .leave
  return t

/-- Removes the transition in a slot, whose source `s` is gone. A target that is not in force is
passed over. -/
def drop (s : StateId) (slot : Nat) : Edit L r Unit := do
  let some t := (← get).transitions.at? slot | return
  modify fun a => { a with transitions := a.transitions.remove ⟨slot, t.id.generation⟩ }
  if t.target ≠ s then tryCatch (write t.target .leave) fun _ => return

/-- Removes a state, then its transitions one after the other. -/
def removeState (s : StateId) : Edit L r Unit := do
  if s = (← get).start then throw .startStateRemoval
  let some d := (← get).states.get? s | throw (.unknownState s)
  if 0 < d.incoming then throw (.stateHasIncoming s d.incoming)
  modify fun a => { a with states := a.states.remove s }
  d.outgoing.forM (drop s)

end Stepwise

end WeightedAutomata
