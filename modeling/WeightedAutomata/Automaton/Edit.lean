import WeightedAutomata.Automaton.Basic

/-!
Changes to an automaton.

An edit either succeeds with a value or fails with a cause; both ways it leaves an automaton. A
single edit that fails leaves the automaton as it was. A sequence of edits stops at the first one
that fails and keeps what was done before it.
-/

namespace WeightedAutomata

/-- Computations that change an automaton and may fail on the way. -/
abbrev Edit (L : Type) {I O : Type} [LabelOver L I O] [Alphabet I] [Alphabet O] (r : Range) :=
  EStateM Error (Automaton L r I O)

namespace StateRecord

variable {L I O : Type} {r : Range} [LabelOver L I O] [Alphabet I] [Alphabet O]

/-- Files a transition with its source. It is among `transitions` already, with the others of its
source, and stands by weight after those that are not heavier. -/
def file (d : StateRecord I O) (transitions : Arena .transition (Transition L r))
    (t : Transition L r) : StateRecord I O :=
  let slot := t.id.index
  let notHeavier (i : Nat) : Bool := (transitions.at? i).any (·.weight ≤ t.weight)
  { d with
    outgoing := d.outgoing.push slot
    byInput := d.byInput.add (Label.input t.label) slot
    byOutput :=
      if Label.isTransducer L then d.byOutput.add (Label.output t.label) slot else d.byOutput
    byWeight := insertAfter notHeavier d.byWeight slot }

/-- Takes a transition out of its source's lists. -/
def unfile (d : StateRecord I O) (t : Transition L r) : StateRecord I O :=
  let slot := t.id.index
  { d with
    outgoing := d.outgoing.erase slot
    byInput := d.byInput.remove (Label.input t.label) slot
    byOutput :=
      if Label.isTransducer L then d.byOutput.remove (Label.output t.label) slot else d.byOutput
    byWeight := d.byWeight.erase slot }

/-- Counts one more transition of another state. -/
def enter (d : StateRecord I O) : StateRecord I O := { d with incoming := d.incoming + 1 }

/-- Counts one transition of another state less. -/
def leave (d : StateRecord I O) : StateRecord I O := { d with incoming := d.incoming - 1 }

end StateRecord

namespace Automaton

variable {L I O : Type} {r : Range} [LabelOver L I O] [Alphabet I] [Alphabet O]

def nextState (a : Automaton L r I O) : StateId := a.states.next

def grow (a : Automaton L r I O) (isFinal : Bool) : Automaton L r I O :=
  { a with states := a.states.insert (.isolated isFinal) }

def nextTransition (a : Automaton L r I O) : TransitionId := a.transitions.next

/-- The automaton with one more transition, between two states in force. -/
def link (a : Automaton L r I O) (source target : StateId) (label : L) (weight : Weight r) :
    Automaton L r I O :=
  let t : Transition L r := ⟨a.nextTransition, source, target, label, weight⟩
  let transitions := a.transitions.insert t
  let states := a.states.update source.index (·.file transitions t)
  { transitions
    states := if target = source then states else states.update target.index .enter }

def unlink (a : Automaton L r I O) (t : Transition L r) : Automaton L r I O :=
  let states := a.states.update t.source.index (·.unfile t)
  { transitions := a.transitions.vacate t.id.index
    states := if t.target = t.source then states else states.update t.target.index .leave }

/-- The automaton without the transition in a slot, whose source `s` is going too. -/
def drop (s : StateId) (a : Automaton L r I O) (slot : Nat) : Automaton L r I O :=
  match a.transitions.at? slot with
  | none => a
  | some t =>
    { transitions := a.transitions.vacate slot
      states := if t.target = s then a.states else a.states.update t.target.index .leave }

def addState (isFinal : Bool) : Edit L r StateId := fun a =>
  let s := a.nextState
  .ok s (a.grow isFinal)

def setFinal (s : StateId) (isFinal : Bool) : Edit L r Unit := fun a =>
  if a.contains s then
    .ok () { a with states := a.states.update s.index fun d => { d with isFinal } }
  else .error (.unknownState s) a

/-- Adds a transition between two states in force; a missing source is reported first. -/
def addTransition (source target : StateId) (label : L) (weight : Weight r) :
    Edit L r TransitionId := fun a =>
  if !a.contains source then .error (.unknownState source) a
  else if !a.contains target then .error (.unknownState target) a
  else
    let t := a.nextTransition
    .ok t (a.link source target label weight)

/-- Removes a transition and hands it back. -/
def removeTransition (t : TransitionId) : Edit L r (Transition L r) := fun a =>
  match a.transition? t with
  | none => .error (.unknownTransition t) a
  | some transition => .ok transition (a.unlink transition)

/-- Removes a state and its transitions. The start stays, and so does a state to which other
states' transitions lead. -/
def removeState (s : StateId) : Edit L r Unit := fun a =>
  if s = a.start then .error .startStateRemoval a
  else match a.states.get? s with
    | none => .error (.unknownState s) a
    | some d =>
      if 0 < d.incoming then .error (.stateHasIncoming s d.incoming) a
      else .ok () (d.outgoing.foldl (drop s) { a with states := a.states.vacate s.index })

end Automaton

end WeightedAutomata
