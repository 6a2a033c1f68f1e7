import WeightedAutomata.Label
import WeightedAutomata.Weight

/-!
Pieces of automata whose outer ends are still open.

A piece is a set of ways through it. An edge that leads all the way through has both ends open;
an entry leads from the open left end to a state already there, an exit from such a state to the
open right end. Combining pieces rewrites these lists, and states appear only where pieces meet.
-/

namespace WeightedAutomata

/-- An edge with both ends open. -/
structure Passage (L : Type) (r : Range) where
  label : L
  weight : Weight r
  deriving DecidableEq

/-- An edge with an open source. -/
structure Entry (L : Type) (r : Range) where
  label : L
  weight : Weight r
  target : StateId
  deriving DecidableEq

/-- An edge with an open target. -/
structure Exit (L : Type) (r : Range) where
  source : StateId
  label : L
  weight : Weight r
  deriving DecidableEq

/-- A piece of an automaton, by its open edges. -/
structure Fragment (L : Type) (r : Range) where
  passages : Array (Passage L r)
  entries : Array (Entry L r)
  exits : Array (Exit L r)
  deriving DecidableEq

variable {L : Type} {r : Range}

/-- The entry to a state that is left when the passage's right end is tied to it. -/
def Passage.into (p : Passage L r) (target : StateId) : Entry L r := ⟨p.label, p.weight, target⟩

/-- The exit from a state that is left when the passage's left end is tied to it. -/
def Passage.outOf (p : Passage L r) (source : StateId) : Exit L r := ⟨source, p.label, p.weight⟩

namespace Fragment

/-- No way through at all. -/
def empty : Fragment L r := ⟨#[], #[], #[]⟩

def edge (label : L) (weight : Weight r) : Fragment L r := ⟨#[⟨label, weight⟩], #[], #[]⟩

def isEmpty (f : Fragment L r) : Bool :=
  f.passages.isEmpty && f.entries.isEmpty && f.exits.isEmpty

def addPassage (f : Fragment L r) (label : L) (weight : Weight r) : Fragment L r :=
  { f with passages := f.passages.push ⟨label, weight⟩ }

def addEntry (f : Fragment L r) (label : L) (weight : Weight r) (target : StateId) :
    Fragment L r :=
  { f with entries := f.entries.push ⟨label, weight, target⟩ }

def addExit (f : Fragment L r) (source : StateId) (label : L) (weight : Weight r) :
    Fragment L r :=
  { f with exits := f.exits.push ⟨source, label, weight⟩ }

/-- The ways through either piece. -/
def merge (f g : Fragment L r) : Fragment L r :=
  { passages := f.passages ++ g.passages
    entries := f.entries ++ g.entries
    exits := f.exits ++ g.exits }

/-- Multiplies every way in by a factor. A way out is reached through one of them, so it carries
the factor already. -/
def scale (f : Fragment L r) (factor : Weight r) : Fragment L r :=
  { f with
    passages := f.passages.map fun p => { p with weight := p.weight * factor }
    entries := f.entries.map fun e => { e with weight := e.weight * factor } }

/-- Takes the piece with one weight, or passes it by with another. -/
def optional {I O : Type} [LabelOver L I O] (f : Fragment L r) (take skip : Weight r) :
    Fragment L r :=
  (f.scale take).addPassage Label.epsilon skip

end Fragment

end WeightedAutomata
