import WeightedAutomata.Symbol

/-!
Labels of transitions.

An acceptor's label is one symbol, which it both reads and writes; a transducer's label is a pair
of an input and an output symbol. `LabelOver` is what automata, compositions and walks ask of
either. Alphabets consist of strings where no other is given.
-/

namespace WeightedAutomata

/-- A symbol of text; the empty string is a concrete symbol. -/
abbrev Letter := Symbol String

/-- A transducer's label. -/
structure Pair (I : Type := String) (O : Type := String) where
  input : Symbol I
  output : Symbol O
  deriving DecidableEq

/-- Labels that read symbols of one alphabet and write symbols of another. -/
class LabelOver (L : Type) (I O : outParam Type) where
  /-- Input and output differ, so an automaton also keeps its transitions by output. -/
  isTransducer : Bool
  input : L → Symbol I
  output : L → Symbol O
  /-- Reads nothing and writes nothing. -/
  epsilon : L
  /-- Reads this symbol; on a transducer it writes nothing. -/
  ofInput : Symbol I → L
  /-- Writes this symbol; on a transducer it reads nothing. -/
  ofOutput : Symbol O → L
  input_epsilon : input epsilon = .epsilon
  output_epsilon : output epsilon = .epsilon

/-- Labels over strings. -/
abbrev Label (L : Type) := LabelOver L String String

variable {L I O : Type}

namespace Label

export LabelOver (isTransducer input output epsilon ofInput ofOutput input_epsilon output_epsilon)

def isEpsilon [LabelOver L I O] (l : L) : Bool := (input l).isEpsilon && (output l).isEpsilon

end Label

instance {α : Type} : LabelOver (Symbol α) α α where
  isTransducer := false
  input := id
  output := id
  epsilon := .epsilon
  ofInput := id
  ofOutput := id
  input_epsilon := rfl
  output_epsilon := rfl

instance : LabelOver (Pair I O) I O where
  isTransducer := true
  input := Pair.input
  output := Pair.output
  epsilon := ⟨.epsilon, .epsilon⟩
  ofInput s := ⟨s, .epsilon⟩
  ofOutput s := ⟨.epsilon, s⟩
  input_epsilon := rfl
  output_epsilon := rfl

namespace Pair

def concrete (input : I) (output : O) : Pair I O := ⟨.concrete input, .concrete output⟩

/-- Pairs are ordered by input, then by output. -/
instance [Ord I] [Ord O] : Ord (Pair I O) :=
  ⟨fun a b => (compare a.input b.input).then (compare a.output b.output)⟩

def text [Text.Shown I] [Text.Shown O] (p : Pair I O) : String :=
  p.input.text ++ ":" ++ p.output.text

end Pair

end WeightedAutomata
