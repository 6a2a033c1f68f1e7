import WeightedAutomata.Label

/-!
Expressions that describe a weighted set of label sequences.

An expression is plain data; the same one can be compiled into several automata. A weight says
with what probability its operand is taken at the choice, loop or option right above it.
-/

namespace WeightedAutomata

inductive Expr (L : Type) where
  /-- Nothing is read or written. -/
  | epsilon
  | token (label : L)
  | concat (first second : Expr L)
  | alt (first second : Expr L)
  /-- Zero or more times. -/
  | kleene (body : Expr L)
  /-- One or more times. -/
  | positive (body : Expr L)
  | optional (body : Expr L)
  | weighted (weight : Float) (body : Expr L)
  deriving BEq

namespace Expr

variable {L : Type}

/-- The weight stated at the top of the expression. -/
def branchWeight? : Expr L → Option Float
  | weighted w _ => some w
  | _ => none

/-- The expression under all weights stated at its top. -/
def withoutWeight : Expr L → Expr L
  | weighted _ e => e.withoutWeight
  | e => e

/-- All items in order, grouped from the left; no items give epsilon. -/
def sequence : List (Expr L) → Expr L
  | [] => epsilon
  | e :: rest => rest.foldl concat e

section Label

variable {I O : Type} [LabelOver L I O]

/-- Reads one value; on a transducer it writes nothing. -/
def input (value : I) : Expr L := token (Label.ofInput (.concrete value))

/-- Writes one value; on a transducer it reads nothing. -/
def output (value : O) : Expr L := token (Label.ofOutput (.concrete value))

end Label

def symbol {α : Type} (value : α) : Expr (Symbol α) := token (.concrete value)

def pair {I O : Type} (input : I) (output : O) : Expr (Pair I O) := token (.concrete input output)

end Expr

end WeightedAutomata
