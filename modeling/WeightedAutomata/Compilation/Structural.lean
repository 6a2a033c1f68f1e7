import WeightedAutomata.Compilation.Basic

/-!
Compilation by plain recursion on the tree, one choice at a time.

This is the reading of an expression that the stack of tasks stands for: operands are built from
left to right, and the two sides of a choice are scaled by its two weights and merged. It nests as
deep as the tree does.
-/

namespace WeightedAutomata.Expr

open Compilation

variable {L I O : Type} {r : Range} [LabelOver L I O] [Alphabet I] [Alphabet O]

/-- Builds the fragment of an expression from the fragments of its parts. -/
def build (d : LogDomain) : Expr L → Edit L r (Fragment L r)
  | epsilon => return .edge Label.epsilon 1
  | token label => return .edge label 1
  | weighted _ body => build d body
  | concat first second => do
    let f ← build d first
    let g ← build d second
    f.concat g
  | alt first second => do
    let f ← build d first
    let g ← build d second
    let (w, v) := choice d first second
    return (f.scale w).merge (g.scale v)
  | kleene body => do
    let f ← build d body
    let (again, leave) := decision d body
    f.closure again leave
  | positive body => do
    let f ← build d body
    let g ← build d body
    let (again, leave) := decision d body
    f.positiveClosure g again leave
  | optional body => do
    let f ← build d body
    let (take, skip) := decision d body
    return f.optional take skip

end WeightedAutomata.Expr
