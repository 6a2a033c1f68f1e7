import WeightedAutomata.Compilation.Tasks

/-!
From expressions to automata.

An expression is first built as a fragment; where pieces meet the automaton gets a state, and
everything else stays open until the fragment is attached to the state it starts from.
-/

namespace WeightedAutomata

open Compilation

variable {L I O : Type} {r : Range} [LabelOver L I O] [Alphabet I] [Alphabet O]

/-- Builds the fragment of an expression, with the states and transitions inside it. -/
def Expr.fragment (d : LogDomain) (e : Expr L) : Edit L r (Fragment L r) := do
  let done ← performAll d [.visit e] #[]
  return (operand done).1

/-- Adds an expression to an automaton, from a given state on. Returns the final state in which
the expression ends. -/
def Expr.compileFrom (d : LogDomain) (e : Expr L) (start : StateId) : Edit L r StateId := do
  if !(← get).contains start then throw (.unknownState start)
  let f ← e.fragment d
  f.attach start

/-- A compiled expression and the state in which it ends. -/
structure Compiled (L : Type) {I O : Type} [LabelOver L I O] [Alphabet I] [Alphabet O]
    (r : Range) where
  automaton : Automaton L r I O
  final : StateId

def Expr.compile (d : LogDomain) (e : Expr L) : Except Error (Compiled L r) :=
  let fresh : Automaton L r I O := .new
  match e.compileFrom d fresh.start fresh with
  | .ok final automaton => .ok ⟨automaton, final⟩
  | .error cause _ => .error cause

end WeightedAutomata
