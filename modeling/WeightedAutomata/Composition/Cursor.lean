import WeightedAutomata.Composition.Basic

/-!
The moves out of a composed state, one call at a time.

A cursor stands in the middle of a composed state's moves. It takes up the outer transitions one
after the other, pairs each of them with the inner transitions that read what it writes, and turns
to the inner side alone when none are left. Between two calls it keeps no more than what it has
still to go through.
-/

namespace WeightedAutomata.Composition

/-- What a cursor does next. -/
inductive Phase (A B : Type) (r : Range) where
  /-- Takes up an outer transition. -/
  | outer
  /-- Pairs the outer transition in hand with the inner transitions that are left. -/
  | pairing (x : Transition A r) (partners : LazyList (Transition B r)) (kind : Move)
  /-- Moves the inner side alone, along the transitions that are left. -/
  | inner (partners : LazyList (Transition B r))
  | done

/-- The later a phase comes, the lower it ranks. Only an outer transition that is taken up leads
back to a higher one. -/
@[simp] def Phase.rank {A B : Type} {r : Range} : Phase A B r → Nat
  | pairing .. => 3
  | outer => 2
  | inner _ => 1
  | done => 0

structure Cursor (A B : Type) (r : Range) where
  source : ComposedState
  /-- The outer transitions that have not been taken up. -/
  pending : LazyList (Transition A r)
  phase : Phase A B r

namespace Cursor

variable {A B I M O : Type} {r : Range} [LabelOver A I M] [LabelOver B M O]
  [Alphabet I] [Alphabet M] [Alphabet O]

def begin (c : Composition A B r) (s : ComposedState) : Cursor A B r where
  source := s
  pending := c.outer.transitionsFrom s.outer
  phase := if s.filter.isValid then .outer else .done

/-- The next move, if there is one, and the cursor from there on. -/
def next (c : Composition A B r) (k : Cursor A B r) : Option (ComposedMove r I O) × Cursor A B r :=
  match k with
  | ⟨s, .nil, .outer⟩ => next c ⟨s, .nil, .inner (c.inner.transitionsReading s.inner .epsilon)⟩
  | ⟨s, .cons x later, .outer⟩ =>
    let partners := c.inner.transitionsReading s.inner (Label.output x.label)
    if (Label.output x.label).isEpsilon then
      let k := ⟨s, later (), .pairing x partners .epsilons⟩
      if s.filter.allows .outer then (some (outerMove s x), k) else next c k
    else next c ⟨s, later (), .pairing x partners .both⟩
  | ⟨s, pending, .pairing x partners kind⟩ =>
    if s.filter.allows kind then
      match partners with
      | .nil => next c ⟨s, pending, .outer⟩
      | .cons y later => (some (jointMove s kind x y), ⟨s, pending, .pairing x (later ()) kind⟩)
    else next c ⟨s, pending, .outer⟩
  | ⟨s, pending, .inner partners⟩ =>
    match partners with
    | .nil => next c ⟨s, pending, .done⟩
    | .cons y later =>
      if s.filter.allows .inner then (some (innerMove s y), ⟨s, pending, .inner (later ())⟩)
      else next c ⟨s, pending, .done⟩
  | ⟨s, pending, .done⟩ => (none, ⟨s, pending, .done⟩)
termination_by (k.pending.toList.length, k.phase.rank)

end Cursor

end WeightedAutomata.Composition
