import WeightedAutomata.Composition.Cursor
import WeightedAutomata.Proofs.Composition.Origin

/-!
What the calls of a cursor give.

A cursor knows which moves are still ahead of it: those of the transition in hand, those of the
outer transitions that have not been taken up, and those of the inner side alone. Every call gives
the first of them and leaves the others ahead, so the calls give all moves out of a composed state
in the order of a comprehension over the transitions of both sides.
-/

namespace WeightedAutomata

open Automaton

namespace Composition

variable {A B I M O : Type} {r : Range} [LabelOver A I M] [LabelOver B M O]
  [Alphabet I] [Alphabet M] [Alphabet O]

/-! ### The moves as a comprehension -/

section Listed

variable (c : Composition A B r) (s : ComposedState)

/-- The transitions of the inner state that read `k`, in the order they were added. -/
def readers (k : Symbol M) : List (Transition B r) :=
  (c.inner.transitionsFrom s.inner).toList.filter (Label.input ·.label = k)

/-- The moves in which an outer transition takes part. -/
def listedWith (x : Transition A r) : List (ComposedMove r I O) :=
  if Label.output x.label = .epsilon then
    (if s.filter.allows .outer then
      [⟨s, ⟨x.target, s.inner, s.filter.step .outer⟩, ⟨Label.input x.label, .epsilon⟩, x.weight⟩]
    else []) ++
    (if s.filter.allows .epsilons then
      (c.readers s .epsilon).map fun y =>
        ⟨s, ⟨x.target, y.target, s.filter.step .epsilons⟩,
          ⟨Label.input x.label, Label.output y.label⟩, x.weight * y.weight⟩
    else [])
  else if s.filter.allows .both then
    (c.readers s (Label.output x.label)).map fun y =>
      ⟨s, ⟨x.target, y.target, s.filter.step .both⟩,
        ⟨Label.input x.label, Label.output y.label⟩, x.weight * y.weight⟩
  else []

def listedAlone : List (ComposedMove r I O) :=
  if s.filter.allows .inner then
    (c.readers s .epsilon).map fun y =>
      ⟨s, ⟨s.outer, y.target, s.filter.step .inner⟩, ⟨.epsilon, Label.output y.label⟩, y.weight⟩
  else []

/-- All moves out of a composed state: those of each outer transition in the order they were added,
then those of the inner side alone. -/
def listed : List (ComposedMove r I O) :=
  (c.outer.transitionsFrom s.outer).toList.flatMap (c.listedWith s) ++ c.listedAlone s

end Listed

/-! ### What a listed move can be -/

section Listed

variable {c : Composition A B r} {s : ComposedState} {m : ComposedMove r I O}

lemma mem_of_mem_readers {k : Symbol M} {y : Transition B r} (hy : y ∈ c.readers s k) :
    y ∈ (c.inner.transitionsFrom s.inner).toList :=
  List.mem_of_mem_filter hy

lemma cases_of_mem_listed (hm : m ∈ c.listed s) :
    (∃ x ∈ (c.outer.transitionsFrom s.outer).toList, s.filter.allows .outer ∧ m = outerMove s x) ∨
      (∃ x ∈ (c.outer.transitionsFrom s.outer).toList,
        ∃ y ∈ (c.inner.transitionsFrom s.inner).toList, ∃ kind,
          s.filter.allows kind ∧ m = jointMove s kind x y) ∨
      ∃ y ∈ (c.inner.transitionsFrom s.inner).toList,
        s.filter.allows .inner ∧ m = innerMove s y := by
  unfold listed at hm
  rcases List.mem_append.1 hm with hm | hm
  · -- a move of the outer side, alone or with a partner
    obtain ⟨x, hx, hm⟩ := List.mem_flatMap.1 hm
    unfold listedWith at hm
    split at hm
    · rcases List.mem_append.1 hm with hm | hm
      · split at hm
        next hallowed => exact .inl ⟨x, hx, hallowed, List.mem_singleton.1 hm⟩
        next => cases hm
      · split at hm
        next hallowed =>
          obtain ⟨y, hy, rfl⟩ := List.mem_map.1 hm
          exact .inr (.inl ⟨x, hx, y, mem_of_mem_readers hy, .epsilons, hallowed, rfl⟩)
        next => cases hm
    · split at hm
      next hallowed =>
        obtain ⟨y, hy, rfl⟩ := List.mem_map.1 hm
        exact .inr (.inl ⟨x, hx, y, mem_of_mem_readers hy, .both, hallowed, rfl⟩)
      next => cases hm
  · unfold listedAlone at hm
    split at hm
    next hallowed =>
      obtain ⟨y, hy, rfl⟩ := List.mem_map.1 hm
      exact .inr (.inr ⟨y, mem_of_mem_readers hy, hallowed, rfl⟩)
    next => cases hm

lemma isValid_of_mem_listed (hm : m ∈ c.listed s) : s.filter.isValid ∧ m.target.filter.isValid := by
  obtain ⟨x, -, hallowed, rfl⟩ | ⟨x, -, y, -, kind, hallowed, rfl⟩ | ⟨y, -, hallowed, rfl⟩ :=
    cases_of_mem_listed hm
  all_goals exact ⟨FilterState.isValid_of_allows hallowed, hallowed⟩

lemma listed_of_invalid (hs : ¬ s.filter.isValid) : c.listed s = [] :=
  List.eq_nil_iff_forall_not_mem.2 fun _ hm => hs (isValid_of_mem_listed hm).1

lemma inner_of_mem_listed (hs : ¬ c.outer.contains s.outer) (hm : m ∈ c.listed s) :
    ∃ y ∈ (c.inner.transitionsFrom s.inner).toList, m = innerMove s y := by
  have houter := toList_transitionsFrom_of_not_contains hs
  obtain ⟨x, hx, -⟩ | ⟨x, hx, -⟩ | ⟨y, hy, -, rfl⟩ := cases_of_mem_listed hm
  · simp [houter] at hx
  · simp [houter] at hx
  · exact ⟨y, hy, rfl⟩

lemma outer_of_mem_listed (hs : ¬ c.inner.contains s.inner) (hm : m ∈ c.listed s) :
    ∃ x ∈ (c.outer.transitionsFrom s.outer).toList, m = outerMove s x := by
  have hinner := toList_transitionsFrom_of_not_contains hs
  obtain ⟨x, hx, -, rfl⟩ | ⟨x, -, y, hy, -⟩ | ⟨y, hy, -⟩ := cases_of_mem_listed hm
  · exact ⟨x, hx, rfl⟩
  · simp [hinner] at hy
  · simp [hinner] at hy

end Listed

/-! ### The moves are those listed -/

variable (c : Composition A B r) (s : ComposedState)

lemma toList_jointMoves_eq (m : Move) (x : Transition A r) : (c.jointMoves s m x).toList =
    if s.filter.allows m then
      (c.inner.transitionsReading s.inner (Label.output x.label)).toList.map (jointMove s m x)
    else [] := by
  unfold jointMoves
  split
  · exact LazyList.toList_map _ _
  · rfl

lemma toList_innerMoves_eq : (c.innerMoves s).toList =
    if s.filter.allows .inner then
      (c.inner.transitionsReading s.inner .epsilon).toList.map (innerMove s)
    else [] := by
  unfold innerMoves
  split
  · exact LazyList.toList_map _ _
  · rfl

lemma toList_movesWith_of_epsilon {x : Transition A r} (hx : Label.output x.label = .epsilon) :
    (c.movesWith s x).toList = (if s.filter.allows .outer then [outerMove s x] else []) ++
      (c.jointMoves s .epsilons x).toList := by
  unfold movesWith
  rw [if_pos (Symbol.isEpsilon_iff.2 hx)]
  split
  · exact LazyList.toList_cons _ _
  · rfl

lemma toList_movesWith_of_ne {x : Transition A r} (hx : Label.output x.label ≠ .epsilon) :
    (c.movesWith s x).toList = (c.jointMoves s .both x).toList := by
  unfold movesWith
  rw [if_neg fun h => hx (Symbol.isEpsilon_iff.1 h)]

section Comprehension

variable {c s} {us : List (Transition B r)} (hinner : c.inner.Consistent us)
include hinner

lemma readers_eq (k : Symbol M) :
    c.readers s k = (c.inner.transitionsReading s.inner k).toList :=
  (hinner.toList_transitionsReading s.inner k).symm

lemma listedWith_eq (x : Transition A r) : c.listedWith s x = (c.movesWith s x).toList := by
  unfold listedWith
  simp only [readers_eq hinner]
  by_cases hx : Label.output x.label = .epsilon
  · rw [if_pos hx, toList_movesWith_of_epsilon c s hx, toList_jointMoves_eq, hx]
    rfl
  · rw [if_neg hx, toList_movesWith_of_ne c s hx, toList_jointMoves_eq]
    rfl

lemma listedAlone_eq : c.listedAlone s = (c.innerMoves s).toList := by
  unfold listedAlone
  rw [readers_eq hinner, toList_innerMoves_eq]
  rfl

lemma listed_eq : c.listed s = (c.moves s).toList := by
  unfold moves
  split
  · rw [LazyList.toList_append, LazyList.toList_flatMap, ← listedAlone_eq hinner]
    simp only [← listedWith_eq hinner]
    rfl
  · next hinvalid => exact listed_of_invalid hinvalid

end Comprehension

namespace Cursor

/-- The moves of the outer transitions that have not been taken up, then of the inner side alone. -/
def rest (pending : LazyList (Transition A r)) : List (ComposedMove r I O) :=
  pending.toList.flatMap (fun x => (c.movesWith s x).toList) ++ (c.innerMoves s).toList

/-- The moves that a cursor has still to give. -/
def ahead : Cursor A B r → List (ComposedMove r I O)
  | ⟨s, pending, .outer⟩ => rest c s pending
  | ⟨s, pending, .pairing x partners kind⟩ =>
    (if s.filter.allows kind then partners.toList.map (jointMove s kind x) else []) ++
      rest c s pending
  | ⟨s, _, .inner partners⟩ =>
    if s.filter.allows .inner then partners.toList.map (innerMove s) else []
  | ⟨_, _, .done⟩ => []

lemma ahead_cons (x : Transition A r) (later : Unit → LazyList (Transition A r)) :
    ahead c ⟨s, .cons x later, .outer⟩ = (c.movesWith s x).toList ++ rest c s (later ()) := by
  change rest c s _ = _
  unfold rest
  rw [LazyList.toList_cons, List.flatMap_cons, List.append_assoc]

variable {c s}

/-- **A call gives the first of the moves ahead and leaves the others.** -/
lemma next_eq (k : Cursor A B r) :
    (next c k).1 = (ahead c k).head? ∧ ahead c (next c k).2 = (ahead c k).tail := by
  fun_induction next c k with
  -- the outer side has run dry: what is left are the moves of the inner side
  | case1 s ih =>
    have hsame : ahead c ⟨s, .nil, .outer⟩ =
        ahead c ⟨s, .nil, .inner (c.inner.transitionsReading s.inner .epsilon)⟩ := by
      change [] ++ (c.innerMoves s).toList = _
      rw [List.nil_append, toList_innerMoves_eq]
      rfl
    rw [hsame]
    exact ih
  -- an outer move with no output goes alone first, then its partners are looked at
  | case2 s x later partners hepsilon k hallowed =>
    have hx := Symbol.isEpsilon_iff.1 hepsilon
    have hfirst : ahead c ⟨s, .cons x later, .outer⟩ = outerMove s x :: ahead c k := by
      rw [ahead_cons, toList_movesWith_of_epsilon c s hx, if_pos hallowed, toList_jointMoves_eq]
      rfl
    rw [hfirst]
    exact ⟨rfl, rfl⟩
  | case3 s x later partners hepsilon k hbarred ih =>
    have hx := Symbol.isEpsilon_iff.1 hepsilon
    have hsame : ahead c ⟨s, .cons x later, .outer⟩ = ahead c k := by
      rw [ahead_cons, toList_movesWith_of_epsilon c s hx, if_neg hbarred, toList_jointMoves_eq]
      rfl
    rw [hsame]
    exact ih
  | case4 s x later partners hconcrete ih =>
    have hx : Label.output x.label ≠ .epsilon := fun h => hconcrete (Symbol.isEpsilon_iff.2 h)
    have hsame : ahead c ⟨s, .cons x later, .outer⟩ =
        ahead c ⟨s, later (), .pairing x partners .both⟩ := by
      rw [ahead_cons, toList_movesWith_of_ne c s hx, toList_jointMoves_eq]
      rfl
    rw [hsame]
    exact ih
  | case5 s pending x kind hallowed ih =>
    have hsame : ahead c ⟨s, pending, .pairing x .nil kind⟩ = ahead c ⟨s, pending, .outer⟩ := by
      change (if _ then [] else []) ++ _ = _
      rw [ite_self]
      rfl
    rw [hsame]
    exact ih
  | case6 s pending x kind hallowed y later =>
    have hfirst : ahead c ⟨s, pending, .pairing x (.cons y later) kind⟩ =
        jointMove s kind x y :: ahead c ⟨s, pending, .pairing x (later ()) kind⟩ := by
      simp [ahead, hallowed]
    rw [hfirst]
    exact ⟨rfl, rfl⟩
  | case7 s pending x partners kind hbarred ih =>
    have hsame : ahead c ⟨s, pending, .pairing x partners kind⟩ = ahead c ⟨s, pending, .outer⟩ := by
      simp [ahead, hbarred]
    rw [hsame]
    exact ih
  | case8 s pending ih =>
    have hsame : ahead c ⟨s, pending, .inner .nil⟩ = ahead c ⟨s, pending, .done⟩ := ite_self []
    rw [hsame]
    exact ih
  | case9 s pending y later hallowed =>
    have hfirst : ahead c ⟨s, pending, .inner (.cons y later)⟩ =
        innerMove s y :: ahead c ⟨s, pending, .inner (later ())⟩ := by
      simp [ahead, hallowed]
    rw [hfirst]
    exact ⟨rfl, rfl⟩
  -- the filter bars the inner side: nothing is left
  | case10 s pending y later hbarred ih =>
    have hsame : ahead c ⟨s, pending, .inner (.cons y later)⟩ = ahead c ⟨s, pending, .done⟩ :=
      if_neg hbarred
    rw [hsame]
    exact ih
  | case11 s pending => exact ⟨rfl, rfl⟩

variable (c)

def after (n : Nat) (k : Cursor A B r) : Cursor A B r := (fun k => (next c k).2)^[n] k

def result (n : Nat) (k : Cursor A B r) : Option (ComposedMove r I O) := (next c (after c n k)).1

variable {c}

/-- **The calls give the moves ahead, one after the other, and then nothing.** -/
lemma result_eq (n : Nat) (k : Cursor A B r) : result c n k = (ahead c k)[n]? := by
  induction n generalizing k with
  | zero => exact (next_eq k).1.trans List.head?_eq_getElem?
  | succ n ih =>
    change result c n (next c k).2 = _
    rw [ih, (next_eq k).2, List.getElem?_tail]

lemma ahead_begin (s : ComposedState) : ahead c (begin c s) = (c.moves s).toList := by
  unfold begin moves
  split
  · rw [LazyList.toList_append, LazyList.toList_flatMap]
    rfl
  · rfl

end Cursor

/-- The moves out of a composed state are given one by one as a comprehension lists them. -/
structure Drains (c : Composition A B r) (s : ComposedState) : Prop where
  /-- The calls give the list in its order, and after its end they give nothing. -/
  calls : ∀ n, Cursor.result c n (.begin c s) = (c.listed s)[n]?
  moves : (c.moves s).toList = c.listed s
  valid : ∀ m ∈ c.listed s, m.target.filter.isValid
  /-- Nothing moves out of an invalid state, nor where neither side is in force. -/
  nothing : s.filter = .invalid ∨ (¬ c.outer.contains s.outer ∧ ¬ c.inner.contains s.inner) →
    c.listed s = []
  /-- A side that is not in force takes no part in any move. -/
  innerAlone : ¬ c.outer.contains s.outer →
    ∀ m ∈ c.listed s, ∃ y ∈ (c.inner.transitionsFrom s.inner).toList, m = innerMove s y
  outerAlone : ¬ c.inner.contains s.inner →
    ∀ m ∈ c.listed s, ∃ x ∈ (c.outer.transitionsFrom s.outer).toList, m = outerMove s x

/-- **The calls of a cursor give exactly the moves that are listed, in their order**, whatever
operations the two automata come from, and out of any composed state. -/
theorem moves_drained (ops : List (Operation A r)) (ops' : List (Operation B r))
    (s : ComposedState) : Drains ⟨reach ops, reach ops'⟩ s := by
  set c : Composition A B r := ⟨reach ops, reach ops'⟩
  obtain ⟨us, hinner⟩ := consistent_reach ops'
  have hlisted : c.listed s = (c.moves s).toList := listed_eq (c := c) hinner
  refine {
    calls := fun n => ?_
    moves := hlisted.symm
    valid := fun m hm => (isValid_of_mem_listed hm).2
    nothing := ?_
    innerAlone := fun hs m => inner_of_mem_listed hs
    outerAlone := fun hs m => outer_of_mem_listed hs }
  · rw [Cursor.result_eq, Cursor.ahead_begin, hlisted]
  · rintro (hs | ⟨houter, hinner⟩)
    · exact listed_of_invalid (by simp [hs, FilterState.isValid])
    · -- both states are stale: a move would be the inner side's, which has no transitions there
      refine List.eq_nil_iff_forall_not_mem.2 fun m hm => ?_
      obtain ⟨y, hy, -⟩ := inner_of_mem_listed houter hm
      simp [toList_transitionsFrom_of_not_contains hinner] at hy

/-- The outer side has lost its second state; the inner side has a transition that reads nothing. -/
def lostOuter : Composition Pair Pair .probability where
  outer := reach [.call (.addState false), .call (.removeState ⟨1, 0⟩)]
  inner := reach [.call (.addState true),
    .call (.addTransition ⟨0, 0⟩ ⟨1, 0⟩ ⟨.epsilon, .concrete "b"⟩ 1)]

def lostState : ComposedState := ⟨⟨1, 0⟩, ⟨0, 0⟩, .moveBoth⟩

/-- The inner side goes on where the outer state is no longer in force. -/
theorem moves_lostState : ¬ lostOuter.outer.contains lostState.outer ∧
    Cursor.result lostOuter 0 (.begin lostOuter lostState) =
      some ⟨lostState, ⟨⟨1, 0⟩, ⟨1, 0⟩, .moveInner⟩, ⟨.epsilon, .concrete "b"⟩, 1⟩ := by
  have hmoves : (lostOuter.moves lostState).toList =
      [⟨lostState, ⟨⟨1, 0⟩, ⟨1, 0⟩, .moveInner⟩, ⟨.epsilon, .concrete "b"⟩, 1⟩] := by
    decide +kernel
  refine ⟨by decide, ?_⟩
  rw [Cursor.result_eq, Cursor.ahead_begin, hmoves]
  rfl

end Composition

end WeightedAutomata
