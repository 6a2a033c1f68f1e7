import WeightedAutomata.Composition.Expansion
import WeightedAutomata.Proofs.Automaton.Agreement
import WeightedAutomata.Proofs.Composition.Origin
import Mathlib.Data.List.Forall2

/-!
What the expansion of a composition has drawn so far.

An expansion follows moves, one after the other, and the calls that build its transducer add one
transition for each, in the same order. Between two moves it knows the composed states it has found,
each under a handle of its own, and these are the states of the transducer. A move that the limit
bars is not followed, and no further move is.
-/

namespace WeightedAutomata

open Automaton

variable {A B I M O : Type} {r : Range} [LabelOver A I M] [LabelOver B M O]
  [Alphabet I] [Alphabet M] [Alphabet O]

namespace Composition

/-- Some moves lead from the start to this composed state. -/
inductive Reachable (c : Composition A B r) : ComposedState → Prop
  | start : c.Reachable c.start
  | move {s : ComposedState} {m : ComposedMove r I O} (hs : c.Reachable s)
      (hm : m ∈ (c.moves s).toList) : c.Reachable m.target

lemma source_eq_of_mem_moves {c : Composition A B r} {s : ComposedState} {m : ComposedMove r I O}
    (hm : m ∈ (c.moves s).toList) : m.source = s := by
  rw [toList_moves] at hm
  obtain ⟨o, -, rfl⟩ := List.mem_map.1 hm
  cases o <;> rfl

end Composition

namespace Expansion

variable {x y : Expansion I O r}

/-! ### What the steps change -/

lemma found_adopt (s : ComposedState) (isFinal : Bool) :
    (x.adopt s isFinal).found.toList = x.found.toList ++ [(s, x.transducer.nextState)] :=
  Array.toList_push

lemma stateOf_adopt (s s' : ComposedState) (isFinal : Bool) :
    (x.adopt s isFinal).stateOf[s']? =
      if s = s' then some x.transducer.nextState else x.stateOf[s']? := by
  rw [adopt, Std.HashMap.getElem?_insert]
  simp

lemma stateOf_adopt_of_some {s s' : ComposedState} {u : StateId} (hnew : x.stateOf[s]? = none)
    (hs' : x.stateOf[s']? = some u) (isFinal : Bool) :
    (x.adopt s isFinal).stateOf[s']? = some u := by
  have hne : s ≠ s' := by
    rintro rfl
    rw [hnew] at hs'
    cases hs'
  rw [stateOf_adopt, if_neg hne, hs']

/-! ### What is kept -/

/-- The transition of a move: between the states of the composed states, with the same label and
weight. -/
structure Draws (stateOf : Std.HashMap ComposedState StateId) (m : ComposedMove r I O)
    (t : Transition (Pair I O) r) : Prop where
  source : stateOf[m.source]? = some t.source
  target : stateOf[m.target]? = some t.target
  label : t.label = m.label
  weight : t.weight = m.weight

/-- An expansion within a limit that has followed some moves, its transducer built by some calls. -/
structure Follows (x : Expansion I O r) (c : Composition A B r) (limit : Nat)
    (moves : List (ComposedMove r I O)) (calls : List (Call (Pair I O) r)) : Prop where
  built : x.transducer = new.call calls
  drawn : List.Forall₂ (Draws x.stateOf) moves (inOrderAdded calls)
  start : x.stateOf[c.start]? = some x.transducer.start
  stateOf : ∀ s u, x.stateOf[s]? = some u ↔ (s, u) ∈ x.found.toList
  /-- No composed state is found twice. -/
  distinct : (x.found.toList.map Prod.fst).Nodup
  /-- No two composed states share a state of the transducer. -/
  apart : (x.found.toList.map Prod.snd).Nodup
  inForce : ∀ u b, x.transducer.finality? u = some b ↔
    ∃ s, (s, u) ∈ x.found.toList ∧ c.isFinal s = b
  reachable : ∀ s u, (s, u) ∈ x.found.toList → c.Reachable s
  size : x.found.size ≤ max 1 limit
  /-- Only a full expansion turns a state away. -/
  full : x.isFull → limit ≤ x.found.size ∧ ∃ s, c.Reachable s ∧ x.stateOf[s]? = none

variable {c : Composition A B r} {limit : Nat} {moves : List (ComposedMove r I O)}
  {calls : List (Call (Pair I O) r)}

namespace Follows

lemma consistent (h : x.Follows c limit moves calls) :
    x.transducer.Consistent (inOrderAdded calls) :=
  h.built ▸ consistent_call calls

lemma contains_iff (h : x.Follows c limit moves calls) (u : StateId) :
    x.transducer.contains u ↔ ∃ s, (s, u) ∈ x.found.toList := by
  rw [contains_eq, Option.isSome_iff_exists]
  simp only [h.inForce]
  exact ⟨fun ⟨_, s, hs, _⟩ => ⟨s, hs⟩, fun ⟨s, hs⟩ => ⟨_, s, hs, rfl⟩⟩

lemma contains (h : x.Follows c limit moves calls) {s : ComposedState} {u : StateId}
    (hs : x.stateOf[s]? = some u) : x.transducer.contains u :=
  (h.contains_iff u).2 ⟨s, (h.stateOf s u).1 hs⟩

/-! ### The start -/

def startCalls (isFinal : Bool) : List (Call (Pair I O) r) :=
  if isFinal then [.setFinal ⟨0, 0⟩ true] else []

lemma call_startCalls (isFinal : Bool) :
    (single isFinal : Transducer r I O) = new.call (startCalls isFinal) := by
  cases isFinal <;> rfl

lemma initial (c : Composition A B r) (limit : Nat) :
    (Expansion.initial c.start (c.isFinal c.start)).Follows c limit []
      (startCalls (c.isFinal c.start)) := by
  generalize hfinal : c.isFinal c.start = isFinal
  have hfound : (Expansion.initial c.start isFinal : Expansion I O r).found.toList =
      [(c.start, ⟨0, 0⟩)] := rfl
  have hstateOf : ∀ s, (Expansion.initial c.start isFinal : Expansion I O r).stateOf[s]? =
      if c.start = s then some ⟨0, 0⟩ else none := by
    intro s
    rw [Expansion.initial, Std.HashMap.ofList_singleton, Std.HashMap.getElem?_insert]
    simp [Automaton.start]
  refine {
    built := call_startCalls isFinal
    drawn := by cases isFinal <;> exact List.Forall₂.nil
    start := by rw [hstateOf, if_pos rfl]; rfl
    stateOf := fun s u => by rw [hstateOf, hfound]; simp [eq_comm]
    distinct := by rw [hfound]; simp
    apart := by rw [hfound]; simp
    inForce := fun u b => ?_
    reachable := fun s u hs => ?_
    size := Nat.le_max_left ..
    full := fun h => by cases h }
  · change (single isFinal : Transducer r I O).finality? u = some b ↔ _
    rw [finality?_single, hfound, ← hfinal]
    by_cases hu : u = ⟨0, 0⟩ <;> simp [hu]
  · rw [hfound, List.mem_singleton] at hs
    rw [(Prod.mk.inj hs).1]
    exact .start

/-! ### One more composed state -/

/-- A composed state that is found takes the next state of the transducer. -/
lemma adopt (h : x.Follows c limit moves calls) (hfull : x.isFull = false)
    (hroom : x.found.size < limit) {s : ComposedState} (hs : c.Reachable s)
    (hnew : x.stateOf[s]? = none) :
    (x.adopt s (c.isFinal s)).Follows c limit moves (calls ++ [.addState (c.isFinal s)]) := by
  set u := x.transducer.nextState with hu
  have hconsistent := h.consistent
  have hfound := x.found_adopt s (c.isFinal s)
  have hkeep : ∀ {s' v}, x.stateOf[s']? = some v →
      (x.adopt s (c.isFinal s)).stateOf[s']? = some v :=
    fun hv => stateOf_adopt_of_some hnew hv _
  rw [← hu] at hfound
  -- `s` had no state yet, and the state made for it stands for no other
  have hfresh : ∀ v, (s, v) ∉ x.found.toList := by
    intro v hv
    rw [(h.stateOf s v).2 hv] at hnew
    cases hnew
  have hunused : ∀ s', (s', u) ∉ x.found.toList := by
    intro s' hs'
    exact hconsistent.not_contains_nextState ((h.contains_iff u).2 ⟨s', hs'⟩)
  refine {
    built := ?built
    drawn := ?drawn
    start := hkeep h.start
    stateOf := fun s' v => ?stateOf
    distinct := ?distinct
    apart := ?apart
    inForce := fun v b => ?inForce
    reachable := fun s' v hs' => ?reachable
    size := ?size
    full := fun hc => absurd (hfull.symm.trans hc) (by simp) }
  case built =>
    rw [call_append, ← h.built]
    rfl
  case drawn =>
    rw [inOrderAdded_snoc, ← h.built, hconsistent.note_addState]
    exact h.drawn.imp fun m t ht => {
      source := hkeep ht.source
      target := hkeep ht.target
      label := ht.label
      weight := ht.weight }
  case stateOf =>
    rw [stateOf_adopt, ← hu, hfound, List.mem_append, List.mem_singleton, Prod.mk.injEq]
    by_cases heq : s = s'
    · subst heq
      simp [hfresh v, eq_comm]
    · simp [heq, Ne.symm heq, h.stateOf]
  case distinct =>
    rw [hfound, List.map_append, List.map_singleton, ← List.concat_eq_append, List.nodup_concat]
    exact ⟨by simpa using hfresh, h.distinct⟩
  case apart =>
    rw [hfound, List.map_append, List.map_singleton, ← List.concat_eq_append, List.nodup_concat]
    exact ⟨by simpa using hunused, h.apart⟩
  case inForce =>
    change (x.transducer.grow _).finality? v = some b ↔ _
    rw [finality?_grow hconsistent.states, hfound, ← hu]
    by_cases hv : v = u
    · subst hv
      simp [hunused]
    · simp [hv, h.inForce]
  case reachable =>
    rw [hfound, List.mem_append, List.mem_singleton] at hs'
    obtain hs' | hs' := hs'
    · exact h.reachable s' v hs'
    · rwa [(Prod.mk.inj hs').1]
  case size =>
    change (x.found.push _).size ≤ _
    rw [Array.size_push]
    omega

/-! ### One more move -/

lemma link (h : x.Follows c limit moves calls) {m : ComposedMove r I O} {source target : StateId}
    (hs : x.stateOf[m.source]? = some source) (ht : x.stateOf[m.target]? = some target) :
    (x.link source target m).Follows c limit (moves ++ [m])
      (calls ++ [.addTransition source target m.label m.weight]) := by
  have hsource := h.contains hs
  have htarget := h.contains ht
  have hlast : Draws x.stateOf m ⟨x.transducer.nextTransition, source, target, m.label, m.weight⟩ :=
    ⟨hs, ht, rfl, rfl⟩
  exact {
    h with
    built := by
      rw [call_append, ← h.built]
      exact (after_addTransition hsource htarget m.label m.weight).symm
    drawn := by
      rw [inOrderAdded_snoc, ← h.built, h.consistent.note_addTransition hsource htarget]
      exact List.rel_append h.drawn (.cons hlast .nil)
    inForce := fun u b => by
      change (x.transducer.link source target m.label m.weight).finality? u = some b ↔ _
      rw [finality?_link]
      exact h.inForce u b }

/-- A composed state that the limit bars fills the expansion. -/
lemma bar (h : x.Follows c limit moves calls) (hlimit : limit ≤ x.found.size) {s : ComposedState}
    (hs : c.Reachable s) (hnew : x.stateOf[s]? = none) :
    { x with isFull := true }.Follows c limit moves calls :=
  { h with full := fun _ => ⟨hlimit, s, hs, hnew⟩ }

end Follows

/-! ### The moves out of one composed state -/

/-- One expansion has gone on from another by following moves of a list, all of them unless it is
full. -/
def Continues (c : Composition A B r) (limit : Nat) (moves : List (ComposedMove r I O))
    (x : Expansion I O r) (later : List (ComposedMove r I O)) (y : Expansion I O r) : Prop :=
  ∃ followed calls, y.Follows c limit (moves ++ followed) calls ∧
    x.found.toList <+: y.found.toList ∧ (y.isFull = false → followed = later)

namespace Continues

variable {m : ComposedMove r I O} {later : List (ComposedMove r I O)}

lemma stop (h : x.Follows c limit moves calls) (hlater : x.isFull = false → later = []) :
    Continues c limit moves x later x :=
  ⟨[], calls, by simpa using h, List.prefix_refl _, fun hc => (hlater hc).symm⟩

lemma cons {z : Expansion I O r} (hfound : x.found.toList <+: y.found.toList)
    (h : Continues c limit (moves ++ [m]) y later z) :
    Continues c limit moves x (m :: later) z := by
  obtain ⟨followed, calls, hz, hprefix, hall⟩ := h
  refine ⟨m :: followed, calls, ?_, hfound.trans hprefix, fun hc => by rw [hall hc]⟩
  rwa [List.append_cons]

end Continues

/-- The moves out of a composed state are followed in their order. -/
lemma Follows.follow (h : x.Follows c limit moves calls) (hfull : x.isFull = false)
    {s : ComposedState} {source : StateId} (hs : x.stateOf[s]? = some source)
    (later : LazyList (ComposedMove r I O))
    (hlater : ∀ m ∈ later.toList, m.source = s ∧ c.Reachable m.target) :
    Continues c limit moves x later.toList (x.follow c.isFinal limit source later) := by
  induction later generalizing x moves calls with
  | nil => exact .stop h fun _ => rfl
  | cons m rest ih =>
    obtain ⟨rfl, hreachable⟩ := hlater m (by simp)
    have hrest : ∀ m' ∈ (rest ()).toList, m'.source = m.source ∧ c.Reachable m'.target :=
      fun m' hm' => hlater m' (by simp [hm'])
    rw [LazyList.toList_cons]
    unfold Expansion.follow
    split
    next target htarget =>
      exact .cons (List.prefix_refl _) (ih () (h.link hs htarget) hfull hs hrest)
    next hnew =>
      split
      -- the target is new and there is room: a state is made first
      next hroom =>
        have hadopted := h.adopt hfull hroom hreachable hnew
        have hsource := stateOf_adopt_of_some hnew hs (c.isFinal m.target)
        have htarget : (x.adopt m.target (c.isFinal m.target)).stateOf[m.target]? =
            some x.transducer.nextState := by rw [stateOf_adopt, if_pos rfl]
        have hfound : x.found.toList <+: (x.adopt m.target (c.isFinal m.target)).found.toList := by
          rw [found_adopt]
          exact List.prefix_append ..
        exact .cons hfound (ih () (hadopted.link hsource htarget) hfull hsource hrest)
      next hroom =>
        exact ⟨[], calls, by simpa using h.bar (Nat.le_of_not_lt hroom) hreachable hnew,
          List.prefix_refl _, fun hc => by cases hc⟩

/-! ### All moves -/

/-- The moves out of composed states, in the order in which these were found. -/
def movesOut (c : Composition A B r) (found : List (ComposedState × StateId)) :
    List (ComposedMove r I O) :=
  found.flatMap fun p => (c.moves p.1).toList

lemma Follows.round {i : Nat} (h : x.Follows c limit (movesOut c (x.found.toList.take i)) calls)
    (hfull : x.isFull = false) {s : ComposedState} {source : StateId}
    (hat : x.found[i]? = some (s, source)) :
    ∃ followed calls',
      (x.follow c.isFinal limit source (c.moves s)).Follows c limit followed calls' ∧
      ((x.follow c.isFinal limit source (c.moves s)).isFull = false → followed =
        movesOut c ((x.follow c.isFinal limit source (c.moves s)).found.toList.take (i + 1))) := by
  have hat : x.found.toList[i]? = some (s, source) := by simpa using hat
  have hmem := List.mem_of_getElem? hat
  have hmoves : ∀ m ∈ (c.moves s).toList, m.source = s ∧ c.Reachable m.target :=
    fun m hm => ⟨Composition.source_eq_of_mem_moves hm, (h.reachable s source hmem).move hm⟩
  obtain ⟨followed, calls', hy, hprefix, hall⟩ :=
    h.follow hfull ((h.stateOf s source).2 hmem) _ hmoves
  refine ⟨_, calls', hy, fun hyfull => ?_⟩
  have htake : (x.follow c.isFinal limit source (c.moves s)).found.toList.take (i + 1) =
      x.found.toList.take i ++ [(s, source)] := by
    obtain ⟨more, hmore⟩ := hprefix
    have hlt : i < x.found.toList.length := (List.getElem?_eq_some_iff.1 hat).1
    rw [← hmore, List.take_append_of_le_length hlt, List.take_add_one, hat]
    rfl
  -- what was found before keeps its place, so the next entry of the list is the one just followed
  rw [htake, movesOut, movesOut, List.flatMap_append, List.flatMap_singleton, hall hyfull]

/-- The composed states are expanded in the order in which they were found, all of them unless the
expansion gets full. -/
lemma Follows.expandFrom {fuel i : Nat}
    (h : x.Follows c limit (movesOut c (x.found.toList.take i)) calls) (hfull : x.isFull = false)
    (hfuel : max 1 limit ≤ i + fuel) :
    ∃ followed calls', (c.expandFrom limit fuel i x).2.Follows c limit followed calls' ∧
      ((c.expandFrom limit fuel i x).2.isFull = false →
        followed = movesOut c (c.expandFrom limit fuel i x).2.found.toList) := by
  -- each round follows one entry, and there are at most as many entries as the limit allows
  induction fuel generalizing x i calls with
  | zero =>
    rw [List.take_of_length_le (h.size.trans (by omega))] at h
    exact ⟨_, calls, h, fun _ => rfl⟩
  | succ fuel ih =>
    unfold Composition.expandFrom
    split
    next hnone =>
      rw [List.take_of_length_le (by simpa using hnone)] at h
      exact ⟨_, calls, h, fun _ => rfl⟩
    next s source hsome =>
      obtain ⟨followed, calls', hy, hall⟩ := h.round hfull hsome
      simp only
      split
      next hyfull => exact ⟨_, calls', hy, fun hc => absurd (hyfull.symm.trans hc) (by simp)⟩
      next hyfull =>
        rw [Bool.not_eq_true] at hyfull
        rw [hall hyfull] at hy
        exact ih hy hyfull (by omega)

/-- **An expansion follows the moves out of all composed states it finds**, unless it gets full. -/
lemma exists_follows (c : Composition A B r) (limit : Nat) :
    ∃ followed calls, (c.expand limit).2.Follows c limit followed calls ∧
      ((c.expand limit).2.isFull = false →
        followed = movesOut c (c.expand limit).2.found.toList) :=
  Follows.expandFrom (Follows.initial c limit) rfl (by omega)

end Expansion

end WeightedAutomata
