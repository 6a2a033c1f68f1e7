import WeightedAutomata.Arena.Lemmas
import WeightedAutomata.Automaton.Edit
import Mathlib.Tactic.Common

/-!
Automata without their weights.

What is left of an automaton without its weights is another one, in which all weights are one and
nothing is ordered by weight. It has the same handles in force and hands the same ones out, since
weights say nothing about slots.
-/

namespace WeightedAutomata

/-! ### Arenas with other contents -/

namespace Arena

variable {e : Entity} {α β γ : Type} (f : α → β) (a : Arena e α)

def map : Arena e β :=
  { slots := a.slots.map fun s => ⟨s.generation, s.content.map f⟩
    vacant := a.vacant
    live := a.live }

lemma map_empty : (empty : Arena e α).map f = empty := by
  simp [map, empty]

lemma map_map (g : β → γ) : (a.map f).map g = a.map (g ∘ f) := by
  simp [map, Function.comp_def]

lemma handleAt_map (i : Nat) : (a.map f).handleAt i = a.handleAt i := by
  unfold handleAt map
  cases hs : a.slots[i]? <;> simp [hs]

lemma next_map : (a.map f).next = a.next := by
  unfold next
  rw [handleAt_map]
  simp [map]

lemma get?_map (h : Handle e) : (a.map f).get? h = (a.get? h).map f := by
  unfold get? map
  cases hs : a.slots[h.index]? with
  | none => simp [hs]
  | some s => by_cases hg : s.generation = h.generation <;> simp [hs, hg]

lemma at?_map (i : Nat) : (a.map f).at? i = (a.at? i).map f := by
  unfold at? map
  cases hs : a.slots[i]? <;> simp [hs]

lemma toList_map : (a.map f).toList = a.toList.map fun p => (p.1, f p.2) := by
  unfold toList map
  rw [Array.toList_map, List.zipIdx_map, List.filterMap_map, List.map_filterMap]
  simp [Function.comp_def]

lemma handles_map : (a.map f).handles = a.handles := by
  unfold handles
  rw [toList_map, List.map_map]
  rfl

lemma map_insert (x : α) : (a.insert x).map f = (a.map f).insert (f x) := by
  unfold insert map
  cases hv : a.vacant with
  | nil => simp
  | cons i rest =>
    simp only [mk.injEq, and_true]
    refine Array.ext_getElem? fun j => ?_
    simp only [Array.getElem?_map, Array.getElem?_modify]
    split <;> cases a.slots[j]? <;> rfl

lemma map_update {g : α → α} {g' : β → β} (hg : ∀ x, f (g x) = g' (f x)) (i : Nat) :
    (a.update i g).map f = (a.map f).update i g' := by
  unfold update map
  simp only [mk.injEq, and_true]
  refine Array.ext_getElem? fun j => ?_
  simp only [Array.getElem?_map, Array.getElem?_modify]
  split
  · cases a.slots[j]? with
    | none => rfl
    | some s => simp [Function.comp_def, hg]
  · rfl

end Arena

/-! ### Automata -/

variable {L I O : Type} {r r' : Range} [Alphabet I] [Alphabet O]

def StateRecord.unweighted (d : StateRecord I O) : StateRecord I O := { d with byWeight := #[] }

def Transition.unweighted (t : Transition L r) : Transition L .probability :=
  ⟨t.id, t.source, t.target, t.label, 1⟩

namespace Automaton

/-- The automaton with all weights one and nothing ordered by weight. -/
def unweighted (a : Automaton L r I O) : Automaton L .probability I O where
  states := a.states.map StateRecord.unweighted
  transitions := a.transitions.map Transition.unweighted

variable (a : Automaton L r I O) {b : Automaton L r' I O}

lemma nextState_unweighted : a.unweighted.nextState = a.nextState := Arena.next_map _ _

lemma nextTransition_unweighted : a.unweighted.nextTransition = a.nextTransition :=
  Arena.next_map _ _

lemma contains_unweighted (s : StateId) : a.unweighted.contains s = a.contains s := by
  unfold contains Arena.contains unweighted
  rw [Arena.get?_map, Option.isSome_map]

lemma unweighted_grow (isFinal : Bool) :
    (a.grow isFinal).unweighted = a.unweighted.grow isFinal := by
  unfold grow unweighted
  rw [Arena.map_insert]
  rfl

lemma unweighted_new : (new : Automaton L r I O).unweighted = new := by
  unfold new single unweighted
  rw [Arena.map_insert, Arena.map_empty, Arena.map_empty]
  rfl

/-- What a transition adds depends on its weight in what is ordered by weight only. -/
lemma unweighted_link [LabelOver L I O] (source target : StateId) (label : L) (weight : Weight r) :
    (a.link source target label weight).unweighted =
      (a.unweighted.link source target label 1).unweighted := by
  let t : Transition L r := ⟨a.nextTransition, source, target, label, weight⟩
  let u : Transition L .probability := ⟨a.nextTransition, source, target, label, 1⟩
  let file (d : StateRecord I O) := (d.file .empty u).unweighted
  have ht : ∀ transitions, ∀ d : StateRecord I O, (d.file transitions t).unweighted =
    file d.unweighted := fun _ _ => rfl
  have hu : ∀ transitions, ∀ d : StateRecord I O, (d.file transitions u).unweighted =
    file d.unweighted := fun _ _ => rfl
  have henter : ∀ d : StateRecord I O, d.enter.unweighted = d.unweighted.enter := fun _ => rfl
  unfold link
  rw [nextTransition_unweighted]
  unfold unweighted
  simp only [mk.injEq]
  refine ⟨?_, ?_⟩
  · split
    · rw [Arena.map_update _ _ (ht _), Arena.map_update _ _ (hu _), Arena.map_map]
      rfl
    · rw [Arena.map_update _ _ henter, Arena.map_update _ _ henter, Arena.map_update _ _ (ht _),
        Arena.map_update _ _ (hu _), Arena.map_map]
      rfl
  · rw [Arena.map_insert, Arena.map_insert, Arena.map_map]
    rfl

/-! ### What is read off them -/

lemma stateIds_unweighted : a.unweighted.stateIds = a.stateIds := Arena.handles_map _ _

lemma get?_unweighted (s : StateId) :
    a.unweighted.states.get? s = (a.states.get? s).map StateRecord.unweighted :=
  Arena.get?_map _ _ _

lemma isFinal_unweighted (s : StateId) : a.unweighted.isFinal s = a.isFinal s := by
  unfold isFinal
  rw [get?_unweighted, Option.any_map]
  rfl

lemma incoming?_unweighted (s : StateId) : a.unweighted.incoming? s = a.incoming? s := by
  unfold incoming?
  rw [get?_unweighted, Option.map_map]
  rfl

lemma transition?_unweighted (i : TransitionId) :
    a.unweighted.transition? i = (a.transition? i).map Transition.unweighted :=
  Arena.get?_map _ _ _

lemma allTransitions_unweighted :
    a.unweighted.allTransitions = a.allTransitions.map Transition.unweighted := by
  unfold allTransitions unweighted
  rw [Arena.toList_map, List.map_map, List.map_map]
  rfl

lemma filterMap_at?_unweighted (slots : List Nat) :
    slots.filterMap a.unweighted.transitions.at? =
      (slots.filterMap a.transitions.at?).map Transition.unweighted := by
  rw [List.map_filterMap]
  exact congrArg (List.filterMap · slots) (funext fun i => Arena.at?_map _ _ i)

lemma toList_filed_unweighted (slots : StateRecord I O → Array Nat)
    (h : ∀ d, slots d.unweighted = slots d) (s : StateId) :
    (match a.unweighted.states.get? s with
      | some d => a.unweighted.inSlots (slots d)
      | none => .nil).toList =
    (match a.states.get? s with
      | some d => a.inSlots (slots d)
      | none => .nil).toList.map Transition.unweighted := by
  rw [get?_unweighted]
  cases a.states.get? s with
  | none => rfl
  | some d =>
    unfold inSlots
    rw [Option.map_some, LazyList.toList_filterMap, LazyList.toList_filterMap,
      LazyList.toList_ofArray, LazyList.toList_ofArray, h, filterMap_at?_unweighted]

lemma toList_transitionsFrom_unweighted (s : StateId) :
    (a.unweighted.transitionsFrom s).toList =
      (a.transitionsFrom s).toList.map Transition.unweighted :=
  toList_filed_unweighted a (·.outgoing) (fun _ => rfl) s

lemma toList_transitionsReading_unweighted (s : StateId) (k : Symbol I) :
    (a.unweighted.transitionsReading s k).toList =
      (a.transitionsReading s k).toList.map Transition.unweighted :=
  toList_filed_unweighted a (·.byInput.find k) (fun _ => rfl) s

lemma toList_transitionsWriting_unweighted (s : StateId) (k : Symbol O) :
    (a.unweighted.transitionsWriting s k).toList =
      (a.transitionsWriting s k).toList.map Transition.unweighted :=
  toList_filed_unweighted a (·.byOutput.find k) (fun _ => rfl) s

lemma transitionsByOutput_unweighted (s : StateId) : a.unweighted.transitionsByOutput s =
    (a.transitionsByOutput s).map fun p => (p.1, p.2.map Transition.unweighted) := by
  unfold transitionsByOutput
  rw [get?_unweighted]
  cases a.states.get? s with
  | none => rfl
  | some d =>
    rw [Option.map_some, List.map_map]
    exact List.map_congr_left fun p _ => congrArg (p.1, ·) (filterMap_at?_unweighted a _)

/-- Two automata are the same but for weights: they have the same states under the same handles, of
the same finality, and the same transitions under the same handles, in the same order wherever they
are listed, except where they are listed by weight; the groups by output are the same, and which of
them comes first is open. -/
structure SameStructure (a : Automaton L r I O) (b : Automaton L r' I O) : Prop where
  stateIds : b.stateIds = a.stateIds
  isFinal : ∀ s, b.isFinal s = a.isFinal s
  incoming? : ∀ s, b.incoming? s = a.incoming? s
  stateCount : b.stateCount = a.stateCount
  transition? : ∀ i, (b.transition? i).map Transition.unweighted =
    (a.transition? i).map Transition.unweighted
  outgoing : ∀ s, (b.transitionsFrom s).toList.map Transition.unweighted =
    (a.transitionsFrom s).toList.map Transition.unweighted
  reading : ∀ s k, (b.transitionsReading s k).toList.map Transition.unweighted =
    (a.transitionsReading s k).toList.map Transition.unweighted
  writing : ∀ s k, (b.transitionsWriting s k).toList.map Transition.unweighted =
    (a.transitionsWriting s k).toList.map Transition.unweighted
  byOutput : ∀ s,
    ((b.transitionsByOutput s).map fun p => (p.1, p.2.map Transition.unweighted)).Perm
      ((a.transitionsByOutput s).map fun p => (p.1, p.2.map Transition.unweighted))
  all : b.allTransitions.map Transition.unweighted = a.allTransitions.map Transition.unweighted
  transitionCount : b.transitionCount = a.transitionCount

lemma sameStructure_of_unweighted_eq {a : Automaton L r I O} (h : a.unweighted = b.unweighted) :
    SameStructure a b where
  stateIds := by rw [← stateIds_unweighted, ← h, stateIds_unweighted]
  isFinal s := by rw [← isFinal_unweighted, ← h, isFinal_unweighted]
  incoming? s := by rw [← incoming?_unweighted, ← h, incoming?_unweighted]
  stateCount := congrArg (·.states.live) h.symm
  transition? i := by rw [← transition?_unweighted, ← h, transition?_unweighted]
  outgoing s := by
    rw [← toList_transitionsFrom_unweighted, ← h, toList_transitionsFrom_unweighted]
  reading s k := by
    rw [← toList_transitionsReading_unweighted, ← h, toList_transitionsReading_unweighted]
  writing s k := by
    rw [← toList_transitionsWriting_unweighted, ← h, toList_transitionsWriting_unweighted]
  byOutput s := by
    rw [← transitionsByOutput_unweighted, ← h, transitionsByOutput_unweighted]
  all := by rw [← allTransitions_unweighted, ← h, allTransitions_unweighted]
  transitionCount := congrArg (·.transitions.live) h.symm

end Automaton

end WeightedAutomata
