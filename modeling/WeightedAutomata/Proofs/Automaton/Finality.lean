import WeightedAutomata.Arena.Lemmas
import WeightedAutomata.Automaton.Edit
import Mathlib.Tactic.Common

/-!
Which states are in force, and which of them are final.

Adding a state is the only one of these steps that changes either.
-/

namespace WeightedAutomata.Automaton

variable {L I O : Type} {r : Range} [Alphabet I] [Alphabet O] {a : Automaton L r I O}

/-- Whether a state in force is final. -/
def finality? (a : Automaton L r I O) (s : StateId) : Option Bool :=
  (a.states.get? s).map (·.isFinal)

lemma contains_eq (s : StateId) : a.contains s = (a.finality? s).isSome := by
  simp [contains, Arena.contains, finality?]

lemma isFinal_eq (s : StateId) : a.isFinal s = (a.finality? s).getD false := by
  unfold isFinal finality?
  cases a.states.get? s <;> rfl

lemma finality?_update (states : Arena .state (StateRecord I O)) (i : Nat)
    (f : StateRecord I O → StateRecord I O) (hf : ∀ d, (f d).isFinal = d.isFinal) (s : StateId) :
    ((states.update i f).get? s).map (·.isFinal) = (states.get? s).map (·.isFinal) := by
  rw [Arena.get?_update]
  split
  · cases states.get? s <;> simp [hf]
  · rfl

lemma finality?_grow (h : a.states.Tidy) (isFinal : Bool) (s : StateId) :
    (a.grow isFinal).finality? s = if s = a.nextState then some isFinal else a.finality? s := by
  have hget : (a.grow isFinal).states.get? s =
      if s = a.nextState then some (.isolated isFinal) else a.states.get? s :=
    Arena.get?_insert h _ s
  unfold finality?
  rw [hget]
  split <;> rfl

lemma contains_grow (h : a.states.Tidy) (isFinal : Bool) (s : StateId) :
    (a.grow isFinal).contains s ↔ a.contains s ∨ s = a.nextState := by
  rw [contains_eq, contains_eq, finality?_grow h]
  by_cases hs : s = a.nextState
  · simp [hs]
  · simp [hs]

lemma isFinal_grow_true (h : a.states.Tidy) (s : StateId) :
    (a.grow true).isFinal s ↔ a.isFinal s ∨ s = a.nextState := by
  rw [isFinal_eq, isFinal_eq, finality?_grow h]
  by_cases hs : s = a.nextState
  · simp [hs]
  · simp [hs]

lemma finality?_single (isFinal : Bool) (s : StateId) :
    (single isFinal : Automaton L r I O).finality? s =
      if s = ⟨0, 0⟩ then some isFinal else none := by
  have hget : (single isFinal : Automaton L r I O).states.get? s =
      if s = Arena.empty.next then some (.isolated isFinal) else Arena.empty.get? s :=
    Arena.get?_insert Arena.tidy_empty _ s
  have hnext : (Arena.empty : Arena .state (StateRecord I O)).next = ⟨0, 0⟩ := rfl
  unfold finality?
  rw [hget, hnext, Arena.get?_empty]
  split <;> rfl

lemma contains_new (s : StateId) : (new : Automaton L r I O).contains s ↔ s = ⟨0, 0⟩ := by
  rw [contains_eq, new, finality?_single]
  split <;> simp_all

lemma isFinal_new (s : StateId) : (new : Automaton L r I O).isFinal s = false := by
  rw [isFinal_eq, new, finality?_single]
  split <;> rfl

lemma finality?_drop (leaving : StateId) (slot : Nat) (s : StateId) :
    (a.drop leaving slot).finality? s = a.finality? s := by
  unfold drop finality?
  split
  next => rfl
  next t _ =>
    simp only
    split
    · rfl
    · exact finality?_update _ t.target.index .leave (fun _ => rfl) s

variable [LabelOver L I O]

lemma finality?_link (source target : StateId) (label : L) (weight : Weight r) (s : StateId) :
    (a.link source target label weight).finality? s = a.finality? s := by
  have hfile : ∀ transitions, ∀ t : Transition L r, _ := fun transitions t =>
    finality?_update a.states source.index (·.file transitions t) (fun _ => rfl) s
  unfold link finality?
  simp only
  split
  · exact hfile _ _
  · rw [finality?_update _ target.index .enter fun _ => rfl]
    exact hfile _ _

lemma finality?_unlink (t : Transition L r) (s : StateId) :
    (a.unlink t).finality? s = a.finality? s := by
  have hunfile := finality?_update a.states t.source.index (·.unfile t) (fun _ => rfl) s
  unfold unlink finality?
  simp only
  split
  · exact hunfile
  · rw [finality?_update _ t.target.index .leave fun _ => rfl]
    exact hunfile

end WeightedAutomata.Automaton
