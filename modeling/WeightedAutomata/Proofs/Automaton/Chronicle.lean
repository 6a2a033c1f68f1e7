import WeightedAutomata.Proofs.Automaton.Leaving
import WeightedAutomata.Proofs.Automaton.Run

/-!
The transitions of an automaton in the order in which they were added.

The order is read off the answers that the calls give: what is in force after a call is what was in
force before it and still is, followed by the transition under the handle that the call has issued.
An automaton that calls or operations lead to is consistent with its transitions in that order.
-/

namespace WeightedAutomata

variable {L I O : Type} {r : Range} [LabelOver L I O] [Alphabet I] [Alphabet O]

/-- The transition that a call adds, if it adds one. -/
def Call.added (c : Call L r) (a : Automaton L r I O) : List (Transition L r) :=
  match c with
  | .addTransition source target label weight =>
    match Automaton.addTransition source target label weight a with
    | .ok t b => (b.transition? t).toList
    | .error _ _ => []
  | _ => []

/-- The transitions in force after a call, when `ts` were in force before it. -/
def Call.note (c : Call L r) (a : Automaton L r I O) (ts : List (Transition L r)) :
    List (Transition L r) :=
  (ts.filter fun t => ((a.after c.edit).transition? t.id).isSome) ++ c.added a

def Automaton.noteAll (a : Automaton L r I O) (ts : List (Transition L r)) :
    List (Call L r) → List (Transition L r)
  | [] => ts
  | c :: calls => (a.after c.edit).noteAll (c.note a ts) calls

/-- The transitions in force after a number of calls from the beginning, in the order in which they
were added. -/
def inOrderAdded (calls : List (Call L r)) : List (Transition L r) :=
  Automaton.new.noteAll [] calls

namespace Automaton

variable {a b : Automaton L r I O} {ts : List (Transition L r)}

lemma addTransition_of_contains {source target : StateId} (hs : a.contains source)
    (ht : a.contains target) (label : L) (weight : Weight r) :
    addTransition source target label weight a =
      .ok a.nextTransition (a.link source target label weight) := by
  simp [addTransition, hs, ht]

lemma addTransition_of_not_contains {source target : StateId}
    (h : ¬ (a.contains source ∧ a.contains target)) (label : L) (weight : Weight r) :
    ∃ cause, addTransition source target label weight a = .error cause a := by
  unfold addTransition
  by_cases hs : a.contains source
  · have ht : ¬ a.contains target := fun ht => h ⟨hs, ht⟩
    exact ⟨.unknownState target, by simp [hs, ht]⟩
  · exact ⟨.unknownState source, by simp [hs]⟩

lemma after_addTransition {source target : StateId} (hs : a.contains source)
    (ht : a.contains target) (label : L) (weight : Weight r) :
    a.after (Call.addTransition source target label weight).edit =
      a.link source target label weight := by
  rw [Call.edit, Edit.after_discard]
  simp only [after, addTransition_of_contains hs ht]

/-- Of the transitions of before, those still in force are the ones that were not taken out. -/
lemma Records.filter_inForce {q : Transition L r → Bool} (h : Records a ts)
    (hb : Records b (ts.filter q)) :
    ts.filter (fun t => (b.transition? t.id).isSome) = ts.filter q := by
  refine List.filter_congr fun t ht => ?_
  rw [Bool.eq_iff_iff, Option.isSome_iff_exists]
  constructor
  · -- whatever still carries the handle of `t` has its slot, and so is `t` itself
    rintro ⟨u, hu⟩
    obtain ⟨hmem, hid⟩ := (hb.inForce _ _).1 hu
    obtain ⟨hu, hq⟩ := List.mem_filter.1 hmem
    rwa [← h.eq_of_index_eq hu ht (by rw [hid])]
  · intro hq
    exact ⟨t, (hb.inForce _ _).2 ⟨List.mem_filter.2 ⟨ht, hq⟩, rfl⟩⟩

lemma Records.filter_eq_self {us : List (Transition L r)} (hb : Records b us) (hts : ts ⊆ us) :
    ts.filter (fun t => (b.transition? t.id).isSome) = ts := by
  rw [List.filter_eq_self]
  intro t ht
  rw [(hb.inForce t.id t).2 ⟨hts ht, rfl⟩]
  rfl

namespace Consistent

lemma keep {q : Transition L r → Bool} (h : Consistent a ts) (hb : Consistent b (ts.filter q)) :
    Consistent b (ts.filter fun t => (b.transition? t.id).isSome) := by
  rw [h.filter_inForce hb.toRecords]
  exact hb

lemma keepAll (hb : Consistent b ts) :
    Consistent b (ts.filter fun t => (b.transition? t.id).isSome) := by
  rw [hb.filter_eq_self fun _ ht => ht]
  exact hb

lemma note_addState (h : Consistent a ts) (isFinal : Bool) :
    (Call.addState isFinal).note a ts = ts := by
  simp only [Call.note, Call.added, List.append_nil]
  exact (h.grow isFinal).filter_eq_self fun _ ht => ht

lemma note_addTransition (h : Consistent a ts) {source target : StateId} (hs : a.contains source)
    (ht : a.contains target) (label : L) (weight : Weight r) :
    (Call.addTransition source target label weight).note a ts =
      ts ++ [⟨a.nextTransition, source, target, label, weight⟩] := by
  have hlink := h.link hs ht label weight
  simp only [Call.note, Call.added, after_addTransition hs ht, addTransition_of_contains hs ht]
  rw [hlink.filter_eq_self (List.subset_append_left ..), transition?_link h.transitions, if_pos rfl]
  rfl

/-- **A call leaves an automaton consistent** with what it has kept and added. -/
lemma note (h : Consistent a ts) (c : Call L r) : Consistent (a.after c.edit) (c.note a ts) := by
  cases c with
  | addState isFinal =>
    rw [h.note_addState]
    exact h.grow isFinal
  | setFinal s isFinal =>
    simp only [Call.note, Call.added, List.append_nil]
    refine keepAll ?_
    by_cases hs : a.contains s
    · simpa [Call.edit, after, Automaton.setFinal, hs] using h.setFinal s.index isFinal
    · simpa [Call.edit, after, Automaton.setFinal, hs] using h
  | addTransition source target label weight =>
    by_cases hlive : a.contains source ∧ a.contains target
    · rw [h.note_addTransition hlive.1 hlive.2, after_addTransition hlive.1 hlive.2]
      exact h.link hlive.1 hlive.2 label weight
    · obtain ⟨cause, herror⟩ := addTransition_of_not_contains hlive label weight
      simp only [Call.note, Call.added, Call.edit, Edit.after_discard]
      simp only [after, herror, List.append_nil]
      exact h.keepAll
  | removeTransition i =>
    simp only [Call.note, Call.added, List.append_nil, Call.edit, Edit.after_discard]
    cases ht : a.transition? i with
    | none =>
      simp only [after, removeTransition, ht]
      exact h.keepAll
    | some t =>
      simp only [after, removeTransition, ht]
      exact h.keep (h.unlink ((h.inForce i t).1 ht).1)
  | removeState s =>
    simp only [Call.note, Call.added, List.append_nil, Call.edit]
    -- the start, a missing state and one that is led to stay, and with them all transitions
    by_cases hstart : s = a.start
    · simp only [after, removeState, if_pos hstart]
      exact h.keepAll
    · cases hd : a.states.get? s with
      | none =>
        simp only [after, removeState, if_neg hstart, hd]
        exact h.keepAll
      | some d =>
        by_cases hincoming : 0 < d.incoming
        · simp only [after, removeState, if_neg hstart, hd, if_pos hincoming]
          exact h.keepAll
        · simp only [after, removeState, if_neg hstart, hd, if_neg hincoming]
          exact h.keep (h.remove hd hstart (Nat.eq_zero_of_not_pos hincoming))

lemma noteAll (h : Consistent a ts) (calls : List (Call L r)) :
    Consistent (a.call calls) (a.noteAll ts calls) := by
  induction calls generalizing a ts with
  | nil => exact h
  | cons c calls ih => exact ih (h.note c)

end Consistent

lemma noteAll_append (calls more : List (Call L r)) :
    a.noteAll ts (calls ++ more) = (a.call calls).noteAll (a.noteAll ts calls) more := by
  induction calls generalizing a ts with
  | nil => rfl
  | cons c calls ih => exact ih

lemma inOrderAdded_snoc (calls : List (Call L r)) (c : Call L r) :
    inOrderAdded (calls ++ [c]) = c.note (new.call calls) (inOrderAdded calls) := noteAll_append ..

/-- **A run of calls leaves an automaton consistent** with the transitions in the order in which
they were added. -/
lemma consistent_call (calls : List (Call L r)) :
    Consistent (Automaton.new.call calls) (inOrderAdded calls) :=
  consistent_new.noteAll calls

/-- **Whatever operations lead to is consistent.** -/
lemma consistent_reach (ops : List (Operation L r)) : ∃ ts, Consistent (reach ops) ts := by
  obtain ⟨calls, hcalls⟩ := exists_calls ops
  exact ⟨inOrderAdded calls, hcalls ▸ consistent_call calls⟩

end Automaton

end WeightedAutomata
