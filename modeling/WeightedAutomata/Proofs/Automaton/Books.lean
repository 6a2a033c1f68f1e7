import WeightedAutomata.Proofs.Arena.Ledger
import WeightedAutomata.Proofs.Automaton.Removal

/-!
The books of an automaton: the handles that a run has issued and removed.

The entries are read off the answers that the calls give. A removed state takes its transitions
along, and they are entered with it. As long as no slot has been vacated `2 ^ 32` times, a handle is
in force exactly when it stands in the books as issued and not as removed.
-/

namespace WeightedAutomata

variable {L I O : Type} {r : Range} [LabelOver L I O] [Alphabet I] [Alphabet O]

structure Books where
  states : Ledger .state
  transitions : Ledger .transition
  deriving DecidableEq

namespace Books

def opening : Books := ⟨.issue .empty ⟨0, 0⟩, .empty⟩

/-- No slot has been vacated so often that its generations have come round. -/
def Bounded (b : Books) : Prop := b.states.Bounded ∧ b.transitions.Bounded

/-- Books that have been carried on: entries are added and never taken back. -/
structure CarriedOn (b b' : Books) : Prop where
  states : b.states.issued <+: b'.states.issued
  statesRemoved : b.states.removed <+: b'.states.removed
  transitions : b.transitions.issued <+: b'.transitions.issued
  transitionsRemoved : b.transitions.removed <+: b'.transitions.removed

end Books

/-- What a call enters in the books. -/
def Call.enter (c : Call L r) (a : Automaton L r I O) (b : Books) : Books :=
  match c with
  | .addState isFinal =>
    match Automaton.addState isFinal a with
    | .ok s _ => { b with states := b.states.issue s }
    | .error _ _ => b
  | .setFinal _ _ => b
  | .addTransition source target label weight =>
    match Automaton.addTransition source target label weight a with
    | .ok t _ => { b with transitions := b.transitions.issue t }
    | .error _ _ => b
  | .removeTransition t =>
    match Automaton.removeTransition t a with
    | .ok _ _ => { b with transitions := b.transitions.strike [t] }
    | .error _ _ => b
  | .removeState s =>
    match Automaton.removeState s a with
    | .ok _ _ =>
      { states := b.states.strike [s]
        transitions := b.transitions.strike ((a.transitionsFrom s).toList.map Transition.id) }
    | .error _ _ => b

def Automaton.keepBooks (a : Automaton L r I O) (b : Books) : List (Call L r) → Books
  | [] => b
  | c :: calls => (a.after c.edit).keepBooks (c.enter a b) calls

def books (calls : List (Call L r)) : Books := Automaton.new.keepBooks .opening calls

namespace Books

variable {b b' b'' : Books}

lemma CarriedOn.refl : b.CarriedOn b :=
  ⟨List.prefix_refl _, List.prefix_refl _, List.prefix_refl _, List.prefix_refl _⟩

lemma CarriedOn.trans (h : b.CarriedOn b') (h' : b'.CarriedOn b'') : b.CarriedOn b'' where
  states := h.states.trans h'.states
  statesRemoved := h.statesRemoved.trans h'.statesRemoved
  transitions := h.transitions.trans h'.transitions
  transitionsRemoved := h.transitionsRemoved.trans h'.transitionsRemoved

lemma carriedOn_enter (c : Call L r) (a : Automaton L r I O) : b.CarriedOn (c.enter a b) := by
  have hrefl := CarriedOn.refl (b := b)
  cases c with
  | addState isFinal => exact { hrefl with states := List.prefix_append .. }
  | setFinal s isFinal => exact hrefl
  | addTransition source target label weight =>
    unfold Call.enter
    simp only
    split
    · exact { hrefl with transitions := List.prefix_append .. }
    · exact hrefl
  | removeTransition t =>
    unfold Call.enter
    simp only
    split
    · exact { hrefl with transitionsRemoved := List.prefix_append .. }
    · exact hrefl
  | removeState s =>
    unfold Call.enter
    simp only
    split
    · exact {
        hrefl with
        statesRemoved := List.prefix_append ..
        transitionsRemoved := List.prefix_append .. }
    · exact hrefl

lemma carriedOn_keepBooks (a : Automaton L r I O) (calls : List (Call L r)) :
    b.CarriedOn (a.keepBooks b calls) := by
  induction calls generalizing a b with
  | nil => exact .refl
  | cons c calls ih => exact (carriedOn_enter c a).trans (ih _)

lemma Bounded.of_carriedOn (hbound : b'.Bounded) (h : b.CarriedOn b') : b.Bounded :=
  ⟨hbound.1.of_earlier h.statesRemoved, hbound.2.of_earlier h.transitionsRemoved⟩

end Books

namespace Automaton

variable {a : Automaton L r I O} {b : Books} {ts : List (Transition L r)}

lemma keepBooks_append (calls more : List (Call L r)) :
    a.keepBooks b (calls ++ more) = (a.call calls).keepBooks (a.keepBooks b calls) more := by
  induction calls generalizing a b with
  | nil => rfl
  | cons c calls ih => exact ih

lemma eq_of_removeState_error {s : StateId} {cause : Error} {a' : Automaton L r I O}
    (h : removeState s a = .error cause a') : a' = a := by
  unfold removeState at h
  split at h
  · cases h
    rfl
  · split at h
    · cases h
      rfl
    · -- a state with arcs led into it; otherwise there is no refusal
      split at h <;> cases h
      rfl

/-! ### What is kept -/

/-- The books of both arenas are right. -/
structure Logged (a : Automaton L r I O) (b : Books) : Prop where
  states : a.states.Logged b.states
  transitions : a.transitions.Logged b.transitions

omit [LabelOver L I O] in
lemma logged_new : (new : Automaton L r I O).Logged .opening where
  states := .insert .empty _
  transitions := .empty

namespace Logged

/-- The removal of a state, once the state itself is gone: its transitions are removed one after the
other, each from its own slot. -/
lemma foldl_drop {s : StateId} {own : List (Transition L r)} (h : a.Logged b)
    (hleaving : Leaving a s ts) (hown : ts.filter (·.source = s) = own)
    (hbound : (b.transitions.strike (own.map Transition.id)).Bounded) :
    ((slotsOf own).foldl (drop s) a).Logged
      { b with transitions := b.transitions.strike (own.map Transition.id) } := by
  induction own generalizing a b ts with
  | nil =>
    rw [List.map_nil, Ledger.strike_nil]
    exact h
  | cons t own ih =>
    obtain ⟨ht, hsource, hrest⟩ := hleaving.own_without hown
    have hlive : a.transitions.contains t.id :=
      -- the first transition is struck on its own, so that the bound on frees covers it as well
      Option.isSome_iff_exists.2 ⟨t, (hleaving.inForce t.id t).2 ⟨ht, rfl⟩⟩
    have hsplit : b.transitions.strike ((t :: own).map Transition.id) =
        (b.transitions.strike [t.id]).strike (own.map Transition.id) :=
      Ledger.strike_append [t.id] _
    rw [hsplit] at hbound ⊢
    have hfirst := h.transitions.vacate hlive (hbound.of_earlier (List.prefix_append ..))
    refine ih (b := { b with transitions := b.transitions.strike [t.id] }) ?_
      (hleaving.drop ht hsource) hrest hbound
    rw [hleaving.drop_eq ht]
    refine ⟨?_, hfirst⟩
    simp only
    split
    · exact h.states
    · exact h.states.update _ _

lemma link (h : a.Logged b) (source target : StateId) (label : L) (weight : Weight r) :
    (a.link source target label weight).Logged
      { b with transitions := b.transitions.issue a.nextTransition } :=
  ⟨h.states.update_ends _ _ _ _ _, h.transitions.insert _⟩

lemma unlink (h : a.Logged b) {t : Transition L r} (ht : a.transitions.contains t.id)
    (hbound : (b.transitions.strike [t.id]).Bounded) :
    (a.unlink t).Logged { b with transitions := b.transitions.strike [t.id] } :=
  ⟨h.states.update_ends _ _ _ _ _, h.transitions.vacate ht hbound⟩

lemma setFinal (h : a.Logged b) (s : StateId) (isFinal : Bool) :
    (a.after (Automaton.setFinal s isFinal)).Logged b := by
  unfold after Automaton.setFinal
  split
  next c hok =>
    split at hok <;> cases hok
    exact ⟨h.states.update _ _, h.transitions⟩
  next c herror =>
    split at herror <;> cases herror
    exact h

lemma removeState (h : a.Logged b) (hts : Consistent a ts) {s : StateId} {a' : Automaton L r I O}
    (hs : Automaton.removeState s a = .ok () a') (hstates : (b.states.strike [s]).Bounded)
    (htransitions :
      (b.transitions.strike ((a.transitionsFrom s).toList.map Transition.id)).Bounded) :
    a'.Logged {
      states := b.states.strike [s]
      transitions := b.transitions.strike ((a.transitionsFrom s).toList.map Transition.id) } := by
  obtain ⟨d, hd, hstart, -, rfl⟩ := hts.eq_foldl_drop hs
  have hlive : a.contains s := Option.isSome_iff_exists.2 ⟨d, hd⟩
  rw [hts.toList_transitionsFrom hlive] at htransitions ⊢
  have hleft : Logged { a with states := a.states.vacate s.index }
      { b with states := b.states.strike [s] } := ⟨h.states.vacate hlive hstates, h.transitions⟩
  exact hleft.foldl_drop (hts.vacate hlive hstart) rfl htransitions

/-- **A call leaves the books right.** -/
lemma enter (h : a.Logged b) (hts : Consistent a ts) (c : Call L r)
    (hbound : (c.enter a b).Bounded) : (a.after c.edit).Logged (c.enter a b) := by
  cases c with
  -- a new state or transition is entered whether or not its slot was used before
  | addState isFinal => exact ⟨h.states.insert _, h.transitions⟩
  | setFinal s isFinal => exact h.setFinal s isFinal
  | addTransition source target label weight =>
    by_cases hlive : a.contains source ∧ a.contains target
    · rw [after_addTransition hlive.1 hlive.2]
      simp only [Call.enter, addTransition_of_contains hlive.1 hlive.2]
      exact h.link source target label weight
    · obtain ⟨cause, herror⟩ := addTransition_of_not_contains hlive label weight
      simp only [Call.enter, Call.edit, Edit.after_discard]
      simp only [after, herror]
      exact h
  | removeTransition i =>
    simp only [Call.enter, Call.edit, Edit.after_discard] at hbound ⊢
    cases ht : a.transition? i with
    | none =>
      simp only [after, removeTransition, ht]
      exact h
    | some t =>
      obtain ⟨-, rfl⟩ := (hts.inForce i t).1 ht
      simp only [after, removeTransition, ht] at hbound ⊢
      exact h.unlink (Option.isSome_iff_exists.2 ⟨t, ht⟩) hbound.2
  | removeState s =>
    simp only [Call.enter, Call.edit, after] at hbound ⊢
    cases hs : Automaton.removeState s a with
    | ok u a' =>
      simp only [hs] at hbound ⊢
      exact h.removeState hts hs hbound.1 hbound.2
    | error cause a' =>
      simp only
      rw [eq_of_removeState_error hs]
      exact h

/-- **A run of calls leaves the books right.** -/
lemma keepBooks (h : a.Logged b) (hts : Consistent a ts) (calls : List (Call L r))
    (hbound : (a.keepBooks b calls).Bounded) : (a.call calls).Logged (a.keepBooks b calls) := by
  induction calls generalizing a b ts with
  | nil => exact h
  | cons c calls ih =>
    have hfirst : (c.enter a b).Bounded := hbound.of_carriedOn (Books.carriedOn_keepBooks _ _)
    exact ih (h.enter hts c hfirst) (hts.note c) hbound

end Logged

/-! ### Runs of operations -/

/-- The operations of a run make these calls, one operation after the other. -/
inductive Performs : Automaton L r I O → List (Operation L r) → List (Call L r) → Prop
  | nil (a : Automaton L r I O) : Performs a [] []
  | cons {a : Automaton L r I O} {o : Operation L r} {ops : List (Operation L r)}
      {calls more : List (Call L r)} (first : o.Makes a calls)
      (rest : Performs (a.after o.edit) ops more) : Performs a (o :: ops) (calls ++ more)

lemma exists_performs (a : Automaton L r I O) (ops : List (Operation L r)) :
    ∃ calls, a.Performs ops calls := by
  induction ops generalizing a with
  | nil => exact ⟨[], .nil a⟩
  | cons o ops ih =>
    obtain ⟨calls, hcalls⟩ := exists_makes o a
    obtain ⟨more, hmore⟩ := ih (a.after o.edit)
    exact ⟨calls ++ more, .cons hcalls hmore⟩

lemma Performs.call_eq {ops : List (Operation L r)} {calls : List (Call L r)}
    (h : a.Performs ops calls) : a.call calls = ops.foldl (fun a o => a.after o.edit) a := by
  induction h with
  | nil => rfl
  | cons hfirst _ ih => rw [call_append, ← hfirst.1, ih, List.foldl_cons]

lemma Performs.calls_append {ops : List (Operation L r)} {more : List (Call L r)}
    (calls : List (Call L r)) (h : (a.call calls).Performs ops more) :
    a.Performs (calls.map .call ++ ops) (calls ++ more) := by
  induction calls generalizing a with
  | nil => exact h
  | cons c calls ih =>
    have hfirst : (Operation.call c).Makes a [c] := ⟨rfl, rfl⟩
    exact (Performs.cons hfirst (ih h) : a.Performs _ ([c] ++ (calls ++ more)))

/-- **Handles are never confused.** Whatever calls a run of operations comes down to, after each of
them the books are right, as long as no slot is vacated too often: no handle is issued twice, a
handle is in force exactly from its issue until its removal, the counts are the numbers of handles
issued and not removed, and the slots of the next handles are empty. -/
theorem handles_never_confused (ops : List (Operation L r)) :
    (∃ calls, new.Performs ops calls) ∧
      ∀ calls, new.Performs ops calls → (books calls).Bounded →
        new.call calls = reach ops ∧
          ∀ before, before <+: calls →
            (new.call before).Logged (books before) ∧
              (new.call before).states.at? (new.call before).nextState.index = none ∧
              (new.call before).transitions.at? (new.call before).nextTransition.index = none := by
  refine ⟨exists_performs new ops, fun calls hcalls hbound => ⟨hcalls.call_eq, ?_⟩⟩
  rintro before ⟨rest, rfl⟩
  -- books only grow, so the bound on frees of the whole run bounds those of every prefix
  have hbefore : (books before).Bounded := by
    refine hbound.of_carriedOn ?_
    unfold books
    rw [keepBooks_append]
    exact Books.carriedOn_keepBooks _ _
  have hlogged : (new.call before).Logged (books before) :=
    logged_new.keepBooks consistent_new before hbefore
  exact ⟨hlogged, Arena.at?_next hlogged.states.tidy, Arena.at?_next hlogged.transitions.tidy⟩

lemma makes_closure_empty (a : Automaton L r I O) (again leave : Weight r) :
    (Operation.closure .empty again leave).Makes a [.addState false] := by
  refine ⟨?_, by simp [Call.Adds]⟩
  simp [Operation.edit, Fragment.closure, Fragment.closeOn, Fragment.closePassages,
    Fragment.closeEntries, Fragment.closeExits, Fragment.empty, Fragment.scale, after, call,
    Call.edit]
  rfl

/-- A state and its transition are removed and their slots are used again. -/
def reusing : List (Call Letter .probability) :=
  [.addState true,
    .addTransition ⟨1, 0⟩ ⟨0, 0⟩ .epsilon 1,
    .removeState ⟨1, 0⟩,
    .addState false,
    .addTransition ⟨0, 0⟩ ⟨1, 1⟩ .epsilon 1]

/-- A splice after the calls adds one more state. -/
theorem handles_never_confused_reusing :
    let b : Books := {
      states := ⟨[⟨0, 0⟩, ⟨1, 0⟩, ⟨1, 1⟩, ⟨2, 0⟩], [⟨1, 0⟩]⟩
      transitions := ⟨[⟨0, 0⟩, ⟨0, 1⟩], [⟨0, 0⟩]⟩ }
    let a : Automaton Letter .probability := reach (reusing.map .call ++ [.closure .empty 1 1])
    a.Logged b ∧ a.contains ⟨1, 1⟩ ∧ ¬ a.contains ⟨1, 0⟩ ∧ a.stateCount = 3 ∧
      a.transitionCount = 1 := by
  intro b a
  have hperforms : new.Performs (reusing.map .call ++ [.closure .empty 1 1])
      (reusing ++ [.addState false]) :=
    .calls_append reusing (.cons (makes_closure_empty _ 1 1) (.nil _))
  have hbooks : books (reusing ++ [.addState false]) = b := by decide +kernel
  have hbounded : b.Bounded :=
    ⟨fun i => Nat.lt_of_le_of_lt List.countP_le_length (by decide),
      fun i => Nat.lt_of_le_of_lt List.countP_le_length (by decide)⟩
  obtain ⟨hreach, hprefixes⟩ := (handles_never_confused _).2 _ hperforms (hbooks ▸ hbounded)
  obtain ⟨hlogged, -, -⟩ := hprefixes _ (List.prefix_refl _)
  rw [hbooks, hreach] at hlogged
  exact ⟨hlogged, (hlogged.states.contains _).2 (by decide),
    fun hc => absurd ((hlogged.states.contains _).1 hc) (by decide), hlogged.states.size,
    hlogged.transitions.size⟩

end Automaton

end WeightedAutomata
