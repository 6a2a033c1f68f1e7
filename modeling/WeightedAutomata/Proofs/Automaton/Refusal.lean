import WeightedAutomata.Automaton.Stepwise
import WeightedAutomata.Proofs.Automaton.Removal

/-!
When calls are refused, and that a refused call changes nothing.

A call that writes step by step could fail between two writes and leave half of its work behind. It
never does: in an automaton that operations lead to, both ends of every transition are in force, so
whatever a call looks up after its first write is there. What can fail is told from the handles of
the call before anything is written.
-/

namespace WeightedAutomata

open Automaton

variable {L I O : Type} {r : Range} [LabelOver L I O] [Alphabet I] [Alphabet O]

/-- The same call, made one write after the other. -/
def Call.stepwise : Call L r → Edit L r Unit
  | addState isFinal => discard (Automaton.addState isFinal)
  | setFinal s isFinal => Stepwise.write s fun d => { d with isFinal }
  | addTransition source target label weight =>
    discard (Stepwise.addTransition source target label weight)
  | removeTransition t => discard (Stepwise.removeTransition t)
  | removeState s => Stepwise.removeState s

namespace Automaton

/-- The calls that an automaton refuses, each with the cause that it gives. -/
inductive Refuses (a : Automaton L r I O) : Call L r → Error → Prop
  | setFinal {s : StateId} {isFinal : Bool} (hs : ¬ a.contains s) :
      Refuses a (.setFinal s isFinal) (.unknownState s)
  | source {source target : StateId} {label : L} {weight : Weight r}
      (hs : ¬ a.contains source) :
      Refuses a (.addTransition source target label weight) (.unknownState source)
  | target {source target : StateId} {label : L} {weight : Weight r}
      (hs : a.contains source) (ht : ¬ a.contains target) :
      Refuses a (.addTransition source target label weight) (.unknownState target)
  | transition {t : TransitionId} (ht : a.transition? t = none) :
      Refuses a (.removeTransition t) (.unknownTransition t)
  | start : Refuses a (.removeState a.start) .startStateRemoval
  | state {s : StateId} (hstart : s ≠ a.start) (hs : ¬ a.contains s) :
      Refuses a (.removeState s) (.unknownState s)
  /-- The cause says how many transitions of other states lead to the state. -/
  | incoming {s : StateId} {n : Nat} (hstart : s ≠ a.start) (hs : a.contains s)
      (hn : n = a.allTransitions.countP fun t => t.target = s ∧ t.source ≠ s) (hpos : 0 < n) :
      Refuses a (.removeState s) (.stateHasIncoming s n)

end Automaton

/-! ### Calls are refused before anything is written -/

namespace Edit

variable {α β : Type} {a b : Automaton L r I O}

lemma modify_bind (g : Automaton L r I O → Automaton L r I O) (f : PUnit → Edit L r β) :
    (modify g >>= f) a = f ⟨⟩ (g a) := rfl

lemma tryCatch_ok {m : Edit L r α} {x : α} (h : m a = .ok x b)
    (f : Error → Edit L r α) : tryCatch m f a = .ok x b := by
  simp only [tryCatch, tryCatchThe, MonadExceptOf.tryCatch, EStateM.tryCatch, h]

lemma discard_congr {m n : Edit L r α} (h : m a = n a) : discard m a = discard n a := by
  simp only [discard, Functor.discard, Functor.mapConst, EStateM.map, Function.comp_apply, h]

end Edit

namespace Automaton.Consistent

variable {a b : Automaton L r I O} {ts : List (Transition L r)} {cause : Error}

lemma removeState_error_iff (h : Consistent a ts) (s : StateId) :
    removeState s a = .error cause b ↔ b = a ∧ a.Refuses (.removeState s) cause := by
  unfold removeState
  by_cases hstart : s = a.start
  · rw [if_pos hstart]
    constructor
    · rintro ⟨⟩
      exact ⟨rfl, hstart ▸ .start⟩
    · rintro ⟨rfl, hrefused⟩
      cases hrefused with
      | start => rfl
      | state hne | incoming hne => exact absurd hstart hne
  · rw [if_neg hstart]
    cases hd : a.states.get? s with
    | none =>
      have hs : ¬ a.contains s := by simp [contains, Arena.contains, hd]
      constructor
      · rintro ⟨⟩
        exact ⟨rfl, .state hstart hs⟩
      · rintro ⟨rfl, hrefused⟩
        cases hrefused with
        | start => exact absurd rfl hstart
        | state => rfl
        | incoming _ hs' => exact absurd hs' hs
    | some d =>
      have hs : a.contains s := Option.isSome_iff_exists.2 ⟨d, hd⟩
      -- the counter that the code reads is the number of arcs led into `s`
      have hcount := h.incoming?_eq hs
      unfold incoming? at hcount
      rw [hd, Option.map_some, Option.some_inj] at hcount
      by_cases hincoming : 0 < d.incoming
      · simp only [if_pos hincoming]
        constructor
        · rintro ⟨⟩
          exact ⟨rfl, .incoming hstart hs hcount hincoming⟩
        · rintro ⟨rfl, hrefused⟩
          cases hrefused with
          | start => exact absurd rfl hstart
          | state _ hs' => exact absurd hs hs'
          | incoming _ _ hn => rw [hn, ← hcount]
      · simp only [if_neg hincoming]
        constructor
        · rintro ⟨⟩
        · rintro ⟨rfl, hrefused⟩
          cases hrefused with
          | start => exact absurd rfl hstart
          | state _ hs' => exact absurd hs hs'
          | incoming _ _ hn hpos => exact absurd (hcount.trans hn.symm ▸ hpos) hincoming

/-- **A call is refused for one of the causes, and then nothing has changed.** -/
lemma edit_error_iff (h : Consistent a ts) (c : Call L r) :
    c.edit a = .error cause b ↔ b = a ∧ a.Refuses c cause := by
  cases c with
  | addState isFinal =>
    rw [Call.edit, Edit.discard_error_iff]
    constructor
    · rintro ⟨⟩
    · rintro ⟨-, ⟨⟩⟩
  | setFinal s isFinal =>
    unfold Call.edit Automaton.setFinal
    by_cases hs : a.contains s
    · simp only [if_pos hs]
      constructor
      · rintro ⟨⟩
      · rintro ⟨-, ⟨hs'⟩⟩
        exact absurd hs hs'
    · simp only [if_neg hs]
      constructor
      · rintro ⟨⟩
        exact ⟨rfl, .setFinal hs⟩
      · rintro ⟨rfl, ⟨-⟩⟩
        rfl
  | addTransition source target label weight =>
    rw [Call.edit, Edit.discard_error_iff]
    unfold Automaton.addTransition
    by_cases hs : a.contains source
    · by_cases ht : a.contains target
      · simp only [hs, ht]
        constructor
        · rintro ⟨⟩
        · rintro ⟨-, hrefused⟩
          cases hrefused with
          | source hs' => exact absurd hs hs'
          | target _ ht' => exact absurd ht ht'
      · simp only [hs, ht]
        constructor
        · rintro ⟨⟩
          exact ⟨rfl, .target hs ht⟩
        · rintro ⟨rfl, hrefused⟩
          cases hrefused with
          | source hs' => exact absurd hs hs'
          | target => rfl
    · -- the source is looked for first, so a missing target does not show
      simp only [hs]
      constructor
      · rintro ⟨⟩
        exact ⟨rfl, .source hs⟩
      · rintro ⟨rfl, hrefused⟩
        cases hrefused with
        | source => rfl
        | target hs' => exact absurd hs' hs
  | removeTransition t =>
    rw [Call.edit, Edit.discard_error_iff]
    unfold Automaton.removeTransition
    cases ht : a.transition? t with
    | none =>
      constructor
      · rintro ⟨⟩
        exact ⟨rfl, .transition ht⟩
      · rintro ⟨rfl, ⟨-⟩⟩
        rfl
    | some x =>
      constructor
      · rintro ⟨⟩
      · rintro ⟨-, hrefused⟩
        cases hrefused with
        | transition hnone =>
          rw [hnone] at ht
          cases ht
  | removeState s => exact h.removeState_error_iff s

end Automaton.Consistent

/-! ### Nothing fails between two writes -/

lemma Arena.remove_of_contains {e : Entity} {α : Type} {a : Arena e α} {h : Handle e}
    (hh : a.contains h) : a.remove h = a.vacate h.index := if_pos hh

namespace Stepwise

variable {a : Automaton L r I O}

lemma write_of_contains {s : StateId} (hs : a.contains s) (f : StateRecord I O → StateRecord I O) :
    write s f a = .ok () { a with states := a.states.update s.index f } := if_pos hs

lemma writeEnds_of_contains {source target : StateId} (hs : a.contains source)
    (ht : a.contains target) (f g : StateRecord I O → StateRecord I O) :
    writeEnds source target f g a = .ok ()
      { a with
        states :=
          if target = source then a.states.update source.index f
          else (a.states.update source.index f).update target.index g } := by
  unfold writeEnds
  rw [Edit.bind_ok (write_of_contains hs f)]
  -- a loop writes to its one state only, the other transitions to both ends
  by_cases hloop : target = source
  · rw [if_neg (not_not.2 hloop), if_pos hloop]
    rfl
  · rw [if_pos hloop, if_neg hloop]
    refine write_of_contains ?_ g
    exact (Arena.contains_update a.states _ _ _).trans ht

lemma addTransition_eq (source target : StateId) (label : L) (weight : Weight r) :
    addTransition source target label weight a =
      Automaton.addTransition source target label weight a := by
  unfold addTransition Automaton.addTransition
  rw [Edit.get_bind]
  cases hs : a.contains source with
  | false => rfl
  | true =>
    simp only [Bool.not_true, Bool.false_eq_true, if_false]
    rw [Edit.get_bind]
    cases ht : a.contains target with
    | false => rfl
    | true =>
      set t : Transition L r := ⟨a.nextTransition, source, target, label, weight⟩
      have hends : writeEnds source target (·.file (a.transitions.insert t) t) .enter
          { a with transitions := a.transitions.insert t } =
            .ok () (a.link source target label weight) := by
        refine writeEnds_of_contains ?_ ?_ _ _
        · exact hs
        · exact ht
      exact Edit.bind_ok hends _

/-- Both ends of a transition in force are found after it has been taken out. -/
lemma removeTransition_eq {ts : List (Transition L r)} (h : Consistent a ts) (id : TransitionId) :
    removeTransition id a = Automaton.removeTransition id a := by
  unfold removeTransition Automaton.removeTransition
  rw [Edit.get_bind]
  cases ht : a.transition? id with
  | none => rfl
  | some t =>
    obtain ⟨hmem, rfl⟩ := (h.inForce id t).1 ht
    have hid : a.transitions.contains t.id := Option.isSome_iff_exists.2 ⟨t, ht⟩
    have hends : writeEnds t.source t.target (·.unfile t) .leave
        { a with transitions := a.transitions.remove t.id } = .ok () (a.unlink t) := by
      rw [Arena.remove_of_contains hid]
      refine writeEnds_of_contains ?_ ?_ _ _
      · exact h.source t hmem
      · exact h.target t hmem
    exact Edit.bind_ok hends _

/-- The look-up that a removal would pass over finds its state. -/
lemma drop_eq {ts : List (Transition L r)} {s : StateId} (h : Leaving a s ts)
    {t : Transition L r} (ht : t ∈ ts) :
    drop s t.id.index a = .ok () (a.drop s t.id.index) := by
  have hid : a.transitions.contains t.id :=
    Option.isSome_iff_exists.2 ⟨t, (h.inForce t.id t).2 ⟨ht, rfl⟩⟩
  unfold drop
  rw [Edit.get_bind, h.at?_eq ht, h.drop_eq ht]
  simp only
  rw [Edit.modify_bind, Arena.remove_of_contains hid]
  -- a loop at `s` has nowhere to write, since the state has left
  by_cases hloop : t.target = s
  · rw [if_neg (not_not.2 hloop), if_pos hloop]
    rfl
  · rw [if_pos hloop, if_neg hloop]
    refine Edit.tryCatch_ok ?_ _
    refine write_of_contains ?_ _
    exact h.target t ht hloop

lemma forM_drop_eq {ts : List (Transition L r)} {s : StateId} {slots : Array Nat}
    (h : Leaving a s ts) (hslots : slots.toList = slotsOf (ts.filter (·.source = s))) :
    (slots.forM (drop s) : Edit L r Unit) a = .ok () (slots.foldl (Automaton.drop s) a) := by
  unfold Array.forM
  rw [← Array.foldlM_toList, ← Array.foldl_toList, hslots]
  clear hslots
  -- by the transitions that leave `s`: each is dropped from an automaton that lacks those before it
  generalize hown : ts.filter (·.source = s) = own
  induction own generalizing a ts with
  | nil => rfl
  | cons t own ih =>
    obtain ⟨ht, hsource, hrest⟩ := h.own_without hown
    have hstep : drop s t.id.index a = .ok () (a.drop s t.id.index) := drop_eq h ht
    rw [slotsOf, List.map_cons, List.foldlM_cons, Edit.bind_ok hstep]
    exact ih (h.drop ht hsource) hrest

lemma removeState_eq {ts : List (Transition L r)} (h : Consistent a ts) (s : StateId) :
    removeState s a = Automaton.removeState s a := by
  unfold removeState Automaton.removeState
  rw [Edit.get_bind]
  -- the three refusals are looked for in the same order, and nothing is written before them
  by_cases hstart : s = a.start
  · rw [if_pos hstart, if_pos hstart]
    rfl
  · rw [if_neg hstart, if_neg hstart]
    simp only
    rw [Edit.get_bind]
    cases hd : a.states.get? s with
    | none => rfl
    | some d =>
      have hs : a.contains s := Option.isSome_iff_exists.2 ⟨d, hd⟩
      simp only
      by_cases hincoming : 0 < d.incoming
      · rw [if_pos hincoming, if_pos hincoming]
        rfl
      · rw [if_neg hincoming, if_neg hincoming, Edit.modify_bind, Arena.remove_of_contains hs]
        exact forM_drop_eq (h.vacate hs hstart) (h.files s d hd).outgoing

end Stepwise

namespace Automaton

/-- **Each call does the same whether it is made at once or write by write.** -/
lemma Consistent.stepwise_eq {a : Automaton L r I O} {ts : List (Transition L r)}
    (h : Consistent a ts) (c : Call L r) : c.stepwise a = c.edit a := by
  cases c with
  | addState isFinal => rfl
  | setFinal s isFinal => rfl
  | addTransition source target label weight =>
    exact Edit.discard_congr (Stepwise.addTransition_eq source target label weight)
  | removeTransition t => exact Edit.discard_congr (Stepwise.removeTransition_eq h t)
  | removeState s => exact Stepwise.removeState_eq h s

/-- **Calls are refused for exactly these causes, and a refused call changes nothing**, though it is
made write by write. -/
theorem refusals_exact (ops : List (Operation L r)) (c : Call L r) :
    c.stepwise (reach ops) = c.edit (reach ops) ∧
      ∀ cause b, c.stepwise (reach ops) = .error cause b ↔
        b = reach ops ∧ (reach ops).Refuses c cause := by
  obtain ⟨ts, h⟩ := consistent_reach ops
  refine ⟨h.stepwise_eq c, fun cause b => ?_⟩
  rw [h.stepwise_eq c]
  exact h.edit_error_iff c

end Automaton

end WeightedAutomata
