import WeightedAutomata.Proofs.Automaton.Agreement

/-!
The ends of transitions, and the removal of states.

No transition dangles, and a state knows exactly how many transitions of other states lead to it.
So a state can be removed exactly when it is not the start and nothing else leads to it, and its
removal takes its own transitions along and nothing else.
-/

namespace WeightedAutomata

variable {L I O : Type} {r : Range} [LabelOver L I O] [Alphabet I] [Alphabet O]

namespace Automaton

def arcCount (a : Automaton L r I O) (s u : StateId) : Nat :=
  (a.transitionsFrom s).toList.countP (·.target = u)

/-- `b` is `a` without the state `s` and its transitions. -/
structure Without (a : Automaton L r I O) (s : StateId) (b : Automaton L r I O) : Prop where
  /-- The record of each other state loses the transitions from `s` in its count, and nothing. -/
  state : ∀ u, b.states.get? u =
    if u = s then none
    else (a.states.get? u).map fun d => { d with incoming := d.incoming - a.arcCount s u }
  incoming : ∀ u, u ≠ s → a.incoming? u = (b.incoming? u).map (· + a.arcCount s u)
  transition : ∀ i, b.transition? i = (a.transition? i).filter (·.source ≠ s)
  outgoing : ∀ u, u ≠ s → (b.transitionsFrom u).toList = (a.transitionsFrom u).toList

variable {a : Automaton L r I O} {ts : List (Transition L r)}

namespace Consistent

lemma incoming?_eq (h : Consistent a ts) {s : StateId} (hs : a.contains s) :
    a.incoming? s = some (a.allTransitions.countP fun t => t.target = s ∧ t.source ≠ s) := by
  obtain ⟨d, hd⟩ := Option.isSome_iff_exists.1 hs
  have hcount : d.incoming = entering ts s := (h.files s d hd).incoming
  rw [h.perm_allTransitions.countP_eq, List.countP_eq_length_filter]
  unfold incoming?
  rw [hd, Option.map_some, hcount]
  rfl

lemma incoming_eq_zero_iff (h : Consistent a ts) {s : StateId} {d : StateRecord I O}
    (hd : a.states.get? s = some d) :
    d.incoming = 0 ↔ ∀ t ∈ a.allTransitions, t.target = s → t.source = s := by
  rw [(h.files s d hd).incoming]
  unfold entering
  rw [List.length_eq_zero_iff, List.filter_eq_nil_iff]
  have hmem : ∀ t, t ∈ a.allTransitions ↔ t ∈ ts := fun t => h.perm_allTransitions.mem_iff
  simp [hmem]

lemma removeState_ok_iff (h : Consistent a ts) (s : StateId) :
    (∃ b, removeState s a = .ok () b) ↔
      a.contains s ∧ s ≠ a.start ∧ ∀ t ∈ a.allTransitions, t.target = s → t.source = s := by
  unfold removeState
  by_cases hstart : s = a.start
  · simp [hstart]
  · rw [if_neg hstart]
    cases hd : a.states.get? s with
    | none => simp [contains, Arena.contains, hd]
    | some d =>
      have hs : a.contains s := Option.isSome_iff_exists.2 ⟨d, hd⟩
      have hzero := h.incoming_eq_zero_iff hd
      by_cases hincoming : 0 < d.incoming
      · have hled : ¬ ∀ t ∈ a.allTransitions, t.target = s → t.source = s :=
          fun hc => hincoming.ne' (hzero.2 hc)
        simp only [if_pos hincoming]
        constructor
        · rintro ⟨b, ⟨⟩⟩
        · exact fun hc => absurd hc.2.2 hled
      · simp only [if_neg hincoming]
        exact ⟨fun _ => ⟨hs, hstart, hzero.1 (Nat.eq_zero_of_not_pos hincoming)⟩,
          fun _ => ⟨_, rfl⟩⟩

lemma eq_foldl_drop (h : Consistent a ts) {s : StateId} {b : Automaton L r I O}
    (hb : removeState s a = .ok () b) : ∃ d, a.states.get? s = some d ∧ s ≠ a.start ∧
      d.incoming = 0 ∧
      b = (slotsOf (ts.filter (·.source = s))).foldl (drop s)
        { a with states := a.states.vacate s.index } := by
  unfold removeState at hb
  by_cases hstart : s = a.start
  · rw [if_pos hstart] at hb
    cases hb
  · rw [if_neg hstart] at hb
    cases hd : a.states.get? s with
    | none =>
      rw [hd] at hb
      cases hb
    | some d =>
      simp only [hd] at hb
      by_cases hincoming : 0 < d.incoming
      · rw [if_pos hincoming] at hb
        cases hb
      · rw [if_neg hincoming, ← Array.foldl_toList, (h.files s d hd).outgoing] at hb
        cases hb
        exact ⟨d, rfl, hstart, Nat.eq_zero_of_not_pos hincoming, rfl⟩

lemma arcCount_le (h : Consistent a ts) {s u : StateId} (hs : a.contains s) (hu : u ≠ s)
    {d : StateRecord I O} (hd : a.states.get? u = some d) : a.arcCount s u ≤ d.incoming := by
  rw [(h.files u d hd).incoming]
  unfold arcCount entering
  rw [h.toList_transitionsFrom hs, List.countP_filter, ← List.countP_eq_length_filter]
  refine List.countP_mono_left fun t _ ht => ?_
  simp only [Bool.and_eq_true, decide_eq_true_eq] at ht ⊢
  exact ⟨ht.1, fun hc => hu (hc.symm.trans ht.2)⟩

lemma without_of_removeState (h : Consistent a ts) {s : StateId} {b : Automaton L r I O}
    (hb : removeState s a = .ok () b) : Without a s b := by
  obtain ⟨d, hd, hstart, hincoming, rfl⟩ := h.eq_foldl_drop hb
  have hs : a.contains s := Option.isSome_iff_exists.2 ⟨d, hd⟩
  have hleaving := h.vacate hs hstart
  have hleft := hleaving.foldl_drop rfl
  have hrest : Consistent _ _ := h.remove hd hstart hincoming
  rw [← Array.foldl_toList, (h.files s d hd).outgoing] at hrest
  set b := (slotsOf (ts.filter (·.source = s))).foldl (drop s)
    { a with states := a.states.vacate s.index }
  -- what a removal does to the other states: their counters lose the arcs from `s`
  have hstate : ∀ u, b.states.get? u = if u = s then none
      else (a.states.get? u).map fun d => { d with incoming := d.incoming - a.arcCount s u } := by
    intro u
    by_cases hu : u = s
    · rw [if_pos hu, hu]
      exact Option.not_isSome_iff_eq_none.1 hleft.left
    · rw [if_neg hu, hleaving.get?_foldl_drop rfl hu, Arena.get?_vacate_of_contains hs, if_neg hu]
      unfold arcCount
      rw [h.toList_transitionsFrom hs]
  refine { state := hstate, incoming := ?_, transition := ?_, outgoing := ?_ }
  · intro u hu
    unfold incoming?
    rw [hstate, if_neg hu, Option.map_map, Option.map_map]
    refine Option.map_congr fun d hd => ?_
    exact (Nat.sub_add_cancel (h.arcCount_le hs hu hd)).symm
  · intro i
    refine Option.ext fun t => ?_
    rw [hleft.inForce i t, Option.filter_eq_some_iff, h.inForce i t,
      List.mem_filter]
    tauto
  · intro u hu
    cases hd : a.states.get? u with
    | none =>
      have hnone : b.states.get? u = none := by rw [hstate, hd, if_neg hu, Option.map_none]
      simp only [transitionsFrom, hd, hnone]
    | some d =>
      have hau : a.contains u := Option.isSome_iff_exists.2 ⟨d, hd⟩
      have hbu : b.contains u := by
        unfold contains Arena.contains
        rw [hstate, hd, if_neg hu]
        rfl
      rw [hrest.toList_transitionsFrom hbu, h.toList_transitionsFrom hau, List.filter_filter]
      refine List.filter_congr fun t _ => ?_
      by_cases ht : t.source = u
      · simp [ht, hu]
      · simp [ht]

end Consistent

/-- **No transition dangles, every in-degree is exact, and removal is exact**, whatever operations
the automaton comes from. -/
theorem ends_and_removal_exact (ops : List (Operation L r)) (s : StateId) :
    (reach ops).contains (reach ops).start ∧
      (∀ t ∈ (reach ops).allTransitions,
        (reach ops).contains t.source ∧ (reach ops).contains t.target) ∧
      ((reach ops).contains s → (reach ops).incoming? s =
        some ((reach ops).allTransitions.countP fun t => t.target = s ∧ t.source ≠ s)) ∧
      ((∃ b, removeState s (reach ops) = .ok () b) ↔
        (reach ops).contains s ∧ s ≠ (reach ops).start ∧
          ∀ t ∈ (reach ops).allTransitions, t.target = s → t.source = s) ∧
      ∀ b, removeState s (reach ops) = .ok () b → Without (reach ops) s b := by
  obtain ⟨ts, h⟩ := consistent_reach ops
  have hmem : ∀ t ∈ (reach ops).allTransitions, t ∈ ts :=
    fun t ht => h.perm_allTransitions.mem_iff.1 ht
  exact ⟨h.start, fun t ht => ⟨h.source t (hmem t ht), h.target t (hmem t ht)⟩, h.incoming?_eq,
    h.removeState_ok_iff s, fun _ => h.without_of_removeState⟩

/-- A state with a loop and two parallel transitions to the start, and a failed removal. -/
def loneState : List (Operation Letter .probability) :=
  [.call (.addState true),
    .call (.addTransition ⟨1, 0⟩ ⟨1, 0⟩ .epsilon 1),
    .call (.addTransition ⟨1, 0⟩ ⟨0, 0⟩ (.concrete "a") 1),
    .call (.addTransition ⟨1, 0⟩ ⟨0, 0⟩ (.concrete "a") 0),
    .call (.removeState ⟨1, 7⟩)]

theorem ends_and_removal_exact_lone_state :
    (reach loneState).contains ⟨1, 0⟩ ∧ (reach loneState).incoming? ⟨0, 0⟩ = some 2 ∧
      ∃ b, removeState ⟨1, 0⟩ (reach loneState) = .ok () b ∧
        Without (reach loneState) ⟨1, 0⟩ b := by
  have hs : (reach loneState).contains ⟨1, 0⟩ := by decide
  have hcount := (ends_and_removal_exact loneState ⟨0, 0⟩).2.2.1 (by decide)
  have hremoval := (ends_and_removal_exact loneState ⟨1, 0⟩).2.2.2
  obtain ⟨b, hb⟩ := hremoval.1.2 ⟨hs, by decide, by decide⟩
  exact ⟨hs, hcount.trans (by decide), b, hb, hremoval.2 b hb⟩

end Automaton

end WeightedAutomata
