import WeightedAutomata.Proofs.Automaton.Consistency

/-!
The removal of a state, step by step.

While a state is being removed its transitions have no source for a moment. `Leaving` is what holds
even then: the state goes first, then its transitions one after the other, and when all of them are
gone the automaton is consistent again.
-/

namespace WeightedAutomata.Automaton

variable {L I O : Type} {r : Range} [LabelOver L I O] [Alphabet I] [Alphabet O]
  {a : Automaton L r I O} {ts : List (Transition L r)}

/-- The records are right, and what is left without an end belonged to the state that leaves. -/
structure Leaving (a : Automaton L r I O) (s : StateId) (ts : List (Transition L r)) : Prop
    extends Records a ts where
  left : ¬ a.contains s
  start : a.contains a.start
  source : ∀ t ∈ ts, t.source ≠ s → a.contains t.source
  target : ∀ t ∈ ts, t.target ≠ s → a.contains t.target

lemma Consistent.vacate (h : Consistent a ts) {s : StateId} (hs : a.contains s)
    (hstart : s ≠ a.start) : Leaving { a with states := a.states.vacate s.index } s ts := by
  have hget := Arena.get?_vacate_of_contains hs
  have hcontains : ∀ u, u ≠ s → a.contains u → (a.states.vacate s.index).contains u := by
    intro u hu hc
    unfold Arena.contains
    rw [hget, if_neg hu]
    exact hc
  refine {
    states := Arena.tidy_vacate h.states _
    transitions := h.transitions
    inForce := h.inForce
    slots := h.slots
    files := fun u d hd => ?_
    left := ?_
    start := hcontains _ hstart.symm h.start
    source := fun t ht hne => hcontains _ hne (h.source t ht)
    target := fun t ht hne => hcontains _ hne (h.target t ht) }
  · rw [hget] at hd
    split at hd
    next => cases hd
    next => exact h.files u d hd
  · unfold contains Arena.contains
    rw [hget, if_pos rfl]
    simp

namespace Leaving

variable {s : StateId} {t : Transition L r}

lemma drop_eq (h : Leaving a s ts) (ht : t ∈ ts) : a.drop s t.id.index =
    { transitions := a.transitions.vacate t.id.index
      states := if t.target = s then a.states else a.states.update t.target.index .leave } := by
  unfold Automaton.drop
  rw [h.at?_eq ht]

lemma get?_drop (h : Leaving a s ts) (ht : t ∈ ts) {u : StateId} (hu : u ≠ s) :
    (a.drop s t.id.index).states.get? u =
      if t.target = u then (a.states.get? u).map .leave else a.states.get? u := by
  rw [h.drop_eq ht]
  by_cases hloop : t.target = s
  · have hne : t.target ≠ u := fun hc => hu (hc.symm.trans hloop)
    rw [if_neg hne]
    simp only [if_pos hloop]
  · simp only [if_neg hloop, Arena.get?_update_of_contains (h.target t ht hloop)]
    simp only [eq_comm]

lemma drop (h : Leaving a s ts) (ht : t ∈ ts) (hs : t.source = s) :
    Leaving (a.drop s t.id.index) s (without ts t) := by
  have hcontains : ∀ u, (a.drop s t.id.index).contains u = a.contains u := by
    intro u
    rw [contains_eq, finality?_drop, ← contains_eq]
  refine {
    states := ?states
    transitions := by rw [h.drop_eq ht]; exact Arena.tidy_vacate h.transitions _
    inForce := by rw [h.drop_eq ht]; exact h.get?_vacate ht
    slots := h.nodup_slotsOf_filter _
    files := ?files
    left := by rw [hcontains]; exact h.left
    start := (hcontains _).trans h.start
    source := fun u hu hne => (hcontains _).trans (h.source u (mem_without.1 hu).1 hne)
    target := fun u hu hne => (hcontains _).trans (h.target u (mem_without.1 hu).1 hne) }
  case states =>
    rw [h.drop_eq ht]
    simp only
    split
    · exact h.states
    · exact Arena.tidy_update h.states _ _
  case files =>
    intro u d hd
    have hu : u ≠ s := by
      rintro rfl
      have hc : (a.drop u t.id.index).contains u := Option.isSome_iff_exists.2 ⟨d, hd⟩
      exact h.left ((hcontains u).symm.trans hc)
    have hother : t.source ≠ u := fun hc => hu (hc.symm.trans hs)
    rw [h.get?_drop ht hu] at hd
    rw [h.filter_without_of_ne ht hother, entering_without h.slots ht]
    by_cases htarget : t.target = u
    · rw [if_pos htarget] at hd
      obtain ⟨d, hd', rfl⟩ := Option.map_eq_some_iff.1 hd
      rw [if_pos ⟨htarget, hother⟩]
      exact (h.files u d hd').leave
    · rw [if_neg htarget] at hd
      rw [if_neg fun hc => htarget hc.1]
      exact h.files u d hd

/-- The transitions that are still to be dropped once the first of them has been. -/
lemma own_without {own : List (Transition L r)} (h : Leaving a s ts)
    (hown : ts.filter (·.source = s) = t :: own) :
    t ∈ ts ∧ t.source = s ∧ (without ts t).filter (·.source = s) = own := by
  have hmem : t ∈ ts.filter (·.source = s) := hown ▸ List.mem_cons_self
  obtain ⟨ht, hs⟩ := List.mem_filter.1 hmem
  have hnd := h.nodup_slotsOf_filter (·.source = s)
  rw [hown] at hnd
  -- slots are distinct, so `t` is not met again among the rest
  have hfresh := (List.nodup_cons.1 hnd).1
  have hkeep : without own t = own := without_eq_self fun u hu hid =>
    hfresh (List.mem_map.2 ⟨u, hu, by rw [hid]⟩)
  refine ⟨ht, of_decide_eq_true hs, ?_⟩
  rw [filter_without, hown, without, List.filter_cons_of_neg (by simp), ← without, hkeep]

lemma foldl_drop {own : List (Transition L r)} (h : Leaving a s ts)
    (hown : ts.filter (·.source = s) = own) :
    Leaving ((slotsOf own).foldl (Automaton.drop s) a) s (ts.filter (·.source ≠ s)) := by
  -- one transition at a time; those of the other states are kept throughout
  induction own generalizing a ts with
  | nil =>
    have hall : ts.filter (·.source ≠ s) = ts := by
      rw [List.filter_eq_self]
      intro t ht
      have hne := List.filter_eq_nil_iff.1 hown t ht
      simpa using hne
    rw [hall]
    exact h
  | cons t own ih =>
    obtain ⟨ht, hsource, hrest⟩ := h.own_without hown
    have hothers : (without ts t).filter (·.source ≠ s) = ts.filter (·.source ≠ s) := by
      rw [filter_without]
      refine without_eq_self fun u hu hid => ?_
      obtain ⟨hu, hne⟩ := List.mem_filter.1 hu
      have heq : u = t := h.eq_of_index_eq hu ht (by rw [hid])
      exact of_decide_eq_true hne (heq ▸ hsource)
    have hstep := ih (h.drop ht hsource) hrest
    rw [hothers] at hstep
    exact hstep

lemma get?_foldl_drop {own : List (Transition L r)} (h : Leaving a s ts)
    (hown : ts.filter (·.source = s) = own) {u : StateId} (hu : u ≠ s) :
    ((slotsOf own).foldl (Automaton.drop s) a).states.get? u = (a.states.get? u).map fun d =>
      { d with incoming := d.incoming - own.countP (·.target = u) } := by
  induction own generalizing a ts with
  | nil => simp [slotsOf]
  | cons t own ih =>
    obtain ⟨ht, hsource, hrest⟩ := h.own_without hown
    have hstep := ih (h.drop ht hsource) hrest
    rw [h.get?_drop ht hu] at hstep
    change (((slotsOf own).foldl (Automaton.drop s) (a.drop s t.id.index)).states.get? u) = _
    rw [hstep, List.countP_cons]
    by_cases htarget : t.target = u
    · rw [if_pos htarget, Option.map_map]
      have hless : ∀ n : Nat, n - 1 - own.countP (·.target = u) =
          n - (own.countP (·.target = u) + 1) := fun n => by omega
      simp [Function.comp_def, StateRecord.leave, htarget, hless]
    · simp [htarget]

end Leaving

/-- A state to which no other state leads is removed, together with its transitions. -/
lemma Consistent.remove (h : Consistent a ts) {s : StateId} {d : StateRecord I O}
    (hd : a.states.get? s = some d) (hstart : s ≠ a.start) (hincoming : d.incoming = 0) :
    Consistent (d.outgoing.foldl (drop s) { a with states := a.states.vacate s.index })
      (ts.filter (·.source ≠ s)) := by
  have hs : a.contains s := Option.isSome_iff_exists.2 ⟨d, hd⟩
  -- the counter was zero, so what leads to `s` comes from `s` and goes with it
  have hentering : ∀ t ∈ ts, t.target = s → t.source = s := by
    have hnone := (h.files s d hd).incoming.symm.trans hincoming
    unfold entering at hnone
    rw [List.length_eq_zero_iff, List.filter_eq_nil_iff] at hnone
    intro t ht htarget
    by_contra hne
    exact hnone t ht (by simp [htarget, hne])
  have hleft := (h.vacate hs hstart).foldl_drop rfl
  rw [← Array.foldl_toList, (h.files s d hd).outgoing]
  exact {
    hleft with
    source := fun t ht => by
      obtain ⟨_, hne⟩ := List.mem_filter.1 ht
      exact hleft.source t ht (of_decide_eq_true hne)
    target := fun t ht => by
      obtain ⟨hmem, hne⟩ := List.mem_filter.1 ht
      exact hleft.target t ht fun hc => of_decide_eq_true hne (hentering t hmem hc) }

end WeightedAutomata.Automaton
