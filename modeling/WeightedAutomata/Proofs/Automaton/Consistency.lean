import WeightedAutomata.Proofs.Automaton.Filing
import WeightedAutomata.Proofs.Automaton.Finality

/-!
Consistent automata.

An automaton is consistent with a list of transitions when these are the ones in force, in the
order in which they were added, every record has exactly its share of them on file, and both ends
of each are in force. Each edit keeps an automaton consistent, with the list changed accordingly.
-/

namespace WeightedAutomata

variable {L I O : Type} {r : Range} [LabelOver L I O] [Alphabet I] [Alphabet O]

/-- The number of transitions of other states that lead to a state. -/
def entering (ts : List (Transition L r)) (s : StateId) : Nat :=
  (ts.filter fun t => t.target = s ∧ t.source ≠ s).length

lemma entering_snoc (ts : List (Transition L r)) (t : Transition L r) (s : StateId) :
    entering (ts ++ [t]) s =
      if t.target = s ∧ t.source ≠ s then entering ts s + 1 else entering ts s := by
  unfold entering
  rw [filter_snoc]
  split <;> simp

lemma entering_without {ts : List (Transition L r)} {t : Transition L r}
    (hnd : (slotsOf ts).Nodup) (ht : t ∈ ts) (s : StateId) :
    entering (without ts t) s =
      if t.target = s ∧ t.source ≠ s then entering ts s - 1 else entering ts s := by
  have hslots := slotsOf_filter_without (fun u => u.target = s ∧ u.source ≠ s) hnd ht
  have hlength := congrArg List.length hslots
  by_cases h : t.target = s ∧ t.source ≠ s
  · -- `t` led into `s` from elsewhere, so one transition fewer does
    have hmem : t.id.index ∈ slotsOf (ts.filter fun u => u.target = s ∧ u.source ≠ s) :=
      List.mem_map_of_mem (by simpa using ⟨ht, h⟩)
    rw [if_pos h, List.length_erase_of_mem hmem] at hlength
    simpa [entering, slotsOf, h] using hlength
  · rw [if_neg h] at hlength
    simpa [entering, slotsOf, h] using hlength

namespace Automaton

variable {a : Automaton L r I O} {ts : List (Transition L r)}

/-! ### What is kept -/

/-- The transitions in force are `ts`, and the records of the states say so. -/
structure Records (a : Automaton L r I O) (ts : List (Transition L r)) : Prop where
  states : a.states.Tidy
  transitions : a.transitions.Tidy
  inForce : ∀ i t, a.transition? i = some t ↔ t ∈ ts ∧ t.id = i
  slots : (slotsOf ts).Nodup
  files : ∀ s d, a.states.get? s = some d → d.Files (ts.filter (·.source = s)) (entering ts s)

/-- The records are right, and no transition is left without its source or its target. -/
structure Consistent (a : Automaton L r I O) (ts : List (Transition L r)) : Prop
    extends Records a ts where
  start : a.contains a.start
  source : ∀ t ∈ ts, a.contains t.source
  target : ∀ t ∈ ts, a.contains t.target

namespace Records

variable {t : Transition L r}

lemma at?_eq (h : Records a ts) (ht : t ∈ ts) : a.transitions.at? t.id.index = some t :=
  Arena.at?_eq_of_get? ((h.inForce t.id t).2 ⟨ht, rfl⟩)

lemma eq_of_index_eq (h : Records a ts) {u : Transition L r} (hu : u ∈ ts) (ht : t ∈ ts)
    (hi : u.id.index = t.id.index) : u = t :=
  List.inj_on_of_nodup_map h.slots hu ht hi

lemma nodup_slotsOf_filter (h : Records a ts) (p : Transition L r → Bool) :
    (slotsOf (ts.filter p)).Nodup :=
  h.slots.sublist (List.filter_sublist.map _)

lemma get?_vacate (h : Records a ts) (ht : t ∈ ts) (i : TransitionId) (u : Transition L r) :
    (a.transitions.vacate t.id.index).get? i = some u ↔ u ∈ without ts t ∧ u.id = i := by
  have hold : a.transitions.get? i = some u ↔ u ∈ ts ∧ u.id = i := h.inForce i u
  rw [Arena.get?_vacate, mem_without]
  by_cases hi : t.id.index = i.index
  · rw [if_pos hi]
    constructor
    · rintro ⟨⟩
    · rintro ⟨⟨hu, hne⟩, rfl⟩
      exact absurd (congrArg Transition.id (h.eq_of_index_eq hu ht hi.symm)) hne
  · have hne : u.id = i → u.id ≠ t.id := fun hid hc => hi (by rw [← hid, hc])
    rw [if_neg hi, hold]
    tauto

lemma filter_without_of_ne (h : Records a ts) (ht : t ∈ ts) {s : StateId} (hs : t.source ≠ s) :
    (without ts t).filter (·.source = s) = ts.filter (·.source = s) := by
  rw [filter_without]
  refine without_eq_self fun u hu hid => ?_
  obtain ⟨hu, hsource⟩ := List.mem_filter.1 hu
  have heq : u = t := h.eq_of_index_eq hu ht (by rw [hid])
  exact hs (heq ▸ of_decide_eq_true hsource)

end Records

lemma consistent_new : Consistent (new : Automaton L r I O) [] := by
  refine {
    states := Arena.tidy_insert Arena.tidy_empty _
    transitions := Arena.tidy_empty
    inForce := fun i t => ?_
    slots := List.nodup_nil
    files := fun s d hd => ?_
    start := rfl
    source := by simp
    target := by simp }
  · change Arena.empty.get? i = some t ↔ _
    simp
  · change (Arena.empty.insert _).get? s = some d at hd
    rw [Arena.get?_insert Arena.tidy_empty] at hd
    split at hd
    next =>
      rw [← Option.some.inj hd]
      exact StateRecord.files_isolated false
    next => simp at hd

lemma transition?_link (h : a.transitions.Tidy) (source target : StateId) (label : L)
    (weight : Weight r) (i : TransitionId) :
    (a.link source target label weight).transition? i =
      if i = a.nextTransition then some ⟨a.nextTransition, source, target, label, weight⟩
      else a.transition? i :=
  Arena.get?_insert h _ i

namespace Consistent

lemma not_contains_nextState (h : Consistent a ts) : ¬ a.contains a.nextState := by
  unfold contains Arena.contains nextState
  rw [Arena.get?_next h.states]
  simp

lemma grow (h : Consistent a ts) (isFinal : Bool) : Consistent (a.grow isFinal) ts := by
  have hcontains : ∀ s, a.contains s → (a.grow isFinal).contains s :=
    fun s hs => (contains_grow h.states isFinal s).2 (Or.inl hs)
  refine {
    states := Arena.tidy_insert h.states _
    transitions := h.transitions
    inForce := h.inForce
    slots := h.slots
    files := fun s d hd => ?_
    start := hcontains _ h.start
    source := fun t ht => hcontains _ (h.source t ht)
    target := fun t ht => hcontains _ (h.target t ht) }
  change (a.states.insert _).get? s = some d at hd
  rw [Arena.get?_insert h.states] at hd
  split at hd
  next hs =>
    -- no transition in force knows the new handle yet
    have hnext : ¬ a.contains s := hs ▸ h.not_contains_nextState
    have hown : ts.filter (·.source = s) = [] := by
      rw [List.filter_eq_nil_iff]
      intro t ht hc
      exact hnext (of_decide_eq_true hc ▸ h.source t ht)
    have hentering : entering ts s = 0 := by
      unfold entering
      rw [List.length_eq_zero_iff, List.filter_eq_nil_iff]
      intro t ht hc
      exact hnext ((of_decide_eq_true hc).1 ▸ h.target t ht)
    rw [hown, hentering, ← Option.some.inj hd]
    exact StateRecord.files_isolated isFinal
  next => exact h.files s d hd

lemma setFinal (h : Consistent a ts) (i : Nat) (isFinal : Bool) :
    Consistent { a with states := a.states.update i fun d => { d with isFinal } } ts := by
  have hcontains : ∀ s, a.contains s → (a.states.update i fun d => { d with isFinal }).contains s :=
    fun s hs => by rwa [Arena.contains_update]
  refine {
    states := Arena.tidy_update h.states _ _
    transitions := h.transitions
    inForce := h.inForce
    slots := h.slots
    files := fun s d hd => ?_
    start := hcontains _ h.start
    source := fun t ht => hcontains _ (h.source t ht)
    target := fun t ht => hcontains _ (h.target t ht) }
  rw [Arena.get?_update] at hd
  split at hd
  next =>
    obtain ⟨d, hd', rfl⟩ := Option.map_eq_some_iff.1 hd
    exact (h.files s d hd').setFinal isFinal
  next => exact h.files s d hd

lemma link (h : Consistent a ts) {source target : StateId} (hs : a.contains source)
    (ht : a.contains target) (label : L) (weight : Weight r) :
    Consistent (a.link source target label weight)
      (ts ++ [⟨a.nextTransition, source, target, label, weight⟩]) := by
  set t : Transition L r := ⟨a.nextTransition, source, target, label, weight⟩ with htdef
  have hcontains : ∀ s, a.contains s → (a.link source target label weight).contains s := by
    intro s hs
    rwa [contains_eq, finality?_link, ← contains_eq]
  -- the slot that is taken was empty, so no transition of the list has it
  have hfresh : ∀ u ∈ ts, u.id.index ≠ a.nextTransition.index := by
    intro u hu hid
    have hempty := Arena.at?_next h.transitions
    rw [show a.transitions.next = a.nextTransition from rfl, ← hid, h.at?_eq hu] at hempty
    cases hempty
  refine {
    states := ?states
    transitions := Arena.tidy_insert h.transitions _
    inForce := ?inForce
    slots := ?slots
    files := ?files
    start := hcontains _ h.start
    source := ?sources
    target := ?targets }
  case states =>
    unfold Automaton.link
    simp only
    split
    · exact Arena.tidy_update h.states _ _
    · exact Arena.tidy_update (Arena.tidy_update h.states _ _) _ _
  case inForce =>
    intro i u
    rw [transition?_link h.transitions, ← htdef]
    by_cases hi : i = a.nextTransition
    · rw [if_pos hi, List.mem_append, List.mem_singleton]
      constructor
      · rintro ⟨⟩
        exact ⟨.inr rfl, hi.symm⟩
      · rintro ⟨hu | rfl, hid⟩
        · exact absurd (congrArg Handle.index (hid.trans hi)) (hfresh u hu)
        · rfl
    · have hne : u = t → u.id ≠ i := fun hu hid => hi (by rw [← hid, hu])
      rw [if_neg hi, h.inForce i u, List.mem_append, List.mem_singleton]
      tauto
  case slots =>
    rw [slotsOf, List.map_append, List.nodup_append]
    refine ⟨h.slots, by simp, ?_⟩
    rintro i hi j hj rfl
    obtain ⟨u, hu, rfl⟩ := List.mem_map.1 hi
    exact hfresh u hu (by simpa using hj)
  case files =>
    intro s d hd
    have hget := Arena.get?_update_ends hs ht (·.file (a.transitions.insert t) t) .enter s
    obtain ⟨d, hd', rfl⟩ := Option.map_eq_some_iff.1 (hget.symm.trans hd)
    have hfiles := h.files s d hd'
    have hinForce : ∀ u ∈ ts.filter (·.source = s),
        (a.transitions.insert t).at? u.id.index = some u := by
      intro u hu
      have hu := (List.mem_filter.1 hu).1
      have hold : a.transition? u.id = some u := (h.inForce u.id u).2 ⟨hu, rfl⟩
      refine Arena.at?_eq_of_get? ((transition?_link h.transitions source target label weight
        u.id).trans ?_)
      rw [if_neg fun hc => hfresh u hu (congrArg Handle.index hc), hold]
    rw [filter_snoc, entering_snoc]
    -- filed at its source, counted at its target, and nothing changes at the other states
    by_cases hsource : s = source
    · have hown : t.source = s := hsource.symm
      rw [if_pos hsource, if_pos hown, if_neg (by simp [hown])]
      exact hfiles.file hinForce
    · have hother : t.source ≠ s := Ne.symm hsource
      rw [if_neg hsource, if_neg hother]
      by_cases htarget : s = target
      · rw [if_pos htarget, if_pos ⟨htarget.symm, hother⟩]
        exact hfiles.enter
      · rw [if_neg htarget, if_neg fun hc => htarget hc.1.symm]
        exact hfiles
  case sources =>
    intro u hu
    rcases List.mem_append.1 hu with hu | hu
    · exact hcontains _ (h.source u hu)
    · rw [List.mem_singleton.1 hu]
      exact hcontains _ hs
  case targets =>
    intro u hu
    rcases List.mem_append.1 hu with hu | hu
    · exact hcontains _ (h.target u hu)
    · rw [List.mem_singleton.1 hu]
      exact hcontains _ ht

lemma unlink (h : Consistent a ts) {t : Transition L r} (ht : t ∈ ts) :
    Consistent (a.unlink t) (without ts t) := by
  have hcontains : ∀ s, a.contains s → (a.unlink t).contains s := by
    intro s hs
    rwa [contains_eq, finality?_unlink, ← contains_eq]
  refine {
    states := ?states
    transitions := Arena.tidy_vacate h.transitions _
    inForce := h.get?_vacate ht
    slots := h.nodup_slotsOf_filter _
    files := ?files
    start := hcontains _ h.start
    source := fun u hu => hcontains _ (h.source u (mem_without.1 hu).1)
    target := fun u hu => hcontains _ (h.target u (mem_without.1 hu).1) }
  case states =>
    unfold Automaton.unlink
    simp only
    split
    · exact Arena.tidy_update h.states _ _
    · exact Arena.tidy_update (Arena.tidy_update h.states _ _) _ _
  case files =>
    intro s d hd
    have hget := Arena.get?_update_ends (h.source t ht) (h.target t ht) (·.unfile t) .leave s
    obtain ⟨d, hd', rfl⟩ := Option.map_eq_some_iff.1 (hget.symm.trans hd)
    have hfiles := h.files s d hd'
    rw [entering_without h.slots ht]
    by_cases hsource : s = t.source
    · have hown : t ∈ ts.filter (·.source = s) := by simp [ht, hsource]
      rw [if_pos hsource, filter_without, if_neg (by simp [hsource])]
      exact hfiles.unfile (h.nodup_slotsOf_filter _) hown
    · have hother : t.source ≠ s := Ne.symm hsource
      rw [if_neg hsource, h.filter_without_of_ne ht hother]
      by_cases htarget : s = t.target
      · rw [if_pos htarget, if_pos ⟨htarget.symm, hother⟩]
        exact hfiles.leave
      · rw [if_neg htarget, if_neg fun hc => htarget hc.1.symm]
        exact hfiles

end Consistent

end Automaton

end WeightedAutomata
