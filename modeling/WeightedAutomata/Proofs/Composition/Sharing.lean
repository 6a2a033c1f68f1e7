import WeightedAutomata.Proofs.Composition.Origin

/-!
Intermediate symbols that two automata share.

Whether two automata share a symbol is read off the lists of all their transitions, while the moves
of their composition are found state by state. The two agree: a symbol is written by the outer side
and read by the inner side exactly when both sides can move together on it out of some pair of
states, and then they can whatever else the filter bars.
-/

namespace WeightedAutomata

open Automaton

variable {A B L I M O : Type} {r : Range} [LabelOver A I M] [LabelOver B M O]
  [LabelOver L I O] [Alphabet I] [Alphabet M] [Alphabet O]

namespace Symbol

variable {α : Type} {k : Symbol α} {v : α}

lemma value?_eq_some_iff : k.value? = some v ↔ k = .concrete v := by
  cases k <;> simp [value?]

lemma ne_epsilon_iff : k ≠ .epsilon ↔ ∃ v, k = .concrete v := by
  cases k <;> simp

end Symbol

/-! ### The symbols of an automaton -/

namespace Automaton

def Writes (a : Automaton L r I O) : Prop :=
  ∃ i t, a.transition? i = some t ∧ Label.output t.label ≠ .epsilon

def Reads (a : Automaton L r I O) : Prop :=
  ∃ i t, a.transition? i = some t ∧ Label.input t.label ≠ .epsilon

variable {a : Automaton L r I O} {ts : List (Transition L r)} {t : Transition L r}

omit [LabelOver L I O] in
lemma mem_allTransitions : t ∈ a.allTransitions ↔ ∃ i, a.transition? i = some t := by
  simp [allTransitions, Arena.mem_toList, transition?]

lemma mem_written {k : O} :
    k ∈ a.written ↔ ∃ t ∈ a.allTransitions, Label.output t.label = .concrete k := by
  simp only [written, List.mem_filterMap, Symbol.value?_eq_some_iff]

lemma mem_read {k : I} :
    k ∈ a.read ↔ ∃ t ∈ a.allTransitions, Label.input t.label = .concrete k := by
  simp only [read, List.mem_filterMap, Symbol.value?_eq_some_iff]

lemma written_eq_nil_iff : a.written = [] ↔ ¬ a.Writes := by
  rw [List.eq_nil_iff_forall_not_mem]
  simp only [mem_written, mem_allTransitions, Writes, Symbol.ne_epsilon_iff]
  grind

lemma read_eq_nil_iff : a.read = [] ↔ ¬ a.Reads := by
  rw [List.eq_nil_iff_forall_not_mem]
  simp only [mem_read, mem_allTransitions, Reads, Symbol.ne_epsilon_iff]
  grind

lemma Consistent.mem_allTransitions_iff (h : Consistent a ts) :
    t ∈ a.allTransitions ↔ ∃ s, a.contains s ∧ t ∈ (a.transitionsFrom s).toList := by
  rw [(h.perm_allTransitions.trans h.perm_flatMap_transitionsFrom.symm).mem_iff, List.mem_flatMap]
  simp only [stateIds, Arena.mem_handles]
  rfl

omit [LabelOver L I O] in
lemma contains_of_mem_transitionsFrom {s : StateId}
    (ht : t ∈ (a.transitionsFrom s).toList) : a.contains s := by
  by_contra hs
  rw [toList_transitionsFrom_of_not_contains hs] at ht
  cases ht

end Automaton

namespace Composition

variable {a : Automaton A r I M} {b : Automaton B r M O}

/-! ### What the check compares -/

lemma checked_eq_ok_iff {c : Composition A B r} : checked a b = .ok c ↔
    c = ⟨a, b⟩ ∧ (¬ a.Writes ∨ ¬ b.Reads ∨ ∃ k ∈ b.read, k ∈ a.written) := by
  have hknown : ∀ k, (Std.TreeMap.ofList (a.written.map fun k => (k, ()))).contains k = true ↔
      k ∈ a.written := fun k => by
    simp [Std.TreeMap.contains_ofList, Function.comp_def]
  -- the test that refuses: both sides have letters, and none is common to both
  have hdisjoint : (!a.written.isEmpty && !b.read.isEmpty &&
      !b.read.any (Std.TreeMap.ofList (a.written.map fun k => (k, ()))).contains) = true ↔
        ¬ (a.written = [] ∨ b.read = [] ∨ ∃ k ∈ b.read, k ∈ a.written) := by
    simp only [Bool.and_eq_true, Bool.not_eq_true', List.any_eq_false, List.isEmpty_eq_false_iff,
      hknown, not_or, not_exists, not_and, and_assoc, ne_eq]
  rw [← written_eq_nil_iff, ← read_eq_nil_iff]
  unfold checked
  dsimp only
  split
  next h => simp [hdisjoint.1 h]
  next h =>
    have hshared := not_not.1 (mt hdisjoint.2 h)
    rw [and_iff_left hshared, Except.ok.injEq, eq_comm]

lemma checked_eq_error {cause : Error} (h : checked a b = .error cause) :
    cause = .disjointAlphabets := by
  unfold checked at h
  dsimp only at h
  split at h
  next => exact (Except.error.inj h).symm
  next => cases h

/-! ### Moves on a shared symbol -/

/-- Among the moves out of a composed state is one of both sides on the concrete symbol `k`. -/
def MatchesOn (c : Composition A B r) (s : ComposedState) (k : M) : Prop :=
  ∃ x y, Origin.joint x y ∈ c.origins s ∧ jointMove s .both x y ∈ (c.moves s).toList ∧
    Label.output x.label = .concrete k ∧ Label.input y.label = .concrete k

lemma allows_both {f : FilterState} (hf : f.isValid) : f.allows .both := by
  cases f with
  | invalid => exact hf
  | moveBoth | moveOuter | moveInner => rfl

/-- Both sides can move on a symbol that one state writes and the other reads. -/
lemma matchesOn_iff {c : Composition A B r} {us : List (Transition B r)}
    (hinner : Consistent c.inner us) {s : ComposedState} {k : M} : c.MatchesOn s k ↔
      s.filter.isValid ∧
        (∃ x ∈ (c.outer.transitionsFrom s.outer).toList, Label.output x.label = .concrete k) ∧
        ∃ y ∈ (c.inner.transitionsFrom s.inner).toList, Label.input y.label = .concrete k := by
  constructor
  · rintro ⟨x, y, horigin, -, hx, hy⟩
    obtain ⟨hxmem, hymem, hallowed⟩ := mem_origins.1 horigin
    rw [hinner.toList_transitionsReading] at hymem
    exact ⟨FilterState.isValid_of_allows hallowed, ⟨x, hxmem, hx⟩,
      ⟨y, List.mem_of_mem_filter hymem, hy⟩⟩
  · rintro ⟨hvalid, ⟨x, hxmem, hx⟩, ⟨y, hymem, hy⟩⟩
    have hkind : jointKind x = .both := by simp [jointKind, hx, Symbol.isEpsilon]
    have horigin : Origin.joint x y ∈ c.origins s := by
      refine mem_origins.2 ⟨hxmem, ?_, ?_⟩
      · rw [hinner.toList_transitionsReading]
        simp [hymem, hx, hy]
      · rw [hkind]
        exact allows_both hvalid
    refine ⟨x, y, horigin, ?_, hx, hy⟩
    rw [toList_moves, List.mem_map]
    exact ⟨_, horigin, by rw [Origin.move, hkind]⟩

variable {ts : List (Transition A r)} {us : List (Transition B r)}

/-- A symbol on which both sides can move is shared, wherever they are. -/
lemma shares_of_matchesOn (ha : Consistent a ts) (hb : Consistent b us) {s : ComposedState}
    {k : M} (h : MatchesOn ⟨a, b⟩ s k) :
    (a.contains s.outer ∧ b.contains s.inner) ∧ ∃ k ∈ b.read, k ∈ a.written := by
  obtain ⟨-, ⟨x, hx, hxk⟩, y, hy, hyk⟩ := (matchesOn_iff (c := ⟨a, b⟩) hb).1 h
  have ho := contains_of_mem_transitionsFrom hx
  have hi := contains_of_mem_transitionsFrom hy
  exact ⟨⟨ho, hi⟩, k, mem_read.2 ⟨y, hb.mem_allTransitions_iff.2 ⟨_, hi, hy⟩, hyk⟩,
    mem_written.2 ⟨x, ha.mem_allTransitions_iff.2 ⟨_, ho, hx⟩, hxk⟩⟩

/-- **A symbol is shared exactly when both sides can move on it** out of some pair of states. -/
lemma shares_iff (ha : Consistent a ts) (hb : Consistent b us) :
    (∃ k ∈ b.read, k ∈ a.written) ↔ ∃ o i, a.contains o ∧ b.contains i ∧
      ∀ f, f.isValid → ∃ k, MatchesOn ⟨a, b⟩ ⟨o, i, f⟩ k := by
  constructor
  · rintro ⟨k, hread, hwritten⟩
    obtain ⟨x, hx, hxk⟩ := mem_written.1 hwritten
    obtain ⟨y, hy, hyk⟩ := mem_read.1 hread
    obtain ⟨o, ho, hx⟩ := ha.mem_allTransitions_iff.1 hx
    obtain ⟨i, hi, hy⟩ := hb.mem_allTransitions_iff.1 hy
    exact ⟨o, i, ho, hi, fun f hf =>
      ⟨k, (matchesOn_iff (c := ⟨a, b⟩) hb).2 ⟨hf, ⟨x, hx, hxk⟩, y, hy, hyk⟩⟩⟩
  · rintro ⟨o, i, -, -, hmatches⟩
    obtain ⟨k, hk⟩ := hmatches .moveBoth rfl
    exact (shares_of_matchesOn ha hb hk).2

/-- **The check agrees with the moves**, whatever operations the two automata come from. What it
lets pass is the composition as it is without a check. It lets everything pass where one side has no
concrete intermediate symbol. Else it lets pass exactly the compositions in which both sides can
move together on a concrete symbol, out of a pair of states in force and under every valid filter;
and where it refuses, they can nowhere. -/
theorem checked_agrees (ops : List (Operation A r)) (ops' : List (Operation B r)) :
    (∀ c, checked (reach ops) (reach ops') = .ok c → c = ⟨reach ops, reach ops'⟩) ∧
    (∀ cause, checked (reach ops) (reach ops') = .error cause → cause = .disjointAlphabets) ∧
    (¬ (reach ops).Writes ∨ ¬ (reach ops').Reads →
      checked (reach ops) (reach ops') = .ok ⟨reach ops, reach ops'⟩) ∧
    ((reach ops).Writes → (reach ops').Reads →
      (checked (reach ops) (reach ops') = .ok ⟨reach ops, reach ops'⟩ ↔
        ∃ o i, (reach ops).contains o ∧ (reach ops').contains i ∧
          ∀ f, f.isValid → ∃ k, MatchesOn ⟨reach ops, reach ops'⟩ ⟨o, i, f⟩ k) ∧
      ∀ s k, MatchesOn ⟨reach ops, reach ops'⟩ s k →
        checked (reach ops) (reach ops') = .ok ⟨reach ops, reach ops'⟩) := by
  obtain ⟨ts, ha⟩ := consistent_reach ops
  obtain ⟨us, hb⟩ := consistent_reach ops'
  refine ⟨fun c h => (checked_eq_ok_iff.1 h).1, fun cause => checked_eq_error, fun h => ?_,
    fun hwrites hreads => ⟨?_, fun s k hk => ?_⟩⟩
  · exact checked_eq_ok_iff.2 ⟨rfl, or_assoc.1 (Or.inl h)⟩
  · rw [checked_eq_ok_iff, ← shares_iff ha hb]
    simp [hwrites, hreads]
  · exact checked_eq_ok_iff.2 ⟨rfl, Or.inr (Or.inr (shares_of_matchesOn ha hb hk).2)⟩

/-- A transition that writes `x` has been removed; its slot holds one that writes `y`. -/
def rewritten : List (Operation Pair .probability) :=
  [.call (.addTransition ⟨0, 0⟩ ⟨0, 0⟩ (.concrete "a" "x") 1),
    .call (.removeTransition ⟨0, 0⟩),
    .call (.addTransition ⟨0, 0⟩ ⟨0, 0⟩ (.concrete "a" "y") 1)]

/-- A state other than the start reads this symbol. -/
def readingLater (k : String) : List (Operation Letter .probability) :=
  [.call (.addState true), .call (.addTransition ⟨1, 0⟩ ⟨0, 0⟩ (.concrete k) 1)]

/-- The symbol that is written now is shared with the state behind the start, and the check lets it
pass; with one that reads the removed symbol nothing is shared. -/
theorem checked_agrees_rewritten :
    checked (reach rewritten) (reach (readingLater "y")) =
        .ok ⟨reach rewritten, reach (readingLater "y")⟩ ∧
      ¬ ∃ s k, MatchesOn ⟨reach rewritten, reach (readingLater "x")⟩ s k := by
  have hwrites : (reach rewritten).Writes :=
    ⟨⟨0, 1⟩, ⟨⟨0, 1⟩, ⟨0, 0⟩, ⟨0, 0⟩, .concrete "a" "y", 1⟩, by decide +kernel, by decide⟩
  have hreads : ∀ k, (reach (readingLater k)).Reads := fun k =>
    ⟨⟨0, 0⟩, ⟨⟨0, 0⟩, ⟨1, 0⟩, ⟨0, 0⟩, .concrete k, 1⟩, rfl, by simp [Label.input]⟩
  have hwriter : ⟨⟨0, 1⟩, ⟨0, 0⟩, ⟨0, 0⟩, .concrete "a" "y", 1⟩ ∈
      ((reach rewritten).transitionsFrom ⟨0, 0⟩).toList := by decide +kernel
  have hreader : ⟨⟨0, 0⟩, ⟨1, 0⟩, ⟨0, 0⟩, .concrete "y", 1⟩ ∈
      ((reach (readingLater "y")).transitionsFrom ⟨1, 0⟩).toList := by decide +kernel
  obtain ⟨us, hinner⟩ := consistent_reach (readingLater "y")
  obtain ⟨-, -, -, hy⟩ := checked_agrees rewritten (readingLater "y")
  obtain ⟨-, -, -, hx⟩ := checked_agrees rewritten (readingLater "x")
  constructor
  · refine (hy hwrites (hreads "y")).1.2
      ⟨⟨0, 0⟩, ⟨1, 0⟩, by decide, by decide, fun f hf => ⟨"y", ?_⟩⟩
    exact (matchesOn_iff (c := ⟨_, _⟩) hinner).2 ⟨hf, ⟨_, hwriter, rfl⟩, _, hreader, rfl⟩
  · rintro ⟨s, k, hk⟩
    have hpassed := (hx hwrites (hreads "x")).2 s k hk
    have hrefused : (checked (reach rewritten) (reach (readingLater "x"))).isOk = false := by
      decide +kernel
    rw [hpassed] at hrefused
    cases hrefused

end Composition

end WeightedAutomata
