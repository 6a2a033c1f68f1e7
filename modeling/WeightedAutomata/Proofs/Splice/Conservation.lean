import WeightedAutomata.Proofs.Splice.Outcome

/-!
Splices keep every edge.

As long as no handle has come round, the state that a splice makes is none that an open edge could
name. So a splice succeeds exactly if the states that the edges to be tied name are in force. Then
each of these edges becomes one transition, and each other open edge is one of the piece that is
given. Apart from the epsilons by which loops are entered and left, that is all.
-/

namespace WeightedAutomata

open Automaton

variable {L I O : Type} {r : Range} [LabelOver L I O]

/-! ### Labels and weights -/

def marksOf (es : List (StateId × Arc StateId L r)) : Multiset (L × Weight r) :=
  ↑(es.map fun e => (e.2.label, e.2.weight))

namespace Fragment

variable (f g : Fragment L r)

def passageMarks : Multiset (L × Weight r) := ↑(f.passages.toList.map fun p => (p.label, p.weight))

def entryMarks : Multiset (L × Weight r) := ↑(f.entries.toList.map fun e => (e.label, e.weight))

def exitMarks : Multiset (L × Weight r) := ↑(f.exits.toList.map fun x => (x.label, x.weight))

def marks : Multiset (L × Weight r) := f.passageMarks + f.entryMarks + f.exitMarks

lemma marksOf_passageTies (source target : StateId) :
    marksOf (f.passageTies source target) = f.passageMarks := by
  rw [marksOf, passageTies, List.map_map]
  rfl

lemma marksOf_entryTies (source : StateId) : marksOf (f.entryTies source) = f.entryMarks := by
  rw [marksOf, entryTies, List.map_map]
  rfl

lemma marksOf_exitTies (target : StateId) : marksOf (f.exitTies target) = f.exitMarks := by
  rw [marksOf, exitTies, List.map_map]
  rfl

lemma marksOf_append (es es' : List (StateId × Arc StateId L r)) :
    marksOf (es ++ es') = marksOf es + marksOf es' := by
  rw [marksOf, List.map_append, ← Multiset.coe_add]
  rfl

lemma marksOf_ties (source target : StateId) : marksOf (f.ties source target) = f.marks := by
  rw [ties, marksOf_append, marksOf_append, marksOf_passageTies, marksOf_entryTies,
    marksOf_exitTies, ← add_assoc]
  rfl

lemma marks_through (hub : StateId) : (through f g hub).marks =
    f.passageMarks + f.entryMarks + (g.passageMarks + g.exitMarks) := by
  have hentries : (through f g hub).entryMarks = f.entryMarks + f.passageMarks := by
    simp [through, entryMarks, passageMarks, Passage.into, Function.comp_def]
  have hexits : (through f g hub).exitMarks = g.exitMarks + g.passageMarks := by
    simp [through, exitMarks, passageMarks, Passage.outOf, Function.comp_def]
  have hpassages : (through f g hub).passageMarks = 0 := rfl
  rw [marks, hpassages, hentries, hexits, zero_add, add_comm f.entryMarks, add_comm g.exitMarks]

lemma marks_around (hub : StateId) (leave : Weight r) :
    (around (L := L) hub leave).marks = {(Label.epsilon, 1), (Label.epsilon, leave)} := rfl

lemma marks_onto (hub : StateId) (leave : Weight r) :
    (onto f hub leave).marks = f.passageMarks + f.entryMarks + {(Label.epsilon, leave)} := by
  have hentries : (onto f hub leave).entryMarks = f.entryMarks + f.passageMarks := by
    simp [onto, entryMarks, passageMarks, Passage.into, Function.comp_def]
  have hexits : (onto f hub leave).exitMarks = {(Label.epsilon, leave)} := rfl
  have hpassages : (onto f hub leave).passageMarks = 0 := rfl
  rw [marks, hpassages, hentries, hexits, zero_add, add_comm f.entryMarks]

end Fragment

namespace Splice

open Fragment

/-- The labels and weights of the operands' open edges. What is passed again costs its factor. -/
def operands : Splice L r → Multiset (L × Weight r)
  | concat f g => f.marks + g.marks
  | closure f again _ => (f.scale again).marks
  | positiveClosure f g again _ => f.marks + (g.scale again).marks
  | attach f _ => f.marks

/-- The labels and weights of the epsilons by which a loop is entered and left. -/
def epsilons : Splice L r → Multiset (L × Weight r)
  | closure _ _ leave => {(Label.epsilon, 1), (Label.epsilon, leave)}
  | positiveClosure _ _ _ leave => {(Label.epsilon, leave)}
  | _ => 0

/-- The labels and weights of the edges that are left open. -/
def left : Fragment L r ⊕ StateId → Multiset (L × Weight r)
  | .inl f => f.marks
  | .inr _ => 0

/-- **No edge is lost, doubled or given another weight.** -/
lemma marks_conserved (σ : Splice L r) (hub : StateId) :
    marksOf (σ.ties hub) + left (σ.gives hub) = σ.operands + σ.epsilons := by
  cases σ with
  | concat f g =>
    change marksOf (f.exitTies hub ++ g.entryTies hub) + (through f g hub).marks =
      f.marks + g.marks + 0
    rw [marksOf_append, marksOf_exitTies, marksOf_entryTies, marks_through, marks, marks]
    abel
  | closure f again leave =>
    change marksOf ((f.scale again).ties hub hub) + (around hub leave).marks = _
    rw [marksOf_ties, marks_around]
    rfl
  | positiveClosure f g again leave =>
    change marksOf (f.exitTies hub ++ (g.scale again).ties hub hub) + (onto f hub leave).marks =
      f.marks + (g.scale again).marks + {(Label.epsilon, leave)}
    rw [marksOf_append, marksOf_exitTies, marksOf_ties, marks_onto, marks.eq_1 f]
    abel
  | attach f start =>
    change marksOf (f.ties start hub) + 0 = f.marks + 0
    rw [marksOf_ties]

/-! ### The states that have to be in force -/

variable [Alphabet I] [Alphabet O]

section Ends

omit [LabelOver L I O]

variable {σ : Splice L r} {a b : Automaton L r I O}

lemma joins_passageTies {f : Fragment L r} {source target : StateId} (hs : b.contains source)
    (ht : b.contains target) : ∀ e ∈ f.passageTies source target, b.joins e := by
  intro e he
  obtain ⟨p, -, rfl⟩ := List.mem_map.1 he
  exact joins_iff.2 ⟨hs, ht⟩

lemma joins_entryTies_iff {f : Fragment L r} {source : StateId} (hs : b.contains source) :
    (∀ e ∈ f.entryTies source, b.joins e) ↔
      ∀ s ∈ f.entries.toList.map Entry.target, b.contains s := by
  simp [entryTies, joins, Entry.arc, hs]

lemma joins_exitTies_iff {f : Fragment L r} {target : StateId} (ht : b.contains target) :
    (∀ e ∈ f.exitTies target, b.joins e) ↔
      ∀ s ∈ f.exits.toList.map Exit.source, b.contains s := by
  simp [exitTies, joins, Exit.arcTo, ht]

lemma joins_ties_iff {f : Fragment L r} {source target : StateId} (hs : b.contains source)
    (ht : b.contains target) :
    (∀ e ∈ f.ties source target, b.joins e) ↔ ∀ s ∈ f.ends, b.contains s := by
  rw [Fragment.ties, Fragment.ends, List.forall_mem_append, List.forall_mem_append,
    List.forall_mem_append, joins_entryTies_iff hs, joins_exitTies_iff ht]
  exact and_iff_right (joins_passageTies hs ht)

lemma ends_scale (f : Fragment L r) (factor : Weight r) : (f.scale factor).ends = f.ends := by
  simp [Fragment.ends, scale, Function.comp_def]

lemma joins_iff_ends {hub : StateId} (hhub : b.contains hub) (h : σ.Admitted b) :
    (∀ e ∈ σ.ties hub, b.joins e) ↔ ∀ s ∈ σ.ends, b.contains s := by
  cases σ with
  | concat f g =>
    rw [ties, ends, List.forall_mem_append, List.forall_mem_append, joins_exitTies_iff hhub,
      joins_entryTies_iff hhub]
  | closure f again leave => rw [ties, ends, joins_ties_iff hhub hhub, ends_scale]
  | positiveClosure f g again leave =>
    rw [ties, ends, List.forall_mem_append, List.forall_mem_append, joins_exitTies_iff hhub,
      joins_ties_iff hhub hhub, ends_scale]
  | attach f start => rw [ties, ends, joins_ties_iff (h f start rfl) hhub]

lemma joins_early (h : σ.Admitted a) (hends : ∀ s ∈ σ.ends, a.contains s) :
    ∀ e ∈ σ.early, a.joins e := by
  cases σ with
  | attach f start =>
    change ∀ e ∈ (if f.passages.isEmpty then f.entryTies start else []), a.joins e
    split
    · exact (joins_entryTies_iff (h f start rfl)).2 fun s hs =>
        hends s (List.mem_append_left _ hs)
    · simp
  -- only `attach` ties edges before it has made its state
  | _ =>
    intro e he
    cases he

lemma forall_needs_iff :
    (∀ s ∈ σ.needs, a.contains s) ↔ σ.Admitted a ∧ ∀ s ∈ σ.ends, a.contains s := by
  cases σ with
  | attach f start =>
    refine List.forall_mem_cons.trans (and_congr_left' ⟨?_, fun h => h f start rfl⟩)
    rintro hstart _ _ ⟨⟩
    exact hstart
  | _ => exact ⟨fun h => ⟨fun _ _ heq => (nomatch heq), h⟩, And.right⟩

/-- A splice that stops names a state that is not in force. -/
lemma StopsAt.exists_not_contains {cause : Error}
    {tied : List (StateId × Arc StateId L r)} {e : StateId × Arc StateId L r}
    {added : List (Transition L r)} (hadmitted : σ.Admitted a)
    (h : σ.StopsAt a b cause tied e added) : ∃ s ∈ σ.ends, ¬ a.contains s := by
  by_contra! hends
  obtain ⟨rest, hfirst⟩ := h.first
  have htied := h.kept
  by_cases hmany : σ.early.length ≤ tied.length
  · rw [decide_eq_true hmany] at htied
    have hjoins := (joins_iff_ends htied.contains_place (htied.admitted hadmitted)).2
      fun s hs => htied.contains_of_contains (hends s hs)
    refine h.stops (hjoins e ?_)
    rw [hfirst]
    exact List.mem_append_right _ List.mem_cons_self
  · -- the edge is one of those that are tied early
    rw [← early_append_late] at hfirst
    have hat : (σ.early ++ σ.late (σ.place a.nextState))[tied.length]? = some e := by
      rw [hfirst, List.getElem?_append_right (Nat.le_refl _), Nat.sub_self]
      rfl
    rw [List.getElem?_append_left (Nat.lt_of_not_le hmany)] at hat
    have hjoins := joins_early hadmitted hends e (List.mem_of_getElem? hat)
    exact h.stops (htied.joins_of_joins hjoins)

end Ends

/-! ### Runs -/

variable {σ : Splice L r} {a : Automaton L r I O} {ts : List (Transition L r)}

/-- What a splice leaves and gives when it succeeds. -/
structure Conserves (σ : Splice L r) (a : Automaton L r I O) (out : Fragment L r ⊕ StateId)
    (b : Automaton L r I O) (added : List (Transition L r)) : Prop where
  gives : out = σ.gives (σ.place a.nextState)
  fresh : ¬ a.contains a.nextState
  tied : σ.Tied a b true (σ.ties (σ.place a.nextState)) added
  /-- Every edge of the operands is a transition now, or left open. -/
  conserved : ↑(added.map fun t => (t.label, t.weight)) + left out = σ.operands + σ.epsilons

/-- A splice in which no edge names the state to be made succeeds if what it needs is in force, and
only then. -/
lemma run_ok_iff (ha : Consistent a ts) (hnew : ∀ s ∈ σ.ends, s ≠ a.nextState) :
    (∃ out b, σ.run a = .ok out b) ↔ ∀ s ∈ σ.needs, a.contains s := by
  rw [forall_needs_iff]
  constructor
  · rintro ⟨out, b, hrun⟩
    have hadmitted : σ.Admitted a := admitted_of_ok hrun
    refine ⟨hadmitted, fun s hs => ?_⟩
    rcases run_cases ha hadmitted with ⟨b', added, -, hjoins, htied⟩ | ⟨_, _, _, _, _, hfails, -⟩
    · have hends := (joins_iff_ends htied.contains_place (htied.admitted hadmitted)).1 hjoins
      rcases (htied.contains_iff s).1 (hends s hs) with hold | ⟨-, hplace⟩
      · exact hold
      · -- the one state that is made has a fresh handle, so it was no end before
        rcases (marking_eq hadmitted).2 with ⟨-, hnext, -⟩ | ⟨-, hlive, -⟩
        · exact absurd (hplace.trans hnext) (hnew s hs)
        · exact hplace ▸ hlive
    · rw [hfails] at hrun
      cases hrun
  · rintro ⟨hadmitted, hends⟩
    rcases run_cases ha hadmitted with ⟨b, added, hok, -⟩ | ⟨_, b, tied, e, added, -, hstops⟩
    · exact ⟨_, b, hok⟩
    · obtain ⟨s, hs, hdead⟩ := hstops.exists_not_contains hadmitted
      exact absurd (hends s hs) hdead

lemma exists_conserves (ha : Consistent a ts) {out : Fragment L r ⊕ StateId} {b : Automaton L r I O}
    (hrun : σ.run a = .ok out b) : ∃ added, σ.Conserves a out b added := by
  rcases run_cases ha (admitted_of_ok hrun) with
    ⟨b', added, hok, -, htied⟩ | ⟨_, _, _, _, _, hfails, -⟩
  · obtain ⟨rfl, rfl⟩ := EStateM.Result.ok.inj (hok.symm.trans hrun)
    refine ⟨added, rfl, ha.not_contains_nextState, htied, ?_⟩
    rw [← marks_conserved, marksOf, ← htied.edges, List.map_map]
    rfl
  · rw [hfails] at hrun
    cases hrun

/-- **Splices conserve edges.** In a run in which no slot is vacated too often, a splice of pieces
that name only states which have been issued succeeds exactly if all states that it needs are in
force. Then each edge that is tied has become one transition with its label and weight, each other
open edge is left open with them, and nothing else has changed but that one state has been made, or
the state to start from has been made final. -/
theorem edges_conserved (ops : List (Operation L r)) {calls : List (Call L r)}
    (hcalls : new.Performs ops calls) (hbound : (books calls).Bounded) (σ : Splice L r)
    (hissued : ∀ s ∈ σ.ends, s ∈ (books calls).states.issued) :
    ((∃ out b, σ.run (reach ops) = .ok out b) ↔ ∀ s ∈ σ.needs, (reach ops).contains s) ∧
      ∀ out b, σ.run (reach ops) = .ok out b → ∃ added, σ.Conserves (reach ops) out b added := by
  obtain ⟨ts, ha⟩ := consistent_reach ops
  have hlogged : (new.call calls).Logged (books calls) :=
    logged_new.keepBooks consistent_new calls hbound
  rw [show new.call calls = reach ops from hcalls.call_eq] at hlogged
  have hnew : (reach ops).nextState ∉ (books calls).states.issued := hlogged.states.next_notMem
  refine ⟨run_ok_iff ha fun s hs heq => ?_, fun out b => exists_conserves ha⟩
  exact hnew (heq ▸ hissued s hs)

/-- An edge of each kind, with a state besides the start. -/
def threeEnds : Fragment Letter .probability :=
  ⟨#[⟨.concrete "a", 1⟩], #[⟨.concrete "b", 1, ⟨1, 0⟩⟩], #[⟨⟨1, 0⟩, .concrete "c", 1⟩]⟩

/-- The three edges are tied to the new state, and what passes the loop again costs its factor. -/
theorem edges_conserved_threeEnds :
    let a : Automaton Letter .probability := reach [.call (.addState false)]
    let again : Weight .probability := .ofLog ⟨-7, by decide, by decide⟩
    ∃ b added, (closure threeEnds again 1).run a = .ok (.inl (around ⟨2, 0⟩ 1)) b ∧
      added.map Transition.edge = [(⟨2, 0⟩, ⟨⟨2, 0⟩, .concrete "a", again⟩),
        (⟨2, 0⟩, ⟨⟨1, 0⟩, .concrete "b", again⟩), (⟨1, 0⟩, ⟨⟨2, 0⟩, .concrete "c", 1⟩)] ∧
      Grown a b added ∧ b.stateCount = 3 ∧ b.transitionCount = 3 := by
  intro a again
  have hperforms : new.Performs [.call (.addState false)]
      ([.addState false] ++ [] : List (Call Letter .probability)) :=
    .cons ⟨rfl, rfl⟩ (.nil _)
  have hbooks : books ([.addState false] ++ [] : List (Call Letter .probability)) =
      ⟨⟨[⟨0, 0⟩, ⟨1, 0⟩], []⟩, .empty⟩ := by decide +kernel
  have hbounded : (books ([.addState false] ++ [] : List (Call Letter .probability))).Bounded := by
    rw [hbooks]
    exact ⟨fun i => Nat.two_pow_pos 32, fun i => Nat.two_pow_pos 32⟩
  obtain ⟨hok, hconserves⟩ := edges_conserved [.call (.addState false)] hperforms hbounded
    (closure threeEnds again 1) (by rw [hbooks]; decide)
  obtain ⟨out, b, hrun⟩ := hok.2 (by decide)
  obtain ⟨added, h⟩ := hconserves out b hrun
  have hnext : a.nextState = ⟨2, 0⟩ := by decide
  have hout : out = .inl (around ⟨2, 0⟩ 1) := by
    rw [h.gives, hnext]
    rfl
  have hedges := h.tied.edges
  rw [hnext] at hedges
  refine ⟨b, added, hout ▸ hrun, hedges.trans (by decide +kernel), h.tied.grown,
    h.tied.stateCount.trans (by decide +kernel), h.tied.transitionCount.trans (by decide +kernel)⟩

end Splice

end WeightedAutomata
