import WeightedAutomata.Proofs.Arena.Ledger
import WeightedAutomata.Proofs.Compilation.Lockstep
import WeightedAutomata.Proofs.Walk.Image
import Mathlib.Data.Set.Function

/-!
Copies of an automaton inside another one.

The states that an automaton will issue are known beforehand: those of its vacant slots, then those
of slots behind the last. So the states of a copy can be named before it is made, and the edits that
make the original, with all states renamed, make the copy. What is kept from edit to edit says that
the copy's transitions are those of the original in the same order, and that nothing else has
changed.
-/

namespace WeightedAutomata

namespace Arena

variable {e : Entity} {α : Type}

/-- The handle that an insertion issues after a number of others. -/
def upcoming (a : Arena e α) (k : Nat) : Handle e :=
  a.handleAt (a.vacant[k]?.getD (a.slots.size + (k - a.vacant.length)))

lemma upcoming_zero (a : Arena e α) : a.upcoming 0 = a.next := by
  unfold upcoming next
  cases a.vacant <;> rfl

lemma upcoming_insert (a : Arena e α) (x : α) (k : Nat) :
    (a.insert x).upcoming k = a.upcoming (k + 1) := by
  unfold upcoming
  rw [handleAt_insert]
  unfold insert
  cases hv : a.vacant with
  | nil =>
    have hslot : a.slots.size + 1 + k = a.slots.size + (k + 1) := by omega
    simp [hslot]
  | cons i rest => simp

lemma upcoming_update (a : Arena e α) (i : Nat) (f : α → α) (k : Nat) :
    (a.update i f).upcoming k = a.upcoming k := by
  unfold upcoming
  rw [handleAt_update]
  simp [update]

end Arena

open Automaton

variable {L I O : Type} {r : Range} [LabelOver L I O] [Alphabet I] [Alphabet O]

lemma Automaton.upcoming_link (a : Automaton L r I O) (source target : StateId) (label : L)
    (weight : Weight r) (k : Nat) :
    (a.link source target label weight).states.upcoming k = a.states.upcoming k := by
  unfold Automaton.link
  simp only
  split
  · exact Arena.upcoming_update _ _ _ _
  · rw [Arena.upcoming_update, Arena.upcoming_update]

def Transition.edge (t : Transition L r) : StateId × Arc StateId L r := (t.source, t.arc)

/-- In `b` stands `a` with a copy of `c`, whose states are those of `c` under other names. The start
of `c` is a state of `a`; the other states are new. The transitions of `c` are `us`, those of `a`
are `ts`, and `added` are the copies. -/
structure Copy (ρ : StateId → StateId) (a : Automaton L r I O) (ts : List (Transition L r))
    (c : Automaton L r I O) (us : List (Transition L r)) (b : Automaton L r I O)
    (added : List (Transition L r)) : Prop where
  original : Consistent c us
  copy : Consistent b (ts ++ added)
  /-- In the same order. -/
  edges : added.map Transition.edge = us.map fun u => (ρ u.source, u.arc.map ρ)
  start : a.contains (ρ c.start)
  states : ∀ v, b.contains v ↔ a.contains v ∨ ∃ u, c.contains u ∧ ρ u = v
  injOn : Set.InjOn ρ {u | c.contains u}
  fresh : ∀ u, c.contains u → u ≠ c.start → ¬ a.contains (ρ u)
  kept : ∀ v, a.contains v → b.finality? v = a.finality? v
  copied : ∀ u, c.contains u → u ≠ c.start → b.finality? (ρ u) = c.finality? u
  /-- The next states will be named alike. -/
  upcoming : ∀ k, ρ (c.states.upcoming k) = b.states.upcoming k

namespace Copy

variable {ρ : StateId → StateId} {a b c : Automaton L r I O} {ts us added : List (Transition L r)}

lemma nextState (h : Copy ρ a ts c us b added) : ρ c.nextState = b.nextState := by
  have hnext := h.upcoming 0
  rwa [Arena.upcoming_zero, Arena.upcoming_zero] at hnext

lemma contains (h : Copy ρ a ts c us b added) {u : StateId} (hu : c.contains u) :
    b.contains (ρ u) :=
  (h.states _).2 (Or.inr ⟨u, hu, rfl⟩)

lemma grow (h : Copy ρ a ts c us b added) (isFinal : Bool) :
    Copy ρ a ts (c.grow isFinal) us (b.grow isFinal) added := by
  have hnext := h.nextState
  have hnew : ¬ b.contains b.nextState := h.copy.not_contains_nextState
  have hold : ∀ {v}, b.contains v → v ≠ b.nextState := fun hv hc => hnew (hc ▸ hv)
  refine {
    original := h.original.grow isFinal
    copy := h.copy.grow isFinal
    edges := h.edges
    start := h.start
    states := fun v => ?_
    injOn := fun u hu u' hu' heq => ?_
    fresh := fun u hu hne => ?_
    -- the next state is new on both sides, so its name is not that of an earlier one
    kept := fun v hv => ?_
    copied := fun u hu hne => ?_
    upcoming := fun k => ?_ }
  · rw [contains_grow h.copy.states, h.states, or_assoc]
    simp only [contains_grow h.original.states, or_and_right, exists_or, exists_eq_left, hnext,
      eq_comm]
  · have hnever : ∀ {u}, c.contains u → ρ u ≠ ρ c.nextState := fun hu hc =>
      hold (h.contains hu) (hc.trans hnext)
    rcases (contains_grow h.original.states isFinal u).1 hu with hu | rfl
    · rcases (contains_grow h.original.states isFinal u').1 hu' with hu' | rfl
      · exact h.injOn hu hu' heq
      · exact absurd heq (hnever hu)
    · rcases (contains_grow h.original.states isFinal u').1 hu' with hu' | rfl
      · exact absurd heq.symm (hnever hu')
      · rfl
  · rcases (contains_grow h.original.states isFinal u).1 hu with hu | rfl
    · exact h.fresh u hu hne
    · rw [hnext]
      exact fun hc => hnew ((h.states _).2 (Or.inl hc))
  · rw [finality?_grow h.copy.states, if_neg (hold ((h.states v).2 (Or.inl hv)))]
    exact h.kept v hv
  · rw [finality?_grow h.copy.states, finality?_grow h.original.states]
    rcases (contains_grow h.original.states isFinal u).1 hu with hu | rfl
    · have hu' : u ≠ c.nextState := fun hc => h.original.not_contains_nextState (hc ▸ hu)
      rw [if_neg hu', if_neg (hold (h.contains hu))]
      exact h.copied u hu hne
    · rw [if_pos rfl, if_pos hnext]
  · change ρ ((c.states.insert _).upcoming k) = (b.states.insert _).upcoming k
    rw [Arena.upcoming_insert, Arena.upcoming_insert]
    exact h.upcoming (k + 1)

lemma link (h : Copy ρ a ts c us b added) {source target : StateId} (hs : c.contains source)
    (ht : c.contains target) (label : L) (weight : Weight r) :
    Copy ρ a ts (c.link source target label weight)
      (us ++ [⟨c.nextTransition, source, target, label, weight⟩])
      (b.link (ρ source) (ρ target) label weight)
      (added ++ [⟨b.nextTransition, ρ source, ρ target, label, weight⟩]) := by
  have hc : ∀ u, (c.link source target label weight).contains u ↔ c.contains u := fun u => by
    rw [contains_eq, finality?_link, ← contains_eq]
  refine {
    original := h.original.link hs ht label weight
    copy := ?_
    edges := ?_
    start := h.start
    states := fun v => ?_
    injOn := fun u hu u' hu' => h.injOn ((hc u).1 hu) ((hc u').1 hu')
    fresh := fun u hu => h.fresh u ((hc u).1 hu)
    kept := fun v hv => ?_
    copied := fun u hu hne => ?_
    upcoming := fun k => ?_ }
  · rw [← List.append_assoc]
    exact h.copy.link (h.contains hs) (h.contains ht) label weight
  · rw [List.map_append, List.map_append, h.edges]
    rfl
  · rw [contains_eq, finality?_link, ← contains_eq, h.states]
    simp only [hc]
  · rw [finality?_link]
    exact h.kept v hv
  · rw [finality?_link, finality?_link]
    exact h.copied u ((hc u).1 hu) hne
  · rw [Automaton.upcoming_link, Automaton.upcoming_link]
    exact h.upcoming k

end Copy

/-- Some transitions make one automaton a copy of another inside a third. -/
def IsCopy (ρ : StateId → StateId) (a : Automaton L r I O) (ts : List (Transition L r))
    (c b : Automaton L r I O) : Prop :=
  ∃ us added, Copy ρ a ts c us b added

/-! ### Edits that make a copy -/

/-- An automaton stands as a copy in another one, and the states that correspond have the names that
they have in the copy. -/
def Copied (ρ : StateId → StateId) (a : Automaton L r I O) (ts : List (Transition L r))
    (P : Correspondence) (c b : Automaton L r I O) : Prop :=
  (∀ s s', P s s' → c.contains s ∧ ρ s = s') ∧ IsCopy ρ a ts c b

/-- Edits that are made in both keep one a copy of the other. -/
lemma lockstep_copied (ρ : StateId → StateId) (a : Automaton L r I O) (ts : List (Transition L r)) :
    Lockstep Eq (Copied ρ a ts) where
  one := rfl
  mul := by
    rintro w _ v _ rfl rfl
    rfl
  contains := by
    rintro P c b s _ ⟨hnames, us, added, hcopy⟩ hs
    obtain ⟨hcs, rfl⟩ := hnames _ _ hs
    exact ⟨hcs, hcopy.contains hcs⟩
  grow := by
    rintro P c b ⟨hnames, us, added, hcopy⟩ isFinal
    refine ⟨fun s s' => P s s' ∨ s = c.nextState ∧ s' = b.nextState, fun _ _ => Or.inl,
      Or.inr ⟨rfl, rfl⟩, ?_, us, added, hcopy.grow isFinal⟩
    rintro s s' (hs | ⟨rfl, rfl⟩)
    · obtain ⟨hcs, hs'⟩ := hnames s s' hs
      exact ⟨(contains_grow hcopy.original.states isFinal s).2 (Or.inl hcs), hs'⟩
    · exact ⟨(contains_grow hcopy.original.states isFinal _).2 (Or.inr rfl), hcopy.nextState⟩
  link := by
    rintro P c b s _ t _ w _ ⟨hnames, us, added, hcopy⟩ hs ht rfl label
    obtain ⟨hcs, rfl⟩ := hnames _ _ hs
    obtain ⟨hct, rfl⟩ := hnames _ _ ht
    refine ⟨fun u u' hu => ?_, _, _, hcopy.link hcs hct label w⟩
    rw [contains_eq, finality?_link, ← contains_eq]
    exact hnames u u' hu

end WeightedAutomata
