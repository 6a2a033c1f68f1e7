import WeightedAutomata.Proofs.Automaton.Books
import WeightedAutomata.Proofs.Compilation.Splicing

/-!
Edges that are tied one after the other.

Edges are tied up to the first one that has an end which is not in force. That end is reported, and
the edges before it stay. Tying brings no state into force and puts none out of force, so which edge
that is can be told beforehand.
-/

namespace WeightedAutomata

open Automaton

variable {L I O : Type} {r : Range} [Alphabet I] [Alphabet O]

lemma Edit.bind_error [LabelOver L I O] {α β : Type} {m : Edit L r α} {cause : Error}
    {a b : Automaton L r I O} (h : m a = .error cause b) (f : α → Edit L r β) :
    (m >>= f) a = .error cause b := by
  simp only [bind, EStateM.bind, h]

namespace Automaton

variable {a b : Automaton L r I O} {ts added : List (Transition L r)}
  {es : List (StateId × Arc StateId L r)} {e : StateId × Arc StateId L r}

/-! ### Edges between states in force -/

/-- Both ends of an edge are in force. -/
def joins (a : Automaton L r I O) (e : StateId × Arc StateId L r) : Bool :=
  a.contains e.1 && a.contains e.2.target

/-- The end that is reported where an edge cannot be tied: its source, or else its target. -/
def missing (a : Automaton L r I O) (e : StateId × Arc StateId L r) : StateId :=
  if a.contains e.1 then e.2.target else e.1

lemma joins_iff : a.joins e ↔ a.contains e.1 ∧ a.contains e.2.target := Bool.and_eq_true_iff

lemma not_contains_missing (h : ¬ a.joins e) : ¬ a.contains (a.missing e) := by
  unfold missing
  split
  next hsource => exact fun htarget => h (joins_iff.2 ⟨hsource, htarget⟩)
  next hsource => exact hsource

/-- Either all edges can be tied, or there is a first one that cannot. -/
lemma joins_or_first_not (a : Automaton L r I O) (es : List (StateId × Arc StateId L r)) :
    (∀ e ∈ es, a.joins e) ∨
      ∃ done e rest, es = done ++ e :: rest ∧ (∀ t ∈ done, a.joins t) ∧ ¬ a.joins e := by
  cases hfirst : es.find? (!a.joins ·) with
  | none =>
    have hnone := List.find?_eq_none.1 hfirst
    exact .inl fun e he => by simpa using hnone e he
  | some e =>
    obtain ⟨he, done, rest, hes, hdone⟩ := List.find?_eq_some_iff_append.1 hfirst
    exact .inr ⟨done, e, rest, hes, fun t ht => by simpa using hdone t ht, by simpa using he⟩

variable [LabelOver L I O]

def linkAll (a : Automaton L r I O) (es : List (StateId × Arc StateId L r)) : Automaton L r I O :=
  es.foldl (fun a e => a.link e.1 e.2.target e.2.label e.2.weight) a

lemma finality?_linkAll (a : Automaton L r I O) (es : List (StateId × Arc StateId L r))
    (s : StateId) : (a.linkAll es).finality? s = a.finality? s := by
  induction es generalizing a with
  | nil => rfl
  | cons e es ih => exact (ih _).trans (finality?_link _ _ _ _ s)

lemma contains_linkAll (a : Automaton L r I O) (es : List (StateId × Arc StateId L r))
    (s : StateId) : (a.linkAll es).contains s = a.contains s := by
  rw [contains_eq, contains_eq, finality?_linkAll]

lemma joins_linkAll (a : Automaton L r I O) (es : List (StateId × Arc StateId L r)) :
    (a.linkAll es).joins e = a.joins e := by
  unfold joins
  rw [contains_linkAll, contains_linkAll]

lemma missing_linkAll (a : Automaton L r I O) (es : List (StateId × Arc StateId L r)) :
    (a.linkAll es).missing e = a.missing e := by
  unfold missing
  rw [contains_linkAll]

lemma nextState_linkAll (a : Automaton L r I O) (es : List (StateId × Arc StateId L r)) :
    (a.linkAll es).nextState = a.nextState := by
  induction es generalizing a with
  | nil => rfl
  | cons e es ih =>
    have hlink := a.upcoming_link e.1 e.2.target e.2.label e.2.weight 0
    rw [Arena.upcoming_zero, Arena.upcoming_zero] at hlink
    exact (ih _).trans hlink

lemma stateCount_linkAll (a : Automaton L r I O) (es : List (StateId × Arc StateId L r)) :
    (a.linkAll es).stateCount = a.stateCount := by
  induction es generalizing a with
  | nil => rfl
  | cons e es ih =>
    refine (ih _).trans ?_
    unfold stateCount link
    dsimp only
    split <;> rfl

lemma transitionCount_linkAll (a : Automaton L r I O) (es : List (StateId × Arc StateId L r)) :
    (a.linkAll es).transitionCount = a.transitionCount + es.length := by
  induction es generalizing a with
  | nil => rfl
  | cons e es ih =>
    have hlink : (a.link e.1 e.2.target e.2.label e.2.weight).transitionCount =
        a.transitionCount + 1 := Arena.size_insert _ _
    refine (ih _).trans ?_
    rw [hlink, List.length_cons]
    omega

/-- Each edge between states in force becomes one transition. -/
lemma Consistent.linkAll (h : Consistent a ts) (hes : ∀ e ∈ es, a.joins e) :
    ∃ added, Consistent (a.linkAll es) (ts ++ added) ∧ added.map Transition.edge = es := by
  induction es generalizing a ts with
  | nil => exact ⟨[], by rwa [List.append_nil], rfl⟩
  | cons e es ih =>
    obtain ⟨hsource, htarget⟩ := joins_iff.1 (hes e List.mem_cons_self)
    have hlink := h.link hsource htarget e.2.label e.2.weight
    have hrest : ∀ e' ∈ es, (a.linkAll [e]).joins e' := fun e' he' =>
      (joins_linkAll a [e]).trans (hes e' (List.mem_cons_of_mem e he'))
    obtain ⟨added, hadded, rfl⟩ := ih hlink hrest
    refine ⟨⟨a.nextTransition, e.1, e.2.target, e.2.label, e.2.weight⟩ :: added, ?_, rfl⟩
    rw [List.append_cons]
    exact hadded

/-! ### Tying -/

/-- Adds edges one after the other. -/
def tieAll (es : List (StateId × Arc StateId L r)) : Edit L r PUnit :=
  es.forM fun e => discard (addTransition e.1 e.2.target e.2.label e.2.weight)

lemma tieAll_append (es es' : List (StateId × Arc StateId L r)) :
    (tieAll (es ++ es') : Edit L r PUnit) = tieAll es >>= fun _ => tieAll es' :=
  List.forM_append

lemma forM_eq_tieAll {α : Type} (xs : Array α) (edge : α → StateId × Arc StateId L r) :
    (xs.forM fun x => discard (addTransition (edge x).1 (edge x).2.target (edge x).2.label
      (edge x).2.weight) : Edit L r PUnit) = tieAll (xs.toList.map edge) := by
  unfold Array.forM
  rw [← Array.foldlM_toList]
  induction xs.toList with
  | nil => rfl
  | cons x l ih => exact congrArg (_ >>= fun _ => ·) ih

lemma tieAll_of_joins (hes : ∀ e ∈ es, a.joins e) : tieAll es a = .ok () (a.linkAll es) := by
  induction es generalizing a with
  | nil => rfl
  | cons e es ih =>
    obtain ⟨hsource, htarget⟩ := joins_iff.1 (hes e List.mem_cons_self)
    have hfirst := Edit.discard_ok
      (addTransition_of_contains hsource htarget e.2.label e.2.weight)
    have hrest : ∀ e' ∈ es, (a.linkAll [e]).joins e' := fun e' he' =>
      (joins_linkAll a [e]).trans (hes e' (List.mem_cons_of_mem e he'))
    exact (Edit.bind_ok hfirst _).trans (ih hrest)

lemma tie_of_not_joins (he : ¬ a.joins e) :
    (discard (addTransition e.1 e.2.target e.2.label e.2.weight) : Edit L r PUnit) a =
      .error (.unknownState (a.missing e)) a := by
  refine Edit.discard_error_iff.2 ?_
  unfold missing addTransition
  by_cases hsource : a.contains e.1
  · have htarget : ¬ a.contains e.2.target := fun h => he (joins_iff.2 ⟨hsource, h⟩)
    simp [hsource, htarget]
  · simp [hsource]

lemma tieAll_of_not_joins {done rest : List (StateId × Arc StateId L r)}
    (hes : es = done ++ e :: rest) (hdone : ∀ t ∈ done, a.joins t) (he : ¬ a.joins e) :
    tieAll es a = .error (.unknownState (a.missing e)) (a.linkAll done) := by
  have he' : ¬ (a.linkAll done).joins e := by rwa [joins_linkAll]
  have hfails := tie_of_not_joins he'
  rw [missing_linkAll] at hfails
  rw [hes, tieAll_append, Edit.bind_ok (tieAll_of_joins hdone)]
  exact Edit.bind_error hfails _

end Automaton

end WeightedAutomata
