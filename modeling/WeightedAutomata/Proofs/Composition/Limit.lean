import WeightedAutomata.Composition.Worklist
import WeightedAutomata.Proofs.Arena.Ledger
import WeightedAutomata.Proofs.Composition.Materialization
import Mathlib.Data.Set.Card

/-!
When a composition is too large to be materialized.

The limit is asked about each composed state that is found after the start. So an expansion gets
full exactly when more composed states can be reached than the limit admits beside a start that is
always there, and otherwise it has one state for each. The expansion with a queue comes to the same:
none of its edits fails, and the queue is empty after no more rounds than there are states.
-/

namespace WeightedAutomata

open Automaton

variable {A B I M O : Type} {r : Range} [LabelOver A I M] [LabelOver B M O]
  [Alphabet I] [Alphabet M] [Alphabet O] {c : Composition A B r} {limit : Nat}

namespace Expansion

variable {x : Expansion I O r}

/-! ### Counting what has been found -/

/-- As many states in the transducer, and as many in the table, as composed states were found. -/
structure Counted (x : Expansion I O r) : Prop where
  states : x.transducer.stateCount = x.found.size
  stateOf : x.stateOf.size = x.found.size

namespace Counted

lemma initial (s : ComposedState) (isFinal : Bool) :
    (Expansion.initial s isFinal : Expansion I O r).Counted where
  states := rfl
  stateOf := by
    rw [Expansion.initial, Std.HashMap.ofList_singleton, Std.HashMap.size_insert]
    simp

lemma adopt (h : x.Counted) {s : ComposedState} (hnew : x.stateOf[s]? = none) (isFinal : Bool) :
    (x.adopt s isFinal).Counted where
  states := by
    change (x.transducer.states.insert _).size = (x.found.push _).size
    rw [Arena.size_insert, Array.size_push]
    exact congrArg (· + 1) h.states
  stateOf := by
    have hfresh : s ∉ x.stateOf := by
      rw [Std.HashMap.mem_iff_isSome_getElem?, hnew]
      simp
    change (x.stateOf.insert s _).size = (x.found.push _).size
    rw [Std.HashMap.size_insert, if_neg hfresh, Array.size_push, h.stateOf]

lemma link (h : x.Counted) (source target : StateId) (m : ComposedMove r I O) :
    (x.link source target m).Counted where
  states := by
    rw [← show x.transducer.stateCount = (x.link source target m).found.size from h.states]
    unfold Expansion.link Automaton.link Automaton.stateCount Arena.size
    simp only
    split <;> rfl
  stateOf := h.stateOf

lemma follow (h : x.Counted) (isFinal : ComposedState → Bool) (source : StateId)
    (later : LazyList (ComposedMove r I O)) : (x.follow isFinal limit source later).Counted := by
  induction later generalizing x with
  | nil => exact h
  | cons m rest ih =>
    unfold Expansion.follow
    split
    next target htarget => exact ih () (h.link source target m)
    next hnew =>
      split
      next hroom => exact ih () ((h.adopt hnew _).link source _ m)
      next hroom => exact ⟨h.states, h.stateOf⟩

lemma expandFrom (h : x.Counted) (fuel i : Nat) : (c.expandFrom limit fuel i x).2.Counted := by
  induction fuel generalizing x i with
  | zero => exact h
  | succ fuel ih =>
    unfold Composition.expandFrom
    split
    next => exact h
    next s source hsome =>
      simp only
      split
      · exact h.follow _ _ _
      · exact ih (h.follow _ _ _) _

end Counted

/-! ### The same with a queue -/

/-- The expansion, with the composed states from position `i` on waiting. -/
def waiting (x : Expansion I O r) (i : Nat) : Worklist I O r :=
  ⟨x.transducer, x.stateOf, (x.found.toList.drop i).map Prod.fst⟩

variable {s : ComposedState} {i : Nat} {isFinal : ComposedState → Bool}
  {moves : List (ComposedMove r I O)} {calls : List (Call (Pair I O) r)}

lemma stateFor_of_some {u : StateId} (hs : x.stateOf[s]? = some u) :
    (x.waiting i).stateFor isFinal limit s = .ok (u, x.waiting i) := by
  unfold Worklist.stateFor waiting
  simp only [hs]

lemma stateFor_of_room (hcounted : x.Counted) (hi : i ≤ x.found.size) (hnew : x.stateOf[s]? = none)
    (hroom : x.found.size < limit) : (x.waiting i).stateFor isFinal limit s =
      .ok (x.transducer.nextState, (x.adopt s (isFinal s)).waiting i) := by
  have hqueue : ((x.adopt s (isFinal s)).found.toList.drop i).map Prod.fst =
      (x.found.toList.drop i).map Prod.fst ++ [s] := by
    rw [found_adopt, List.drop_append_of_le_length (by simpa using hi), List.map_append]
    rfl
  unfold Worklist.stateFor waiting
  simp only [hnew, hcounted.stateOf, Nat.not_le.2 hroom, if_false, hqueue]
  rfl

lemma stateFor_of_full (hcounted : x.Counted) (hnew : x.stateOf[s]? = none)
    (hfull : limit ≤ x.found.size) :
    (x.waiting i).stateFor isFinal limit s = .error (.stateLimit limit) := by
  unfold Worklist.stateFor waiting
  simp only [hnew, hcounted.stateOf, hfull, if_true]

lemma edit_addTransition {source target : StateId} (hs : x.transducer.contains source)
    (ht : x.transducer.contains target) (m : ComposedMove r I O) :
    (x.waiting i).edit (addTransition source target m.label m.weight) =
      .ok (x.transducer.nextTransition, (x.link source target m).waiting i) := by
  unfold Worklist.edit waiting
  simp only [addTransition_of_contains hs ht]
  rfl

lemma follow_cons {w w' w'' : Worklist I O r} {m : ComposedMove r I O} {source target : StateId}
    {t : TransitionId} (hfor : w.stateFor isFinal limit m.target = .ok (target, w'))
    (hedit : w'.edit (addTransition source target m.label m.weight) = .ok (t, w''))
    (later : Unit → LazyList (ComposedMove r I O)) :
    Worklist.follow isFinal limit source (.cons m later) w =
      Worklist.follow isFinal limit source (later ()) w'' := by
  rw [Worklist.follow, hfor]
  change (w'.edit _ >>= _) = _
  rw [hedit]
  rfl

lemma follow_cons_error {w : Worklist I O r} {m : ComposedMove r I O} {source : StateId}
    {cause : Error} (hfor : w.stateFor isFinal limit m.target = .error cause)
    (later : Unit → LazyList (ComposedMove r I O)) :
    Worklist.follow isFinal limit source (.cons m later) w = .error cause := by
  rw [Worklist.follow, hfor]
  rfl

/-- The moves out of one composed state are followed alike: no edit fails. -/
lemma follow_waiting (h : x.Follows c limit moves calls) (hcounted : x.Counted)
    (hfull : x.isFull = false) (hi : i ≤ x.found.size) {source : StateId}
    (hs : x.stateOf[s]? = some source) (later : LazyList (ComposedMove r I O))
    (hlater : ∀ m ∈ later.toList, m.source = s ∧ c.Reachable m.target) :
    Worklist.follow c.isFinal limit source later (x.waiting i) =
      if (x.follow c.isFinal limit source later).isFull then .error (.stateLimit limit)
      else .ok ((x.follow c.isFinal limit source later).waiting i) := by
  induction later generalizing x moves calls with
  | nil =>
    change _ = if x.isFull then _ else _
    rw [hfull]
    rfl
  | cons m rest ih =>
    obtain ⟨rfl, hreachable⟩ := hlater m (by simp)
    have hrest : ∀ m' ∈ (rest ()).toList, m'.source = m.source ∧ c.Reachable m'.target :=
      fun m' hm' => hlater m' (by simp [hm'])
    unfold Expansion.follow
    split
    next target htarget =>
      have hedit := edit_addTransition (i := i) (h.contains hs) (h.contains htarget) m
      rw [follow_cons (stateFor_of_some htarget) hedit]
      exact ih () (h.link hs htarget) (hcounted.link source target m) hfull hi hs hrest
    next hnew =>
      split
      next hroom =>
        have hadopted := h.adopt hfull hroom hreachable hnew
        have hsource := stateOf_adopt_of_some hnew hs (c.isFinal m.target)
        have htarget : (x.adopt m.target (c.isFinal m.target)).stateOf[m.target]? =
            some x.transducer.nextState := by rw [stateOf_adopt, if_pos rfl]
        have hedit := edit_addTransition (i := i) (hadopted.contains hsource)
          (hadopted.contains htarget) m
        have hi' : i ≤ (x.adopt m.target (c.isFinal m.target)).found.size := by
          change i ≤ (x.found.push _).size
          rw [Array.size_push]
          omega
        rw [follow_cons (stateFor_of_room hcounted hi hnew hroom) hedit]
        exact ih () (hadopted.link hsource htarget) ((hcounted.adopt hnew _).link _ _ m) hfull hi'
          hsource hrest
      next hroom =>
        -- the limit is met at the same move on both sides
        rw [follow_cons_error (stateFor_of_full hcounted hnew (Nat.le_of_not_lt hroom))]
        rfl

lemma expandFrom_of_none (hnone : x.found[i]? = none) (fuel : Nat) :
    c.expandFrom limit fuel i x = (i, x) := by
  cases fuel with
  | zero => rfl
  | succ fuel => rw [Composition.expandFrom, hnone]

lemma workOff_of_none (hnone : x.found[i]? = none) (rounds : Nat) :
    c.workOff limit rounds (x.waiting i) = some (.ok (x.waiting i)) := by
  have hqueue : (x.waiting i).queue = [] := by
    change (x.found.toList.drop i).map Prod.fst = []
    rw [List.drop_eq_nil_of_le (by simpa using hnone)]
    rfl
  rw [Composition.workOff, hqueue]

lemma workOff_succ {source : StateId} (hat : x.found[i]? = some (s, source))
    (hs : x.stateOf[s]? = some source) (rounds : Nat) :
    c.workOff limit (rounds + 1) (x.waiting i) =
      match Worklist.follow c.isFinal limit source (c.moves s) (x.waiting (i + 1)) with
      | .error cause => some (.error cause)
      | .ok w => c.workOff limit rounds w := by
  have hqueue : (x.waiting i).queue = s :: (x.waiting (i + 1)).queue := by
    have hat' : x.found.toList[i]? = some (s, source) := by simpa using hat
    change (x.found.toList.drop i).map Prod.fst = _
    rw [List.drop_eq_getElem?_toList_append, hat']
    rfl
  have hknown : (x.waiting i).stateOf[s]? = some source := hs
  rw [Composition.workOff, hqueue]
  simp only [hknown]
  rfl

/-- **Enough rounds lead to an empty queue or to the limit**, and how many more there may be does
not matter. -/
lemma workOff_waiting {rounds fuel : Nat}
    (h : x.Follows c limit (movesOut c (x.found.toList.take i)) calls) (hcounted : x.Counted)
    (hfull : x.isFull = false) (hrounds : max 1 limit ≤ i + rounds)
    (hfuel : max 1 limit ≤ i + fuel) :
    c.workOff limit rounds (x.waiting i) =
      some (if (c.expandFrom limit fuel i x).2.isFull then .error (.stateLimit limit)
        else .ok ((c.expandFrom limit fuel i x).2.waiting (c.expandFrom limit fuel i x).1)) := by
  induction rounds generalizing x i calls fuel with
  -- both loops are given rounds enough, so neither stops for lack of them
  | zero =>
    have hnone : x.found[i]? = none := Array.getElem?_eq_none (h.size.trans hrounds)
    rw [workOff_of_none hnone, expandFrom_of_none hnone, hfull]
    rfl
  | succ rounds ih =>
    cases hat : x.found[i]? with
    | none =>
      rw [workOff_of_none hat, expandFrom_of_none hat, hfull]
      rfl
    | some p =>
      obtain ⟨s, source⟩ := p
      have hlt : i < x.found.size := (Array.getElem?_eq_some_iff.1 hat).1
      have hsize := h.size
      have hmem : (s, source) ∈ x.found.toList := Array.mem_toList_iff.2 (Array.mem_of_getElem? hat)
      have hs := (h.stateOf s source).2 hmem
      have hmoves : ∀ m ∈ (c.moves s).toList, m.source = s ∧ c.Reachable m.target :=
        fun m hm => ⟨Composition.source_eq_of_mem_moves hm, (h.reachable s source hmem).move hm⟩
      obtain ⟨fuel, rfl⟩ : ∃ n, fuel = n + 1 := Nat.exists_eq_succ_of_ne_zero (by omega : fuel ≠ 0)
      obtain ⟨followed, calls', hy, hall⟩ := h.round hfull hat
      have hcounted' : (x.follow c.isFinal limit source (c.moves s)).Counted :=
        hcounted.follow c.isFinal source (c.moves s)
      rw [workOff_succ hat hs, follow_waiting h hcounted hfull hlt hs _ hmoves,
        Composition.expandFrom, hat]
      set y := x.follow c.isFinal limit source (c.moves s)
      simp only
      by_cases hyfull : y.isFull
      · rw [if_pos hyfull, if_pos hyfull, if_pos hyfull]
      · have hroom : y.isFull = false := Bool.eq_false_iff.2 hyfull
        rw [hall hroom] at hy
        rw [if_neg hyfull, if_neg hyfull]
        exact ih hy hcounted' hroom (by omega) (by omega)

/-! ### The composed states found are counted -/

lemma encard_found (h : x.Follows c limit moves calls) :
    {s | s ∈ x.found.toList.map Prod.fst}.encard = x.found.size := by
  have hset : {s | s ∈ x.found.toList.map Prod.fst} =
      ((x.found.toList.map Prod.fst).toFinset : Set ComposedState) := by
    ext s
    simp
  rw [hset, Set.encard_coe_eq_coe_finsetCard, List.toFinset_card_of_nodup h.distinct,
    List.length_map, Array.length_toList]

lemma found_subset (h : x.Follows c limit moves calls) :
    {s | s ∈ x.found.toList.map Prod.fst} ⊆ {s | c.Reachable s} := by
  intro s hs
  obtain ⟨⟨s, u⟩, hp, rfl⟩ := List.mem_map.1 hs
  exact h.reachable s u hp

/-- A full expansion has found as many composed states as the limit admits, and one more can be
reached. -/
lemma lt_encard_of_full (h : x.Follows c limit moves calls) (hfull : x.isFull) :
    ((max 1 limit : ℕ) : ℕ∞) < {s | c.Reachable s}.encard := by
  -- a state that was turned away is reachable and has not been counted
  obtain ⟨hlimit, s, hs, hnew⟩ := h.full hfull
  have hstart := Array.mem_toList_iff.1 ((h.stateOf _ _).1 h.start)
  have hpos : 0 < x.found.size := Array.size_pos_of_mem hstart
  have hfresh : s ∉ {s | s ∈ x.found.toList.map Prod.fst} := by
    intro hc
    obtain ⟨⟨s, u⟩, hp, rfl⟩ := List.mem_map.1 hc
    rw [(h.stateOf s u).2 hp] at hnew
    cases hnew
  have hmore : insert s {s | s ∈ x.found.toList.map Prod.fst} ⊆ {s | c.Reachable s} :=
    Set.insert_subset hs (found_subset h)
  have hcard := Set.encard_le_encard hmore
  rw [Set.encard_insert_of_notMem hfresh, encard_found h] at hcard
  refine lt_of_lt_of_le ?_ hcard
  exact_mod_cast Nat.lt_succ_of_le (Nat.max_le.2 ⟨hpos, hlimit⟩)

lemma encard_eq (h : x.Follows c limit (movesOut c x.found.toList) calls) :
    {s | c.Reachable s}.encard = x.found.size := by
  rw [← encard_found h]
  congr 1
  refine Set.Subset.antisymm (fun s hs => ?_) (found_subset h)
  obtain ⟨u, hu⟩ := h.exists_stateOf hs
  exact List.mem_map.2 ⟨(s, u), (h.stateOf s u).1 hu, rfl⟩

end Expansion

namespace Composition

/-- **Exactly a composition that is too large is refused.** -/
lemma materialize_error_iff (c : Composition A B r) (limits : Limits) {cause : Error} :
    c.materialize limits = .error cause ↔ cause = .stateLimit limits.maxStates ∧
      ((max 1 limits.maxStates : ℕ) : ℕ∞) < {s | c.Reachable s}.encard := by
  obtain ⟨moves, calls, hfollows, hall⟩ := Expansion.exists_follows c limits.maxStates
  unfold materialize
  simp only
  split
  next hfull =>
    have hlarge := Expansion.lt_encard_of_full hfollows hfull
    simp [hlarge, eq_comm]
  next hroom =>
    rw [hall (Bool.eq_false_iff.2 hroom)] at hfollows
    have hsmall : ¬ ((max 1 limits.maxStates : ℕ) : ℕ∞) < {s | c.Reachable s}.encard := by
      rw [Expansion.encard_eq hfollows, not_lt]
      exact_mod_cast hfollows.size
    simp [hsmall]

/-- A transducer that is handed out has one state for each composed state that can be reached. -/
lemma stateCount_of_materialize {limits : Limits} {t : Transducer r I O}
    (ht : c.materialize limits = .ok t) :
    (t.stateCount : ℕ∞) = {s | c.Reachable s}.encard ∧ t.stateCount ≤ max 1 limits.maxStates := by
  obtain ⟨moves, calls, hfollows, hall⟩ := Expansion.exists_follows c limits.maxStates
  have hcounted : (c.expand limits.maxStates).2.Counted :=
    (Expansion.Counted.initial c.start (c.isFinal c.start)).expandFrom _ _
  unfold materialize at ht
  simp only at ht
  split at ht
  next => cases ht
  next hroom =>
    rw [hall (Bool.eq_false_iff.2 hroom)] at hfollows
    cases ht
    rw [hcounted.states, Expansion.encard_eq hfollows]
    exact ⟨rfl, hfollows.size⟩

lemma worklist_eq (c : Composition A B r) :
    c.worklist = .ok ((Expansion.initial c.start (c.isFinal c.start)).waiting 0) := by
  unfold worklist
  cases c.isFinal c.start <;> rfl

/-- The expansion with a queue comes to an end, and to the same. -/
lemma materializeWithin_eq (c : Composition A B r) (limits : Limits) {rounds : Nat}
    (hrounds : max 1 limits.maxStates ≤ rounds) :
    c.materializeWithin rounds limits = some (c.materialize limits) := by
  have hinitial := Expansion.Follows.initial c limits.maxStates
  have hcounted := Expansion.Counted.initial (I := I) (O := O) (r := r) c.start (c.isFinal c.start)
  unfold materializeWithin
  rw [worklist_eq]
  simp only
  rw [Expansion.workOff_waiting hinitial hcounted rfl (by omega) (Nat.zero_add _).ge]
  unfold materialize expand
  simp only
  split <;> rfl

/-- **Materialization comes to an end, and gives one state for each composed state that can be
reached, or else names the limit because there are more of these than it admits.** The start is
there under any limit, so a limit of no states admits it as well. -/
theorem materialize_limited (c : Composition A B r) (limits : Limits) :
    (∀ rounds, max 1 limits.maxStates ≤ rounds →
      c.materializeWithin rounds limits = some (c.materialize limits)) ∧
    (∀ cause, c.materialize limits = .error cause ↔ cause = .stateLimit limits.maxStates ∧
      ((max 1 limits.maxStates : ℕ) : ℕ∞) < {s | c.Reachable s}.encard) ∧
    ∀ t, c.materialize limits = .ok t →
      (t.stateCount : ℕ∞) = {s | c.Reachable s}.encard ∧ t.stateCount ≤ max 1 limits.maxStates :=
  ⟨fun _ => c.materializeWithin_eq limits, fun _ => c.materialize_error_iff limits,
    fun _ => stateCount_of_materialize⟩

lemma reachable_silentLoop :
    {s | silentLoop.Reachable s} = {silentLoop.start, ⟨⟨0, 0⟩, ⟨0, 0⟩, .moveOuter⟩} := by
  have hmoves := moves_silentLoop
  refine Set.Subset.antisymm (fun s hs => ?_) ?_
  · induction hs with
    | start => exact Set.mem_insert ..
    | move _ hm ih =>
      rw [hmoves _ (by simpa using ih), List.mem_singleton] at hm
      rw [hm]
      exact Set.mem_insert_of_mem _ rfl
  · rintro s (rfl | rfl)
    · exact .start
    · exact .move .start (hmoves silentLoop.start List.mem_cons_self ▸ List.mem_cons_self)

/-- Two states can be reached: a limit of two admits them, a limit of one does not. -/
theorem materialize_limited_silentLoop :
    (∃ t, silentLoop.materialize ⟨0, 0, 2⟩ = .ok t ∧ t.stateCount = 2) ∧
      silentLoop.materialize ⟨0, 0, 1⟩ = .error (.stateLimit 1) := by
  have htwo : {s | silentLoop.Reachable s}.encard = 2 := by
    rw [reachable_silentLoop]
    exact Set.encard_pair (by decide)
  obtain ⟨t, ht⟩ := materialize_silentLoop
  have hcount := ((materialize_limited silentLoop ⟨0, 0, 2⟩).2.2 t ht).1
  rw [htwo] at hcount
  refine ⟨⟨t, ht, by exact_mod_cast hcount⟩, ?_⟩
  refine ((materialize_limited silentLoop ⟨0, 0, 1⟩).2.1 _).2 ⟨rfl, ?_⟩
  rw [htwo]
  decide

def loneStart : Composition Pair Pair .probability := ⟨.new, .new⟩

/-- A limit of no states does not keep the start out. -/
theorem materialize_loneStart : ((0 : ℕ) : ℕ∞) < {s | loneStart.Reachable s}.encard ∧
    ∃ t, loneStart.materialize ⟨0, 0, 0⟩ = .ok t ∧ t.stateCount = 1 := by
  have hmoves : (loneStart.moves loneStart.start).toList = [] := by decide +kernel
  have hstart : {s | loneStart.Reachable s} = {loneStart.start} := by
    refine Set.Subset.antisymm (fun s hs => ?_) (Set.singleton_subset_iff.2 .start)
    induction hs with
    | start => rfl
    | move _ hm ih =>
      rw [Set.mem_singleton_iff.1 ih, hmoves] at hm
      cases hm
  have hone : {s | loneStart.Reachable s}.encard = 1 := by rw [hstart, Set.encard_singleton]
  refine ⟨by rw [hone]; decide, ?_⟩
  cases ht : loneStart.materialize ⟨0, 0, 0⟩ with
  | error cause =>
    have hlarge := ((materialize_error_iff loneStart ⟨0, 0, 0⟩).1 ht).2
    rw [hone] at hlarge
    exact absurd hlarge (by decide)
  | ok t =>
    have hcount := (stateCount_of_materialize ht).1
    rw [hone] at hcount
    exact ⟨t, rfl, by exact_mod_cast hcount⟩

end Composition

end WeightedAutomata
