import WeightedAutomata.Proofs.Composition.Exploration
import Mathlib.Data.Set.Function

/-!
A materialized composition is its reachable part.

An expansion that does not get full has followed all moves out of all composed states it has found,
so it has found all that can be reached. The transitions out of one state are those drawn for the
moves out of one composed state, in their order.
-/

namespace WeightedAutomata

open Automaton

variable {A B I M O : Type} {r : Range} [LabelOver A I M] [LabelOver B M O]
  [Alphabet I] [Alphabet M] [Alphabet O] {c : Composition A B r}

namespace Composition

/-- A transducer is the reachable part of a composition: each composed state that can be reached has
a state of its own, and the transitions of that state are the moves out of it. -/
structure ReachablePart (c : Composition A B r) (t : Transducer r I O)
    (f : ComposedState → StateId) : Prop where
  states : Set.BijOn f {s | c.Reachable s} {u | t.contains u}
  start : f c.start = t.start
  isFinal : ∀ s, c.Reachable s → t.isFinal (f s) = c.isFinal s
  moves : ∀ s, c.Reachable s → (t.transitionsFrom (f s)).toList.map Transition.arc =
    (c.moves s).toList.map fun m => ⟨f m.target, m.label, m.weight⟩
  /-- Each state lists its transitions in the order in which calls have added them, and there are no
  other transitions. -/
  order : ∃ calls : List (Call (Pair I O) r), new.call calls = t ∧
    IndexesAgree t (inOrderAdded calls)

end Composition

namespace Expansion

variable {x : Expansion I O r} {limit : Nat} {calls : List (Call (Pair I O) r)} {s : ComposedState}
  {u : StateId}

/-! ### The moves out of one composed state -/

lemma filter_movesOut_of_not_mem {found : List (ComposedState × StateId)}
    (hs : s ∉ found.map Prod.fst) : (movesOut c found).filter (·.source = s) = [] := by
  rw [List.filter_eq_nil_iff]
  intro m hm hsource
  obtain ⟨p, hp, hm⟩ := List.mem_flatMap.1 hm
  rw [decide_eq_true_eq, Composition.source_eq_of_mem_moves hm] at hsource
  exact hs (hsource ▸ List.mem_map_of_mem hp)

lemma filter_movesOut {found : List (ComposedState × StateId)}
    (hdistinct : (found.map Prod.fst).Nodup) (hs : (s, u) ∈ found) :
    (movesOut c found).filter (·.source = s) = (c.moves s).toList := by
  -- moves are listed state by state, and `s` stands in the list once
  obtain ⟨before, after, rfl⟩ := List.append_of_mem hs
  rw [List.map_append, List.map_cons, List.nodup_append, List.nodup_cons] at hdistinct
  obtain ⟨-, ⟨hafter, -⟩, hbefore⟩ := hdistinct
  have hown : (c.moves s).toList.filter (·.source = s) = (c.moves s).toList := by
    rw [List.filter_eq_self]
    intro m hm
    exact decide_eq_true (Composition.source_eq_of_mem_moves hm)
  have hsplit : movesOut c (before ++ (s, u) :: after) =
      movesOut c before ++ ((c.moves s).toList ++ movesOut c after) := by
    unfold movesOut
    rw [List.flatMap_append, List.flatMap_cons]
  rw [hsplit, List.filter_append, List.filter_append, hown, filter_movesOut_of_not_mem hafter,
    filter_movesOut_of_not_mem fun hc => hbefore s hc s List.mem_cons_self rfl]
  simp

lemma map_eq_map_of_forall₂ {α β γ : Type} {f : α → γ} {g : β → γ} {l : List α} {l' : List β}
    (h : List.Forall₂ (fun a b => f a = g b) l l') : l.map f = l'.map g := by
  rw [← List.forall₂_eq_eq_eq, List.forall₂_map_left_iff, List.forall₂_map_right_iff]
  exact h

namespace Follows

variable (h : x.Follows c limit (movesOut c x.found.toList) calls)
include h

lemma draws_transitionsFrom (hs : x.stateOf[s]? = some u) :
    List.Forall₂ (Draws x.stateOf) (c.moves s).toList (x.transducer.transitionsFrom u).toList := by
  have hfound := (h.stateOf s u).1 hs
  rw [h.consistent.toList_transitionsFrom (h.contains hs), ← filter_movesOut h.distinct hfound]
  refine List.rel_filter (fun m t hdraws => ?_) h.drawn
  simp only [decide_eq_true_eq]
  -- a transition stands for a move from `s` exactly if it leaves the state of `s`
  constructor
  · rintro rfl
    exact Option.some.inj (hdraws.source.symm.trans hs)
  · rintro rfl
    have hsource := (h.stateOf _ _).1 hdraws.source
    exact congrArg Prod.fst (List.inj_on_of_nodup_map h.apart hsource hfound rfl)

/-! ### The composed states found are those that can be reached -/

lemma exists_stateOf (hs : c.Reachable s) : ∃ u, x.stateOf[s]? = some u := by
  induction hs with
  | start => exact ⟨_, h.start⟩
  | move hs hm ih =>
    obtain ⟨u, hu⟩ := ih
    have htargets := map_eq_map_of_forall₂ ((h.draws_transitionsFrom hu).imp fun m t hdraws =>
      (hdraws.target : x.stateOf[m.target]? = some t.target))
    obtain ⟨t, -, ht⟩ := List.mem_map.1 (htargets ▸ List.mem_map_of_mem hm)
    exact ⟨t.target, ht.symm⟩

lemma stateOf_getD (hs : c.Reachable s) :
    x.stateOf[s]? = some (x.stateOf[s]?.getD x.transducer.start) := by
  obtain ⟨u, hu⟩ := h.exists_stateOf hs
  rw [hu]
  rfl

lemma bijOn : Set.BijOn (fun s => x.stateOf[s]?.getD x.transducer.start) {s | c.Reachable s}
    {u | x.transducer.contains u} := by
  refine ⟨fun s hs => h.contains (h.stateOf_getD hs), fun s hs s' hs' heq => ?_, fun u hu => ?_⟩
  · have hfound := (h.stateOf _ _).1 (h.stateOf_getD hs)
    have hfound' := (h.stateOf _ _).1 (h.stateOf_getD hs')
    exact congrArg Prod.fst (List.inj_on_of_nodup_map h.apart hfound hfound' heq)
  · obtain ⟨s, hs⟩ := (h.contains_iff u).1 hu
    refine ⟨s, h.reachable s u hs, ?_⟩
    simp only [(h.stateOf s u).2 hs, Option.getD_some]

lemma isFinal_eq (hs : x.stateOf[s]? = some u) : x.transducer.isFinal u = c.isFinal s := by
  rw [Automaton.isFinal_eq, (h.inForce u _).2 ⟨s, (h.stateOf s u).1 hs, rfl⟩]
  rfl

lemma reachablePart :
    c.ReachablePart x.transducer fun s => x.stateOf[s]?.getD x.transducer.start where
  states := h.bijOn
  start := by rw [h.start]; rfl
  isFinal s hs := h.isFinal_eq (h.stateOf_getD hs)
  moves s hs := by
    refine (map_eq_map_of_forall₂ ?_).symm
    refine (h.draws_transitionsFrom (h.stateOf_getD hs)).imp fun m t hdraws => ?_
    rw [hdraws.target, ← hdraws.label, ← hdraws.weight]
    rfl
  order := ⟨calls, h.built.symm, h.consistent.indexesAgree⟩

end Follows

end Expansion

namespace Composition

/-- Composed states that are closed under moves are enough room. -/
lemma exists_materialize (states : List ComposedState) (hstart : c.start ∈ states)
    (hmoves : ∀ s ∈ states, ∀ m ∈ (c.moves s).toList, m.target ∈ states) {limits : Limits}
    (hroom : states.length ≤ limits.maxStates) : ∃ t, c.materialize limits = .ok t := by
  have hmem : ∀ s, c.Reachable s → s ∈ states := by
    intro s hs
    induction hs with
    | start => exact hstart
    | move _ hm ih => exact hmoves _ ih _ hm
  obtain ⟨moves, calls, hfollows, -⟩ := Expansion.exists_follows c limits.maxStates
  unfold materialize
  simp only
  split
  next hfull =>
    -- one state too many: those that have been found and the one that was turned away
    obtain ⟨hsize, s, hs, hnew⟩ := hfollows.full hfull
    have hnotin : s ∉ (c.expand limits.maxStates).2.found.toList.map Prod.fst := by
      intro hc
      obtain ⟨⟨s, u⟩, hp, rfl⟩ := List.mem_map.1 hc
      rw [(hfollows.stateOf s u).2 hp] at hnew
      cases hnew
    have hsubset : s :: (c.expand limits.maxStates).2.found.toList.map Prod.fst ⊆ states := by
      rw [List.cons_subset]
      refine ⟨hmem s hs, fun s' hs' => ?_⟩
      obtain ⟨⟨s', u⟩, hp, rfl⟩ := List.mem_map.1 hs'
      exact hmem s' (hfollows.reachable s' u hp)
    have hnodup := List.nodup_cons.2 ⟨hnotin, hfollows.distinct⟩
    have hlength := (List.subperm_of_subset hnodup hsubset).length_le
    rw [List.length_cons, List.length_map, Array.length_toList] at hlength
    omega
  next => exact ⟨_, rfl⟩

lemma follows_of_materialize {limits : Limits} {t : Transducer r I O}
    (ht : c.materialize limits = .ok t) :
    ∃ (x : Expansion I O r) (calls : List (Call (Pair I O) r)),
      x.transducer = t ∧
        x.Follows c limits.maxStates (Expansion.movesOut c x.found.toList) calls := by
  obtain ⟨moves, calls, hfollows, hall⟩ := Expansion.exists_follows c limits.maxStates
  unfold materialize at ht
  simp only at ht
  split at ht
  next => cases ht
  next hroom =>
    rw [hall (Bool.eq_false_iff.2 hroom)] at hfollows
    cases ht
    exact ⟨_, calls, rfl, hfollows⟩

/-- **A materialized composition is its reachable part**, nothing lost, merged or added. -/
theorem materialize_reachablePart (c : Composition A B r) {limits : Limits} {t : Transducer r I O}
    (ht : c.materialize limits = .ok t) : ∃ f, c.ReachablePart t f := by
  obtain ⟨x, calls, rfl, hfollows⟩ := follows_of_materialize ht
  exact ⟨_, hfollows.reachablePart⟩

/-- The outer side reads on a loop and writes nothing; the inner side has a loop that is never
taken. -/
def silentLoop : Composition Pair Pair .magnitude where
  outer := new.call
    [.setFinal ⟨0, 0⟩ true, .addTransition ⟨0, 0⟩ ⟨0, 0⟩ ⟨.concrete "a", .epsilon⟩ 1]
  inner := new.call [.setFinal ⟨0, 0⟩ true, .addTransition ⟨0, 0⟩ ⟨0, 0⟩ (.concrete "b" "c") 1]

lemma moves_silentLoop : ∀ s ∈ [silentLoop.start, ⟨⟨0, 0⟩, ⟨0, 0⟩, .moveOuter⟩],
    (silentLoop.moves s).toList =
      [⟨s, ⟨⟨0, 0⟩, ⟨0, 0⟩, .moveOuter⟩, ⟨.concrete "a", .epsilon⟩, 1⟩] := by
  decide +kernel

lemma materialize_silentLoop : ∃ t, silentLoop.materialize ⟨0, 0, 2⟩ = .ok t := by
  have hclosed : ∀ s ∈ [silentLoop.start, ⟨⟨0, 0⟩, ⟨0, 0⟩, .moveOuter⟩],
      ∀ m ∈ (silentLoop.moves s).toList,
        m.target ∈ [silentLoop.start, ⟨⟨0, 0⟩, ⟨0, 0⟩, .moveOuter⟩] := by
    intro s hs m hm
    rw [moves_silentLoop s hs, List.mem_singleton] at hm
    simp [hm]
  exact exists_materialize _ List.mem_cons_self hclosed le_rfl

/-- The start and the loop at the start differ in the filter alone, and are kept apart. -/
theorem materialize_reachablePart_silentLoop :
    ∃ t f, silentLoop.materialize ⟨0, 0, 2⟩ = .ok t ∧ silentLoop.ReachablePart t f ∧
      silentLoop.Reachable ⟨⟨0, 0⟩, ⟨0, 0⟩, .moveOuter⟩ ∧
      f ⟨⟨0, 0⟩, ⟨0, 0⟩, .moveBoth⟩ ≠ f ⟨⟨0, 0⟩, ⟨0, 0⟩, .moveOuter⟩ := by
  obtain ⟨t, ht⟩ := materialize_silentLoop
  obtain ⟨f, hf⟩ := materialize_reachablePart silentLoop ht
  have hloop : silentLoop.Reachable ⟨⟨0, 0⟩, ⟨0, 0⟩, .moveOuter⟩ := by
    have hmove := moves_silentLoop silentLoop.start List.mem_cons_self
    exact .move .start (hmove ▸ List.mem_cons_self)
  refine ⟨t, f, ht, hf, hloop, fun heq => ?_⟩
  have hsame := hf.states.injOn Reachable.start hloop heq
  cases hsame

end Composition

end WeightedAutomata
