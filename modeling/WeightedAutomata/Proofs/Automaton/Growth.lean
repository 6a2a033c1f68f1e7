import WeightedAutomata.Proofs.Automaton.Agreement

/-!
Automata that have the transitions of another one and some more.
-/

namespace WeightedAutomata

variable {L I O : Type} {r : Range} [LabelOver L I O] [Alphabet I] [Alphabet O]

/-- The automaton `b` has the transitions of `a` and some more. -/
structure Grown (a b : Automaton L r I O) (added : List (Transition L r)) : Prop where
  /-- The transitions of before are in force under their handles as they were, and no others but
  those added. -/
  transitions : ∀ i t, b.transition? i = some t ↔ a.transition? i = some t ∨ t ∈ added ∧ t.id = i
  unused : ∀ t ∈ added, a.transition? t.id = none
  nodup : (added.map Transition.id).Nodup
  /-- The transitions that are added to a state come after those it had. -/
  outgoing : ∀ s, b.contains s → (b.transitionsFrom s).toList =
    (a.transitionsFrom s).toList ++ added.filter (·.source = s)

namespace Automaton

variable {a b : Automaton L r I O} {ts added : List (Transition L r)}

lemma Consistent.grown (ha : Consistent a ts) (hb : Consistent b (ts ++ added)) :
    Grown a b added := by
  have hslots := hb.slots
  rw [slotsOf, List.map_append, List.nodup_append] at hslots
  refine {
    transitions := fun i t => by rw [hb.inForce, ha.inForce, List.mem_append, or_and_right]
    unused := fun t ht => ?_
    nodup := List.Nodup.of_map Handle.index (by rw [List.map_map]; exact hslots.2.1)
    outgoing := fun s hs => ?_ }
  · rw [Option.eq_none_iff_forall_ne_some]
    -- a new transition has a slot of its own, so its handle meant nothing before
    intro u hu
    obtain ⟨hmem, hid⟩ := (ha.inForce _ _).1 hu
    exact hslots.2.2 _ (List.mem_map_of_mem hmem) _ (List.mem_map_of_mem ht) (by rw [hid])
  · rw [hb.toList_transitionsFrom hs, List.filter_append]
    by_cases has : a.contains s
    · rw [ha.toList_transitionsFrom has]
    · have hnone : ts.filter (·.source = s) = [] := by
        rw [List.filter_eq_nil_iff]
        intro t ht hsource
        exact has (of_decide_eq_true hsource ▸ ha.source t ht)
      rw [hnone, toList_transitionsFrom_of_not_contains has]

end Automaton

end WeightedAutomata
