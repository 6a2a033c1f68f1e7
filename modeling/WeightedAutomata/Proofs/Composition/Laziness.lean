import WeightedAutomata.Proofs.Composition.Materialization
import WeightedAutomata.Proofs.Walk.Image

/-!
A walker cannot tell a composition from its materialization.

The states of a materialized composition are the images of the composed states that can be reached,
and each lists the moves out of its composed state in their order. So the one machine is an image of
the other, whatever the moves are and however large the limit was.
-/

namespace WeightedAutomata.Composition

variable {A B I M O : Type} {r : Range} [LabelOver A I M] [LabelOver B M O]
  [Alphabet I] [Alphabet M] [Alphabet O] {c : Composition A B r}

lemma ReachablePart.image {t : Transducer r I O} {f : ComposedState → StateId}
    (h : c.ReachablePart t f) : c.machine.Image t.machine f c.Reachable where
  start := h.start
  known_start := .start
  isFinal := h.isFinal
  arcs s hs := by
    change ((t.transitionsFrom (f s)).map Transition.arc).toList =
      (((c.moves s).map ComposedMove.arc).toList).map (Arc.map f)
    rw [LazyList.toList_map, LazyList.toList_map, h.moves s hs, List.map_map]
    rfl
  known_target s hs x hx := by
    change x ∈ ((c.moves s).map ComposedMove.arc).toList at hx
    rw [LazyList.toList_map] at hx
    obtain ⟨m, hm, rfl⟩ := List.mem_map.1 hx
    exact .move hs hm

/-- **A walker cannot tell a composition from its materialization.** Call by call, both walks give
the same path or none, after equally many arcs, and report the same of whether a path was cut. -/
theorem walks_agree (c : Composition A B r) {limits : Limits} {t : Transducer r I O}
    (ht : c.materialize limits = .ok t) (walkLimits : Limits) (n : Nat) :
    Walk.result t.machine walkLimits n (.begin t.machine) =
        Walk.result c.machine walkLimits n (.begin c.machine) ∧
      Walk.pulls t.machine walkLimits (Walk.after t.machine walkLimits n (.begin t.machine)) =
        Walk.pulls c.machine walkLimits (Walk.after c.machine walkLimits n (.begin c.machine)) ∧
      (Walk.after t.machine walkLimits n (.begin t.machine)).isTruncated =
        (Walk.after c.machine walkLimits n (.begin c.machine)).isTruncated := by
  obtain ⟨x, calls, rfl, hfollows⟩ := follows_of_materialize ht
  exact Walk.calls_image hfollows.reachablePart.image walkLimits n

/-- The loop is cut after one symbol, and the third call says so. -/
theorem walks_agree_silentLoop :
    ∃ t, silentLoop.materialize ⟨0, 0, 2⟩ = .ok t ∧
      Walk.result t.machine ⟨1, 5, 0⟩ 1 (.begin t.machine) =
        some ⟨#[⟨.concrete "a", .epsilon⟩], 1⟩ ∧
      (Walk.after t.machine ⟨1, 5, 0⟩ 2 (.begin t.machine)).isTruncated = false ∧
      Walk.result t.machine ⟨1, 5, 0⟩ 2 (.begin t.machine) = none ∧
      (Walk.after t.machine ⟨1, 5, 0⟩ 3 (.begin t.machine)).isTruncated = true := by
  obtain ⟨t, ht⟩ := materialize_silentLoop
  have hagree := walks_agree silentLoop ht ⟨1, 5, 0⟩
  refine ⟨t, ht, ?_, ?_, ?_, ?_⟩
  · rw [(hagree 1).1]
    decide +kernel
  · rw [(hagree 2).2.2]
    decide +kernel
  · rw [(hagree 2).1]
    decide +kernel
  · rw [(hagree 3).2.2]
    decide +kernel

end WeightedAutomata.Composition
