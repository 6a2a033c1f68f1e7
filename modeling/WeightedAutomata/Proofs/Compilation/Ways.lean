import WeightedAutomata.Proofs.Compilation.Derivation
import WeightedAutomata.Proofs.Compilation.Layout
import Mathlib.Algebra.BigOperators.Ring.Multiset

/-!
What runs through a layout.

The bags of paths from the states of an automaton solve a system of equations, one for each state:
a path takes one of the state's arcs and goes on from its target. Any solution on the states of a
layout says the same about its open ends: what leads in, with the right ends tied to some state, is
the bag of derivations times what leads on from there.
-/

namespace WeightedAutomata

open Bag Compilation Fragment Spelling

variable {L I O : Type} {r : Range} [LabelOver L I O] {K : Type} [CommMonoid K] (κ : Weight r →* K)

/-! ### Systems of equations -/

/-- The bag of paths along some arcs, given the bags of paths from their targets. -/
def total (X : StateId → Bag (Spelling L K)) (arcs : Multiset (Arc StateId L r)) :
    Bag (Spelling L K) :=
  (arcs.map fun x => single (Spelling.arc κ x.label x.weight) * X x.target).sum

variable {κ} {X : StateId → Bag (Spelling L K)}

lemma total_add (as bs : Multiset (Arc StateId L r)) :
    total κ X (as + bs) = total κ X as + total κ X bs := by
  unfold total
  rw [Multiset.map_add, Multiset.sum_add]

lemma total_singleton (x : Arc StateId L r) :
    total κ X {x} = single (Spelling.arc κ x.label x.weight) * X x.target := by
  unfold total
  rw [Multiset.map_singleton, Multiset.sum_singleton]

lemma single_factor_comm (c : Weight r) (a : Bag (Spelling L K)) :
    single (factor κ c) * a = a * single (factor κ c) :=
  single_mul_comm (factor_mul_comm κ c) a

lemma single_factor_one : (single (factor κ 1) : Bag (Spelling L K)) = 1 :=
  congrArg (fun k => (single ((1, k) : Spelling L K))) (map_one κ)

lemma single_factor_mul (w c : Weight r) : (single (factor κ (w * c)) : Bag (Spelling L K)) =
    single (factor κ c) * single (factor κ w) := by
  rw [factor_mul, ← single_mul_single, single_factor_comm]

lemma total_leads_scale (f : Fragment L r) (c : Weight r) (target : StateId) :
    total κ X ((f.scale c).leads target) =
      single (factor κ c) * total κ X (f.leads target) := by
  unfold total
  rw [leads_scale, Multiset.map_map, ← Multiset.sum_map_mul_left]
  refine congrArg Multiset.sum (Multiset.map_congr rfl fun x _ => ?_)
  change single (Spelling.arc κ x.label (x.weight * c)) * X x.target = _
  rw [arc_mul, ← single_mul_single, ← single_factor_comm, mul_assoc]

variable (d : LogDomain)

/-- A state from which a body leads back to it is left after any number of passes. -/
lemma hub_eq {e : Expr L} {g : Fragment L r} {hub : StateId} {rest : Bag (Spelling L K)}
    (hbody : total κ X (g.leads hub) = derivations κ d e * X hub)
    (hhub : X hub = total κ X ((g.scale (decision d e).1).leads hub) + rest) :
    X hub = repeated (pass κ d e) * rest := by
  rw [total_leads_scale, hbody, ← mul_assoc, derivations, single_mul_of] at hhub
  refine eq_repeated_mul length_mul (fun x => ?_) hhub
  rw [pass, length_mul]
  exact Nat.add_pos_right _ (Derivation.length_labels_pos e x)

/-! ### Layouts -/

/-- **The ways through a layout are the derivations.** -/
lemma Layout.total_leads {e : Expr L} {w : Weight r} {f : Fragment L r} {N : Set StateId}
    {arcs : StateId → Multiset (Arc StateId L r)} (h : Layout d e w f N arcs) (target : StateId)
    (hX : ∀ s ∈ N, X s = total κ X (f.out arcs target s)) :
    total κ X (f.leads target) = derivations κ d e * single (factor κ w) * X target := by
  -- a solution on the whole solves each part, with its right ends tied to where the next one begins
  induction h generalizing target with
  | epsilon =>
    rw [single_factor_one, mul_one, derivations_epsilon]
    exact total_singleton _
  | token l =>
    rw [single_factor_one, mul_one, derivations_token]
    exact total_singleton _
  | weighted v h ih =>
    rw [derivations_weighted]
    exact ih target hX
  | scaled w h ih =>
    rw [total_leads_scale, ih target hX, single_factor_one, mul_one, ← mul_assoc,
      single_factor_comm]
  | @alt e e' w f g N N' arcs arcs' hf hg hdisjoint ihf ihg =>
    obtain ⟨hleft, hright⟩ := hf.enclosed.sides hg.enclosed hdisjoint target target
    have hfX : ∀ s ∈ N, X s = total κ X (f.out arcs target s) := fun s hs => by
      rw [hX s (Or.inl hs), out_merge, hleft s hs]
    have hgX : ∀ s ∈ N', X s = total κ X (g.out arcs' target s) := fun s hs => by
      rw [hX s (Or.inr hs), out_merge, hright s hs]
    rw [leads_merge, total_add, ihf target hfX, ihg target hgX, derivations_alt]
    simp only [single_factor_mul, add_mul, mul_assoc]
  | @concat e e' f g N N' arcs arcs' junction hf hg hdisjoint hN hN' ihf ihg =>
    obtain ⟨hfirst, hsecond, hbetween⟩ :=
      hf.enclosed.parts hg.enclosed hdisjoint hN hN' junction target (g.leads target)
    have hfX : ∀ s ∈ N, X s = total κ X (f.out arcs junction s) := fun s hs => by
      rw [hX s (Or.inl (Or.inl hs)), out_through, hfirst s hs]
    have hgX : ∀ s ∈ N', X s = total κ X (g.out arcs' target s) := fun s hs => by
      rw [hX s (Or.inl (Or.inr hs)), out_through, hsecond s hs]
    have hjunction : X junction = total κ X (g.leads target) := by
      rw [hX junction (Or.inr rfl), out_through, hbetween]
    rw [leads_through, ihf junction hfX, hjunction, ihg target hgX, derivations_concat]
    simp only [single_factor_one, mul_one, mul_assoc]
  | @kleene e g N arcs hub hg hN ih =>
    obtain ⟨hbody, hbetween⟩ := hg.enclosed.hub_parts hN hub
      ((g.scale (decision d e).1).leads hub + {⟨target, Label.epsilon, (decision d e).2⟩})
    have hgX : ∀ s ∈ N, X s = total κ X (g.out arcs hub s) := fun s hs => by
      rw [hX s (Or.inl hs), out_around, hbody s hs]
    have hhub := hX hub (Or.inr rfl)
    rw [out_around, hbetween, total_add, total_singleton] at hhub
    have hpass := ih hub hgX
    rw [single_factor_one, mul_one] at hpass
    rw [leads_around, total_singleton, hub_eq d hpass hhub, derivations_kleene, single_factor_one,
      mul_one, mul_assoc, mul_assoc]
  | @positive e f g N N' arcs arcs' hub hf hg hdisjoint hN hN' ihf ihg =>
    obtain ⟨hfirst, hbody, hbetween⟩ := hf.enclosed.parts hg.enclosed hdisjoint hN hN' hub hub
      ((g.scale (decision d e).1).leads hub + {⟨target, Label.epsilon, (decision d e).2⟩})
    have hfX : ∀ s ∈ N, X s = total κ X (f.out arcs hub s) := fun s hs => by
      rw [hX s (Or.inl (Or.inl hs)), out_onto, hfirst s hs]
    have hgX : ∀ s ∈ N', X s = total κ X (g.out arcs' hub s) := fun s hs => by
      rw [hX s (Or.inl (Or.inr hs)), out_onto, hbody s hs]
    have hhub := hX hub (Or.inr rfl)
    rw [out_onto, hbetween, total_add, total_singleton] at hhub
    have hpass := ihg hub hgX
    rw [single_factor_one, mul_one] at hpass
    rw [leads_onto, ihf hub hfX, hub_eq d hpass hhub, derivations_positive, single_factor_one,
      mul_one, mul_one, mul_assoc, mul_assoc]
  | @optional e f N arcs h ih =>
    rw [leads_optional, total_add, total_leads_scale, ih target hX, total_singleton,
      derivations_optional, single_factor_one, mul_one, mul_one, ← mul_assoc, single_factor_comm,
      add_mul]

end WeightedAutomata
