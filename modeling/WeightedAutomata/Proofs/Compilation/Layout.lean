import WeightedAutomata.Compilation.Branching
import WeightedAutomata.Proofs.Compilation.OpenEdges
import Mathlib.Tactic.Abel

/-!
How expressions are laid out in an automaton.

A layout relates an expression to the fragment it is built as, the states it has been given and the
arcs between them. There is one way to lay out each kind of expression. What leaves a state is
settled where it was added: later combinations tie its open ends and leave the rest of it alone.
-/

namespace WeightedAutomata

open Automaton Compilation

variable {L I O : Type} {r : Range} [LabelOver L I O]

namespace Fragment

/-! ### Combinations -/

section Combinations

/-- One piece after the other, through a junction. -/
def through (f g : Fragment L r) (junction : StateId) : Fragment L r :=
  ⟨#[], f.entries ++ f.passages.map (·.into junction),
    g.exits ++ g.passages.map (·.outOf junction)⟩

/-- The arcs that are tied where one piece is left and the other entered. -/
def throughArcs (f g : Fragment L r) (junction : StateId) : StateId → Multiset (Arc StateId L r) :=
  exitArcs f.exits junction + Pi.single junction (entryArcs g.entries)

/-- The arcs that are tied where a piece begins and ends at one state. -/
def loopArcs (g : Fragment L r) (hub : StateId) (again : Weight r) :
    StateId → Multiset (Arc StateId L r) :=
  Pi.single hub ((g.scale again).leads hub) + exitArcs g.exits hub

/-- A state that is entered and left by epsilon. -/
def around (hub : StateId) (leave : Weight r) : Fragment L r :=
  ⟨#[], #[⟨Label.epsilon, 1, hub⟩], #[⟨hub, Label.epsilon, leave⟩]⟩

/-- A piece that ends in a state which is left by epsilon. -/
def onto (f : Fragment L r) (hub : StateId) (leave : Weight r) : Fragment L r :=
  ⟨#[], f.entries ++ f.passages.map (·.into hub), #[⟨hub, Label.epsilon, leave⟩]⟩

end Combinations

/-! ### What leads in and what leaves -/

section Ends

variable (f g : Fragment L r) (arcs arcs' : StateId → Multiset (Arc StateId L r))
  (hub target s : StateId)

lemma leads_through (junction : StateId) :
    (f.through g junction).leads target = f.leads junction := by
  rw [← entryArcs_append_into f junction]
  exact zero_add _

lemma out_merge : (f.merge g).out (arcs + arcs') target s =
    f.out arcs target s + g.out arcs' target s := by
  unfold out
  rw [merge, exitArcs_append, Pi.add_apply, Pi.add_apply, add_add_add_comm]

lemma out_through (junction : StateId) :
    (f.through g junction).out (arcs + arcs' + f.throughArcs g junction) target s =
      f.out arcs junction s + g.out arcs' target s +
        (Pi.single junction (g.leads target) : StateId → _) s := by
  unfold out through throughArcs
  rw [exitArcs_append, exitArcs_outOf, leads, Pi.single_add]
  simp only [Pi.add_apply]
  abel

variable (again leave : Weight r)

lemma leads_around : (around hub leave).leads target =
    {(⟨hub, Label.epsilon, 1⟩ : Arc StateId L r)} := zero_add _

lemma leads_onto : (f.onto hub leave).leads target = f.leads hub := by
  rw [← entryArcs_append_into f hub]
  exact zero_add _

lemma leads_optional (take skip : Weight r) : (f.optional take skip).leads target =
    (f.scale take).leads target + {⟨target, Label.epsilon, skip⟩} := by
  unfold Fragment.optional Fragment.addPassage leads passageArcs
  rw [Array.toList_push, List.map_append, ← Multiset.coe_add]
  exact add_right_comm _ _ _

lemma out_around : (around hub leave).out (arcs + g.loopArcs hub again) target s =
    g.out arcs hub s + (Pi.single hub ((g.scale again).leads hub +
      {⟨target, Label.epsilon, leave⟩}) : StateId → _) s := by
  unfold out around loopArcs
  rw [exitArcs_singleton, Pi.single_add]
  simp only [Pi.add_apply]
  abel

lemma out_onto : (f.onto hub leave).out
      (arcs + arcs' + (exitArcs f.exits hub + g.loopArcs hub again)) target s =
    f.out arcs hub s + g.out arcs' hub s + (Pi.single hub ((g.scale again).leads hub +
      {⟨target, Label.epsilon, leave⟩}) : StateId → _) s := by
  unfold out onto loopArcs
  rw [exitArcs_singleton, Pi.single_add]
  simp only [Pi.add_apply]
  abel

end Ends

end Fragment

open Fragment

/-! ### What belongs to a piece -/

/-- The open edges and the arcs of a piece name states of its own only. -/
structure Enclosed (f : Fragment L r) (N : Set StateId)
    (arcs : StateId → Multiset (Arc StateId L r)) : Prop where
  entries : ∀ e ∈ f.entries, e.target ∈ N
  exits : ∀ x ∈ f.exits, x.source ∈ N
  outside : ∀ s, s ∉ N → arcs s = 0
  inside : ∀ s, ∀ x ∈ arcs s, x.target ∈ N

namespace Enclosed

variable {f g : Fragment L r} {N N' : Set StateId}
  {arcs arcs' : StateId → Multiset (Arc StateId L r)} {hub s : StateId}

lemma edge (l : L) (w : Weight r) : Enclosed (.edge l w) ∅ 0 where
  entries e he := absurd he (Array.not_mem_empty e)
  exits x hx := absurd hx (Array.not_mem_empty x)
  outside _ _ := rfl
  inside _ x hx := absurd hx (Multiset.notMem_zero x)

lemma scale (h : Enclosed f N arcs) (w : Weight r) : Enclosed (f.scale w) N arcs where
  entries e he := by
    obtain ⟨e', he', rfl⟩ := Array.mem_map.1 he
    exact h.entries e' he'
  exits := h.exits
  outside := h.outside
  inside := h.inside

lemma merge (hf : Enclosed f N arcs) (hg : Enclosed g N' arcs') :
    Enclosed (f.merge g) (N ∪ N') (arcs + arcs') where
  entries e he := (Array.mem_append.1 he).imp (hf.entries e) (hg.entries e)
  exits x hx := (Array.mem_append.1 hx).imp (hf.exits x) (hg.exits x)
  outside s hs := by
    obtain ⟨hN, hN'⟩ := not_or.1 hs
    rw [Pi.add_apply, hf.outside s hN, hg.outside s hN', add_zero]
  inside s x hx := (Multiset.mem_add.1 hx).imp (hf.inside s x) (hg.inside s x)

lemma exits_eq_zero (h : Enclosed f N arcs) (hs : s ∉ N) (target : StateId) :
    exitArcs f.exits target s = 0 :=
  exitArcs_eq_zero (s := s) (fun x hx hxs => hs (hxs ▸ h.exits x hx)) target

lemma out_eq_zero (h : Enclosed f N arcs) (hs : s ∉ N) (target : StateId) :
    f.out arcs target s = 0 := by
  rw [out, h.outside s hs, h.exits_eq_zero hs, add_zero]

/-- Two pieces have nothing to do with each other: what leaves a state of both leaves it in one. -/
lemma sides (hf : Enclosed f N arcs) (hg : Enclosed g N' arcs') (hdisjoint : Disjoint N N')
    (u v : StateId) : (∀ s ∈ N, f.out arcs u s + g.out arcs' v s = f.out arcs u s) ∧
      ∀ s ∈ N', f.out arcs u s + g.out arcs' v s = g.out arcs' v s := by
  refine ⟨fun s hs => ?_, fun s hs => ?_⟩
  · rw [hg.out_eq_zero (Set.disjoint_left.1 hdisjoint hs), add_zero]
  · rw [hf.out_eq_zero (Set.disjoint_right.1 hdisjoint hs), zero_add]

lemma parts (hf : Enclosed f N arcs) (hg : Enclosed g N' arcs') (hdisjoint : Disjoint N N')
    (hN : hub ∉ N) (hN' : hub ∉ N') (u v : StateId) (between : Multiset (Arc StateId L r)) :
    (∀ s ∈ N, f.out arcs u s + g.out arcs' v s + (Pi.single hub between : StateId → _) s =
      f.out arcs u s) ∧
    (∀ s ∈ N', f.out arcs u s + g.out arcs' v s + (Pi.single hub between : StateId → _) s =
      g.out arcs' v s) ∧
    f.out arcs u hub + g.out arcs' v hub + (Pi.single hub between : StateId → _) hub =
      between := by
  obtain ⟨hleft, hright⟩ := hf.sides hg hdisjoint u v
  refine ⟨fun s hs => ?_, fun s hs => ?_, ?_⟩
  · have hhub : s ≠ hub := fun h => hN (h ▸ hs)
    rw [hleft s hs, Pi.single_eq_of_ne hhub, add_zero]
  · have hhub : s ≠ hub := fun h => hN' (h ▸ hs)
    rw [hright s hs, Pi.single_eq_of_ne hhub, add_zero]
  · rw [hf.out_eq_zero hN, hg.out_eq_zero hN', Pi.single_eq_same, zero_add, zero_add]

lemma hub_parts (hg : Enclosed g N arcs) (hN : hub ∉ N) (u : StateId)
    (between : Multiset (Arc StateId L r)) :
    (∀ s ∈ N, g.out arcs u s + (Pi.single hub between : StateId → _) s = g.out arcs u s) ∧
      g.out arcs u hub + (Pi.single hub between : StateId → _) hub = between := by
  refine ⟨fun s hs => ?_, ?_⟩
  · have hhub : s ≠ hub := fun h => hN (h ▸ hs)
    rw [Pi.single_eq_of_ne hhub, add_zero]
  · rw [hg.out_eq_zero hN, Pi.single_eq_same, zero_add]

lemma mem_of_into (h : Enclosed f N arcs) {e : Entry L r}
    (he : e ∈ f.entries ++ f.passages.map (·.into hub)) : e.target ∈ N ∨ e.target = hub := by
  refine (Array.mem_append.1 he).imp (h.entries e) fun hp => ?_
  obtain ⟨p, -, rfl⟩ := Array.mem_map.1 hp
  rfl

lemma mem_of_leads (h : Enclosed f N arcs) {target : StateId} {x : Arc StateId L r}
    (hx : x ∈ f.leads target) : x.target ∈ N ∨ x.target = target := by
  rcases mem_leads.1 hx with ⟨p, -, rfl⟩ | ⟨e, he, rfl⟩
  · exact Or.inr rfl
  · exact Or.inl (h.entries e he)

lemma through (hf : Enclosed f N arcs) (hg : Enclosed g N' arcs') (junction : StateId) :
    Enclosed (f.through g junction) (N ∪ N' ∪ {junction})
      (arcs + arcs' + f.throughArcs g junction) where
  entries e he := (hf.mem_of_into he).imp_left Or.inl
  exits x hx := by
    rcases Array.mem_append.1 hx with hx | hx
    · exact Or.inl (Or.inr (hg.exits x hx))
    · obtain ⟨p, -, rfl⟩ := Array.mem_map.1 hx
      exact Or.inr rfl
  outside s hs := by
    obtain ⟨hsNN', hs⟩ := not_or.1 hs
    obtain ⟨hsN, hsN'⟩ := not_or.1 hsNN'
    simp only [Pi.add_apply, throughArcs, hf.outside s hsN, hg.outside s hsN',
      hf.exits_eq_zero hsN, Pi.single_eq_of_ne hs, add_zero]
  inside s x hx := by
    simp only [Pi.add_apply, throughArcs, Multiset.mem_add, mem_single, mem_exitArcs,
      mem_entryArcs] at hx
    -- an arc is one of the parts' own, or it was an open edge that is tied to the junction now
    rcases hx with (hx | hx) | ⟨y, -, -, rfl⟩ | ⟨-, e, he, rfl⟩
    · exact Or.inl (Or.inl (hf.inside s x hx))
    · exact Or.inl (Or.inr (hg.inside s x hx))
    · exact Or.inr rfl
    · exact Or.inl (Or.inr (hg.entries e he))

lemma loop (hg : Enclosed g N arcs) (hub : StateId) (again : Weight r) :
    (∀ s, s ∉ N → s ≠ hub → g.loopArcs hub again s = 0) ∧
      ∀ s, ∀ x ∈ g.loopArcs hub again s, x.target ∈ N ∨ x.target = hub := by
  refine ⟨fun s hs hne => ?_, fun s x hx => ?_⟩
  · rw [loopArcs, Pi.add_apply, Pi.single_eq_of_ne hne, hg.exits_eq_zero hs, add_zero]
  · rw [loopArcs, Pi.add_apply, Multiset.mem_add, mem_single, mem_exitArcs] at hx
    rcases hx with ⟨-, hx⟩ | ⟨y, -, -, rfl⟩
    · exact (hg.scale again).mem_of_leads hx
    · exact Or.inr rfl

lemma around (hg : Enclosed g N arcs) (hub : StateId) (again leave : Weight r) :
    Enclosed (around hub leave) (N ∪ {hub}) (arcs + g.loopArcs hub again) where
  entries e he := by
    rw [Fragment.around, List.mem_toArray, List.mem_singleton] at he
    exact Or.inr (he ▸ rfl)
  exits x hx := by
    rw [Fragment.around, List.mem_toArray, List.mem_singleton] at hx
    exact Or.inr (hx ▸ rfl)
  outside s hs := by
    obtain ⟨hsN, hs⟩ := not_or.1 hs
    rw [Pi.add_apply, hg.outside s hsN, (hg.loop hub again).1 s hsN hs, add_zero]
  inside s x hx := by
    rcases Multiset.mem_add.1 hx with hx | hx
    · exact Or.inl (hg.inside s x hx)
    · exact (hg.loop hub again).2 s x hx

lemma onto (hf : Enclosed f N arcs) (hg : Enclosed g N' arcs') (hub : StateId)
    (again leave : Weight r) :
    Enclosed (f.onto hub leave) (N ∪ N' ∪ {hub})
      (arcs + arcs' + (exitArcs f.exits hub + g.loopArcs hub again)) where
  entries e he := (hf.mem_of_into he).imp_left Or.inl
  exits x hx := by
    rw [Fragment.onto, List.mem_toArray, List.mem_singleton] at hx
    exact Or.inr (hx ▸ rfl)
  outside s hs := by
    obtain ⟨hsNN', hs⟩ := not_or.1 hs
    obtain ⟨hsN, hsN'⟩ := not_or.1 hsNN'
    simp only [Pi.add_apply, hf.outside s hsN, hg.outside s hsN', hf.exits_eq_zero hsN,
      (hg.loop hub again).1 s hsN' hs, add_zero]
  inside s x hx := by
    simp only [Pi.add_apply, Multiset.mem_add] at hx
    rcases hx with (hx | hx) | hx | hx
    · exact Or.inl (Or.inl (hf.inside s x hx))
    · exact Or.inl (Or.inr (hg.inside s x hx))
    · obtain ⟨y, -, -, rfl⟩ := mem_exitArcs.1 hx
      exact Or.inr rfl
    · exact ((hg.loop hub again).2 s x hx).imp_left Or.inr

end Enclosed

/-! ### Layouts -/

variable (d : LogDomain)

/-- How an expression is laid out: as which fragment, its ways in multiplied by a weight, with which
states and with which arcs between them. -/
inductive Layout : Expr L → Weight r → Fragment L r → Set StateId →
    (StateId → Multiset (Arc StateId L r)) → Prop
  | epsilon : Layout .epsilon 1 (.edge Label.epsilon 1) ∅ 0
  | token (l : L) : Layout (.token l) 1 (.edge l 1) ∅ 0
  | weighted {e w f N arcs} (v : Float) (h : Layout e w f N arcs) :
      Layout (.weighted v e) w f N arcs
  /-- Multiplied on its ways in. -/
  | scaled {e f N arcs} (w : Weight r) (h : Layout e 1 f N arcs) : Layout e w (f.scale w) N arcs
  /-- The sides lie side by side, each with its share of the weight of the choice. -/
  | alt {e e' w f g N N' arcs arcs'} (hf : Layout e (w * (choice d e e').1) f N arcs)
      (hg : Layout e' (w * (choice d e e').2) g N' arcs') (hdisjoint : Disjoint N N') :
      Layout (.alt e e') w (f.merge g) (N ∪ N') (arcs + arcs')
  | concat {e e' f g N N' arcs arcs' junction} (hf : Layout e 1 f N arcs)
      (hg : Layout e' 1 g N' arcs') (hdisjoint : Disjoint N N') (hN : junction ∉ N)
      (hN' : junction ∉ N') : Layout (.concat e e') 1 (f.through g junction) (N ∪ N' ∪ {junction})
        (arcs + arcs' + f.throughArcs g junction)
  | kleene {e g N arcs hub} (hg : Layout e 1 g N arcs) (hN : hub ∉ N) :
      Layout (.kleene e) 1 (around hub (decision d e).2) (N ∪ {hub})
        (arcs + g.loopArcs hub (decision d e).1)
  | positive {e f g N N' arcs arcs' hub} (hf : Layout e 1 f N arcs) (hg : Layout e 1 g N' arcs')
      (hdisjoint : Disjoint N N') (hN : hub ∉ N) (hN' : hub ∉ N') :
      Layout (.positive e) 1 (f.onto hub (decision d e).2) (N ∪ N' ∪ {hub})
        (arcs + arcs' + (exitArcs f.exits hub + g.loopArcs hub (decision d e).1))
  | optional {e f N arcs} (h : Layout e 1 f N arcs) :
      Layout (.optional e) 1 (f.optional (decision d e).1 (decision d e).2) N arcs

lemma Layout.enclosed {e : Expr L} {w : Weight r} {f : Fragment L r} {N : Set StateId}
    {arcs : StateId → Multiset (Arc StateId L r)} (h : Layout d e w f N arcs) :
    Enclosed f N arcs := by
  induction h with
  | epsilon | token l => exact .edge _ _
  | weighted v h ih => exact ih
  | scaled w h ih => exact ih.scale w
  | alt hf hg hdisjoint ihf ihg => exact ihf.merge ihg
  | concat hf hg hdisjoint hN hN' ihf ihg => exact ihf.through ihg _
  | kleene hg hN ih => exact ih.around _ _ _
  | positive hf hg hdisjoint hN hN' ihf ihg => exact ihf.onto ihg _ _ _
  | optional h ih => exact ⟨(ih.scale _).entries, ih.exits, ih.outside, ih.inside⟩

end WeightedAutomata
