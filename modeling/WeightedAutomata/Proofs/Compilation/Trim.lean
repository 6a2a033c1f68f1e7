import WeightedAutomata.Proofs.Compilation.Counting
import WeightedAutomata.Proofs.Path
import Mathlib.Algebra.Order.Pi
import Mathlib.Data.Multiset.OrderedMonoid
import Mathlib.Logic.Relation

/-!
Nothing in a compiled automaton is idle.

Every state of a layout is reached from an entry, and from every state an exit is reached. A
combination ties ends to one state where its parts meet: what has been reached on one side of it
goes on to the other.
-/

namespace WeightedAutomata

open Automaton Compilation Fragment

variable {L I O : Type} {r : Range} [LabelOver L I O]

/-! ### Reaching states along arcs -/

def ArcTo (arcs : StateId → Multiset (Arc StateId L r)) (s u : StateId) : Prop :=
  ∃ x ∈ arcs s, x.target = u

def Reaches (arcs : StateId → Multiset (Arc StateId L r)) : StateId → StateId → Prop :=
  Relation.ReflTransGen (ArcTo arcs)

section Reaches

variable {arcs arcs' : StateId → Multiset (Arc StateId L r)} {s t u : StateId}

lemma Reaches.trans (h : Reaches arcs s t) (h' : Reaches arcs t u) : Reaches arcs s u :=
  Relation.ReflTransGen.trans h h'

lemma ArcTo.mono (hle : arcs ≤ arcs') (h : ArcTo arcs s u) : ArcTo arcs' s u := by
  obtain ⟨x, hx, hu⟩ := h
  exact ⟨x, Multiset.mem_of_le (hle s) hx, hu⟩

lemma Reaches.mono (hle : arcs ≤ arcs') (h : Reaches arcs s u) : Reaches arcs' s u :=
  Relation.ReflTransGen.mono (fun _ _ => ArcTo.mono hle) s u h

end Reaches

/-! ### Threaded pieces -/

/-- A piece can be entered, all its states are reached from entries, and from all of them exits are
reached. -/
structure Threaded (f : Fragment L r) (N : Set StateId)
    (arcs : StateId → Multiset (Arc StateId L r)) : Prop where
  entered : (∃ p, p ∈ f.passages) ∨ ∃ e, e ∈ f.entries
  reached : ∀ s ∈ N, ∃ e ∈ f.entries, Reaches arcs e.target s
  left : ∀ s ∈ N, ∃ x ∈ f.exits, Reaches arcs s x.source

namespace Threaded

variable {f g : Fragment L r} {N N' : Set StateId}
  {arcs arcs' all : StateId → Multiset (Arc StateId L r)} {m s : StateId}

lemma reaches_of_entries (h : Threaded f N arcs) (hle : arcs ≤ all)
    (hin : ∀ e ∈ f.entries, ArcTo all m e.target) (hs : s ∈ N) : Reaches all m s := by
  obtain ⟨e, he, hes⟩ := h.reached s hs
  exact .head (hin e he) (hes.mono hle)

lemma reaches_of_exits (h : Threaded f N arcs) (hle : arcs ≤ all)
    (hout : ∀ x ∈ f.exits, ArcTo all x.source m) (hs : s ∈ N) : Reaches all s m := by
  obtain ⟨x, hx, hsx⟩ := h.left s hs
  exact .tail (hsx.mono hle) (hout x hx)

lemma exists_entry (h : Threaded f N arcs) (henclosed : Enclosed f N arcs) (hle : arcs ≤ all)
    (hout : ∀ x ∈ f.exits, ArcTo all x.source m) :
    ∃ e ∈ f.entries ++ f.passages.map (·.into m), Reaches all e.target m := by
  rcases h.entered with ⟨p, hp⟩ | ⟨e, he⟩
  · exact ⟨p.into m, Array.mem_append_right _ (Array.mem_map_of_mem hp), .refl⟩
  · exact ⟨e, Array.mem_append_left _ he, h.reaches_of_exits hle hout (henclosed.entries e he)⟩

lemma exists_exit (h : Threaded f N arcs) (henclosed : Enclosed f N arcs) (hle : arcs ≤ all)
    (hin : ∀ e ∈ f.entries, ArcTo all m e.target) :
    ∃ x ∈ f.exits ++ f.passages.map (·.outOf m), Reaches all m x.source := by
  rcases h.entered with ⟨p, hp⟩ | ⟨e, he⟩
  · exact ⟨p.outOf m, Array.mem_append_right _ (Array.mem_map_of_mem hp), .refl⟩
  · obtain ⟨x, hx, hex⟩ := h.left e.target (henclosed.entries e he)
    exact ⟨x, Array.mem_append_left _ hx, .head (hin e he) (hex.mono hle)⟩

lemma edge (l : L) (w : Weight r) : Threaded (.edge l w) ∅ 0 where
  entered := Or.inl ⟨⟨l, w⟩, by simp [Fragment.edge]⟩
  reached _ hs := hs.elim
  left _ hs := hs.elim

lemma scale (h : Threaded f N arcs) (w : Weight r) : Threaded (f.scale w) N arcs where
  entered := by
    refine h.entered.imp ?_ ?_
    · rintro ⟨p, hp⟩
      exact ⟨_, Array.mem_map_of_mem hp⟩
    · rintro ⟨e, he⟩
      exact ⟨_, Array.mem_map_of_mem he⟩
  reached s hs := by
    obtain ⟨e, he, hes⟩ := h.reached s hs
    exact ⟨_, Array.mem_map_of_mem he, hes⟩
  left := h.left

lemma merge (hf : Threaded f N arcs) (hg : Threaded g N' arcs') :
    Threaded (f.merge g) (N ∪ N') (arcs + arcs') where
  entered := by
    refine hf.entered.imp ?_ ?_
    · rintro ⟨p, hp⟩
      exact ⟨p, Array.mem_append_left _ hp⟩
    · rintro ⟨e, he⟩
      exact ⟨e, Array.mem_append_left _ he⟩
  reached s hs := by
    rcases hs with hs | hs
    · obtain ⟨e, he, hes⟩ := hf.reached s hs
      exact ⟨e, Array.mem_append_left _ he, hes.mono le_self_add⟩
    · obtain ⟨e, he, hes⟩ := hg.reached s hs
      exact ⟨e, Array.mem_append_right _ he, hes.mono le_add_self⟩
  left s hs := by
    rcases hs with hs | hs
    · obtain ⟨x, hx, hsx⟩ := hf.left s hs
      exact ⟨x, Array.mem_append_left _ hx, hsx.mono le_self_add⟩
    · obtain ⟨x, hx, hsx⟩ := hg.left s hs
      exact ⟨x, Array.mem_append_right _ hx, hsx.mono le_add_self⟩

/-! ### Where pieces meet -/

lemma arcTo_of_exits {target : StateId} (hle : exitArcs f.exits target ≤ all) :
    ∀ x ∈ f.exits, ArcTo all x.source target := fun x hx =>
  ⟨x.arcTo target, Multiset.mem_of_le (hle _) (mem_exitArcs.2 ⟨x, hx, rfl, rfl⟩), rfl⟩

lemma arcTo_of_entries {source : StateId}
    (hle : (Pi.single source (entryArcs f.entries) : StateId → _) ≤ all) :
    ∀ e ∈ f.entries, ArcTo all source e.target := fun e he =>
  ⟨e.arc, Multiset.mem_of_le (hle _) (mem_single.2 ⟨rfl, mem_entryArcs.2 ⟨e, he, rfl⟩⟩), rfl⟩

lemma arcTo_of_leads {source target : StateId} {w : Weight r}
    (hle : (Pi.single source ((f.scale w).leads target) : StateId → _) ≤ all) :
    ∀ e ∈ f.entries, ArcTo all source e.target := by
  intro e he
  obtain ⟨x, hx, htarget⟩ := mem_leads_scale.2
    ⟨e.arc, mem_leads.2 (Or.inr ⟨e, he, rfl⟩), (rfl : e.arc.target = e.target)⟩
  exact ⟨x, Multiset.mem_of_le (hle _) (mem_single.2 ⟨rfl, hx⟩), htarget⟩

lemma through (hf : Threaded f N arcs) (hg : Threaded g N' arcs') (hef : Enclosed f N arcs)
    (heg : Enclosed g N' arcs') (junction : StateId) :
    Threaded (f.through g junction) (N ∪ N' ∪ {junction})
      (arcs + arcs' + f.throughArcs g junction) := by
  set all := arcs + arcs' + f.throughArcs g junction
  have hle : arcs ≤ all := le_add_right (le_add_right le_rfl)
  have hle' : arcs' ≤ all := le_add_right (le_add_left le_rfl)
  have hout : ∀ x ∈ f.exits, ArcTo all x.source junction :=
    arcTo_of_exits (le_add_left (le_add_right le_rfl))
  have hin : ∀ e ∈ g.entries, ArcTo all junction e.target :=
    arcTo_of_entries (le_add_left (le_add_left le_rfl))
  -- some path runs through `f` into the junction, and some path from there through `g`
  obtain ⟨e, he, hcross⟩ := hf.exists_entry hef hle hout
  obtain ⟨x, hx, hcross'⟩ := hg.exists_exit heg hle' hin
  refine ⟨Or.inr ⟨e, he⟩, ?_, ?_⟩
  · rintro s ((hs | hs) | rfl)
    · obtain ⟨e', he', hes⟩ := hf.reached s hs
      exact ⟨e', Array.mem_append_left _ he', hes.mono hle⟩
    · exact ⟨e, he, hcross.trans (hg.reaches_of_entries hle' hin hs)⟩
    · exact ⟨e, he, hcross⟩
  · rintro s ((hs | hs) | rfl)
    · exact ⟨x, hx, (hf.reaches_of_exits hle hout hs).trans hcross'⟩
    · obtain ⟨x', hx', hsx⟩ := hg.left s hs
      exact ⟨x', Array.mem_append_left _ hx', hsx.mono hle'⟩
    · exact ⟨x, hx, hcross'⟩

lemma around (hg : Threaded g N arcs) (hub : StateId) (again leave : Weight r) :
    Threaded (around hub leave) (N ∪ {hub}) (arcs + g.loopArcs hub again) := by
  set all := arcs + g.loopArcs hub again
  have hle : arcs ≤ all := le_self_add
  have hin : ∀ e ∈ g.entries, ArcTo all hub e.target :=
    arcTo_of_leads (le_add_left (le_add_right le_rfl))
  have hout : ∀ x ∈ g.exits, ArcTo all x.source hub :=
    arcTo_of_exits (le_add_left (le_add_left le_rfl))
  have hentry : (⟨Label.epsilon, 1, hub⟩ : Entry L r) ∈ (Fragment.around hub leave).entries := by
    simp [Fragment.around]
  have hexit : (⟨hub, Label.epsilon, leave⟩ : Exit L r) ∈ (Fragment.around hub leave).exits := by
    simp [Fragment.around]
  refine ⟨Or.inr ⟨_, hentry⟩, fun s hs => ⟨_, hentry, ?_⟩, fun s hs => ⟨_, hexit, ?_⟩⟩
  · rcases hs with hs | rfl
    · exact hg.reaches_of_entries hle hin hs
    · exact .refl
  · rcases hs with hs | rfl
    · exact hg.reaches_of_exits hle hout hs
    · exact .refl

lemma onto (hf : Threaded f N arcs) (hg : Threaded g N' arcs') (hef : Enclosed f N arcs)
    (hub : StateId) (again leave : Weight r) :
    Threaded (f.onto hub leave) (N ∪ N' ∪ {hub})
      (arcs + arcs' + (exitArcs f.exits hub + g.loopArcs hub again)) := by
  set all := arcs + arcs' + (exitArcs f.exits hub + g.loopArcs hub again)
  have hle : arcs ≤ all := le_add_right (le_add_right le_rfl)
  have hle' : arcs' ≤ all := le_add_right (le_add_left le_rfl)
  have hout : ∀ x ∈ f.exits, ArcTo all x.source hub :=
    arcTo_of_exits (le_add_left (le_add_right le_rfl))
  have hin' : ∀ e ∈ g.entries, ArcTo all hub e.target :=
    arcTo_of_leads (le_add_left (le_add_left (le_add_right le_rfl)))
  have hout' : ∀ x ∈ g.exits, ArcTo all x.source hub :=
    arcTo_of_exits (le_add_left (le_add_left (le_add_left le_rfl)))
  obtain ⟨e, he, hcross⟩ := hf.exists_entry hef hle hout
  have hexit : (⟨hub, Label.epsilon, leave⟩ : Exit L r) ∈ (f.onto hub leave).exits := by
    simp [Fragment.onto]
  refine ⟨Or.inr ⟨e, he⟩, ?_, fun s hs => ⟨_, hexit, ?_⟩⟩
  · -- the first copy is reached as it was, then the hub, and from there the copy around it
    rintro s ((hs | hs) | rfl)
    · obtain ⟨e', he', hes⟩ := hf.reached s hs
      exact ⟨e', Array.mem_append_left _ he', hes.mono hle⟩
    · exact ⟨e, he, hcross.trans (hg.reaches_of_entries hle' hin' hs)⟩
    · exact ⟨e, he, hcross⟩
  · rcases hs with (hs | hs) | rfl
    · exact hf.reaches_of_exits hle hout hs
    · exact hg.reaches_of_exits hle' hout' hs
    · exact .refl

end Threaded

variable (d : LogDomain)

lemma Layout.threaded {e : Expr L} {w : Weight r} {f : Fragment L r} {N : Set StateId}
    {arcs : StateId → Multiset (Arc StateId L r)} (h : Layout d e w f N arcs) :
    Threaded f N arcs := by
  induction h with
  | epsilon | token l => exact .edge _ _
  | weighted v h ih => exact ih
  | scaled w h ih => exact ih.scale w
  | alt hf hg hdisjoint ihf ihg => exact ihf.merge ihg
  | concat hf hg hdisjoint hN hN' ihf ihg => exact ihf.through ihg hf.enclosed hg.enclosed _
  | kleene hg hN ih => exact ih.around _ _ _
  | positive hf hg hdisjoint hN hN' ihf ihg => exact ihf.onto ihg hf.enclosed _ _ _
  | optional h ih => exact ⟨Or.inl ⟨_, Array.mem_push_self⟩, (ih.scale _).reached, ih.left⟩

/-! ### Compiled expressions -/

variable [Alphabet I] [Alphabet O]

namespace Automaton

variable {a : Automaton L r I O} {s u : StateId}

omit [LabelOver L I O] in
lemma exists_leads (h : Reaches a.arcs s u) : ∃ p, a.Leads s p u := by
  induction h using Relation.ReflTransGen.head_induction_on with
  | refl => exact ⟨[], rfl⟩
  | head hstep hrest ih =>
    obtain ⟨x, hx, rfl⟩ := hstep
    rw [arcs_eq, Multiset.mem_coe] at hx
    obtain ⟨t, ht, rfl⟩ := List.mem_map.1 hx
    obtain ⟨p, hp⟩ := ih
    exact ⟨t :: p, ht, hp⟩

lemma Consistent.arc_mem_arcs {ts : List (Transition L r)} (h : Consistent a ts)
    {t : Transition L r} (ht : t ∈ a.allTransitions) : t.arc ∈ a.arcs t.source := by
  have hts : t ∈ ts := h.perm_allTransitions.mem_iff.1 ht
  rw [h.arcs_of_contains (h.source t hts), Multiset.mem_coe]
  exact List.mem_map_of_mem (List.mem_filter.2 ⟨hts, decide_eq_true rfl⟩)

end Automaton

namespace Attached

variable {c : Compiled L r} {f : Fragment L r} {N : Set StateId}
  {arcs : StateId → Multiset (Arc StateId L r)} {s : StateId}

lemma target_of_mem_arcs (h : Attached c f N arcs) (henclosed : Enclosed f N arcs)
    {x : Arc StateId L r} (hx : x ∈ c.automaton.arcs s) : x.target ∈ N ∨ x.target = c.final := by
  rw [h.arcs, Pi.add_apply, Pi.add_apply, Multiset.mem_add, Multiset.mem_add, mem_single,
    mem_exitArcs] at hx
  rcases hx with hx | ⟨-, hx⟩ | ⟨y, -, -, rfl⟩
  · exact Or.inl (henclosed.inside s x hx)
  · exact henclosed.mem_of_leads hx
  · exact Or.inr rfl

/-- Every state is between the start and the final state. -/
lemma reaches (h : Attached c f N arcs) (henclosed : Enclosed f N arcs)
    (hthreaded : Threaded f N arcs) (hs : c.automaton.contains s) :
    Reaches c.automaton.arcs c.automaton.start s ∧ Reaches c.automaton.arcs s c.final := by
  have hle : arcs ≤ c.automaton.arcs := h.arcs ▸ le_self_add
  have hleads : (Pi.single c.automaton.start (f.leads c.final) : StateId → _) ≤
      c.automaton.arcs := h.arcs ▸ le_add_left (le_add_right le_rfl)
  have hin : ∀ e ∈ f.entries ++ f.passages.map (·.into c.final),
      ArcTo c.automaton.arcs c.automaton.start e.target := by
    intro e he
    have hmem : e.arc ∈ f.leads c.final := by
      rw [← entryArcs_append_into]
      exact mem_entryArcs.2 ⟨e, he, rfl⟩
    exact ⟨e.arc, Multiset.mem_of_le (hleads _) (mem_single.2 ⟨rfl, hmem⟩), rfl⟩
  have hout : ∀ x ∈ f.exits, ArcTo c.automaton.arcs x.source c.final :=
    Threaded.arcTo_of_exits (h.arcs ▸ le_add_left (le_add_left le_rfl))
  obtain ⟨e, he, hcross⟩ := hthreaded.exists_entry henclosed hle hout
  have hall : Reaches c.automaton.arcs c.automaton.start c.final := .head (hin e he) hcross
  rcases (h.contains s).1 hs with rfl | hs | rfl
  · exact ⟨.refl, hall⟩
  · have hin' := fun e he => hin e (Array.mem_append_left _ he)
    exact ⟨hthreaded.reaches_of_entries hle hin' hs, hthreaded.reaches_of_exits hle hout hs⟩
  · exact ⟨hall, .refl⟩

end Attached

/-- **Compiled automata are trim.** Every expression compiles. The start is not entered, the one
final state is another one and is not left, and each state is on a path from the start to it. There
is a state for each of the two and one for each junction, and a transition for each edge. -/
theorem Expr.compile_trim (e : Expr L) : ∃ c : Compiled L r, e.compile d = .ok c ∧
    (∀ s, c.automaton.isFinal s ↔ s = c.final) ∧ c.final ≠ c.automaton.start ∧
    (∀ t ∈ c.automaton.allTransitions, t.target ≠ c.automaton.start ∧ t.source ≠ c.final) ∧
    (∀ s, c.automaton.contains s →
      ∃ p q, c.automaton.Leads c.automaton.start p s ∧ c.automaton.Leads s q c.final) ∧
    c.automaton.stateCount = 2 + e.junctions ∧ c.automaton.transitionCount = e.edges := by
  obtain ⟨c, f, N, arcs, hc, hlayout, h⟩ := exists_attached (r := r) d e
  have henclosed := hlayout.enclosed
  obtain ⟨ts, hts⟩ := h.consistent
  refine ⟨c, hc, h.isFinal, h.start_ne_final.symm, fun t ht => ⟨?entered, ?left⟩,
    fun s hs => ?between, counts_of_compile hc⟩
  case entered =>
    intro htarget
    -- an arc leads to an own state or the final one, and the start is neither
    rcases h.target_of_mem_arcs henclosed (hts.arc_mem_arcs ht) with hN | hfinal
    · exact h.start_notMem (htarget ▸ hN)
    · exact h.start_ne_final (htarget.symm.trans hfinal)
  case left =>
    intro hsource
    have hmem := hts.arc_mem_arcs ht
    rw [hsource, h.arcs_final henclosed] at hmem
    exact Multiset.notMem_zero _ hmem
  case between =>
    obtain ⟨hto, hfrom⟩ := h.reaches henclosed hlayout.threaded hs
    obtain ⟨p, hp⟩ := exists_leads hto
    obtain ⟨q, hq⟩ := exists_leads hfrom
    exact ⟨p, q, hp, hq⟩

end WeightedAutomata
