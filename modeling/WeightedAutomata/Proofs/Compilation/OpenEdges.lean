import WeightedAutomata.Fragment.Basic
import WeightedAutomata.Machine
import Mathlib.Algebra.Group.Pi.Lemmas
import Mathlib.Algebra.Order.Group.Multiset
import Mathlib.Data.Set.BooleanAlgebra
import Mathlib.Order.CompletePartialOrder

/-!
The arcs that open edges become.

An open edge becomes an arc when its open ends are tied to states. What leads into a fragment and
what leaves the states that it names are told here for any state that the right ends are tied to.
-/

namespace WeightedAutomata

variable {L : Type} {r : Range}

def Passage.arcTo (p : Passage L r) (target : StateId) : Arc StateId L r :=
  ⟨target, p.label, p.weight⟩

def Entry.arc (e : Entry L r) : Arc StateId L r := ⟨e.target, e.label, e.weight⟩

def Exit.arcTo (x : Exit L r) (target : StateId) : Arc StateId L r := ⟨target, x.label, x.weight⟩

namespace Fragment

def passageArcs (ps : Array (Passage L r)) (target : StateId) : Multiset (Arc StateId L r) :=
  ↑(ps.toList.map (·.arcTo target))

def entryArcs (es : Array (Entry L r)) : Multiset (Arc StateId L r) := ↑(es.toList.map (·.arc))

/-- The exits of each state, with their right ends tied. -/
def exitArcs (xs : Array (Exit L r)) (target s : StateId) : Multiset (Arc StateId L r) :=
  ↑((xs.toList.filter (·.source = s)).map (·.arcTo target))

/-- All ways in, out of a state and with the right ends tied. -/
def leads (f : Fragment L r) (target : StateId) : Multiset (Arc StateId L r) :=
  passageArcs f.passages target + entryArcs f.entries

/-- What leaves a state, with the right ends tied to some state. -/
def out (f : Fragment L r) (arcs : StateId → Multiset (Arc StateId L r)) (target s : StateId) :
    Multiset (Arc StateId L r) :=
  arcs s + exitArcs f.exits target s

lemma entryArcs_append (es es' : Array (Entry L r)) :
    entryArcs (es ++ es') = entryArcs es + entryArcs es' := by
  unfold entryArcs
  rw [Array.toList_append, List.map_append, Multiset.coe_add]

/-- What leads in is the same, whether the right ends of passages are tied before or after. -/
lemma entryArcs_append_into (f : Fragment L r) (s : StateId) :
    entryArcs (f.entries ++ f.passages.map (·.into s)) = f.leads s := by
  have hinto : entryArcs (f.passages.map (·.into s)) = passageArcs f.passages s := by
    unfold entryArcs passageArcs
    rw [Array.toList_map, List.map_map]
    rfl
  rw [entryArcs_append, hinto, add_comm]
  rfl

lemma exitArcs_append (xs xs' : Array (Exit L r)) (target : StateId) :
    exitArcs (xs ++ xs') target = exitArcs xs target + exitArcs xs' target := by
  funext s
  change exitArcs _ _ _ = exitArcs _ _ _ + exitArcs _ _ _
  unfold exitArcs
  rw [Array.toList_append, List.filter_append, List.map_append, Multiset.coe_add]

lemma exitArcs_outOf (ps : Array (Passage L r)) (s target : StateId) :
    exitArcs (ps.map (·.outOf s)) target = Pi.single s (passageArcs ps target) := by
  funext u
  unfold exitArcs passageArcs
  rw [Array.toList_map, List.filter_map]
  by_cases hu : u = s
  · subst hu
    have hall : ps.toList.filter ((fun x : Exit L r => decide (x.source = u)) ∘ (·.outOf u)) =
        ps.toList := List.filter_eq_self.2 fun p _ => decide_eq_true rfl
    rw [Pi.single_eq_same, hall, List.map_map]
    rfl
  · rw [Pi.single_eq_of_ne hu, List.filter_eq_nil_iff.2 fun p _ h => hu (of_decide_eq_true h).symm]
    rfl

lemma exitArcs_eq_zero {xs : Array (Exit L r)} {s : StateId} (h : ∀ x ∈ xs, x.source ≠ s)
    (target : StateId) : exitArcs xs target s = 0 := by
  unfold exitArcs
  rw [List.filter_eq_nil_iff.2 fun x hx hs =>
    h x (Array.mem_toList_iff.1 hx) (of_decide_eq_true hs)]
  rfl

lemma exitArcs_singleton (s : StateId) (l : L) (w : Weight r) (target : StateId) :
    exitArcs #[⟨s, l, w⟩] target = Pi.single s {⟨target, l, w⟩} := by
  have hexit := exitArcs_outOf #[(⟨l, w⟩ : Passage L r)] s target
  rw [List.map_toArray] at hexit
  exact hexit

lemma leads_merge (f g : Fragment L r) (target : StateId) :
    (f.merge g).leads target = f.leads target + g.leads target := by
  unfold leads merge passageArcs
  rw [entryArcs_append, Array.toList_append, List.map_append, ← Multiset.coe_add]
  exact add_add_add_comm _ _ _ _

lemma leads_scale (f : Fragment L r) (c : Weight r) (target : StateId) :
    (f.scale c).leads target =
      (f.leads target).map fun x => { x with weight := x.weight * c } := by
  unfold leads scale passageArcs entryArcs
  rw [Multiset.map_add, Multiset.map_coe, Multiset.map_coe, Array.toList_map, Array.toList_map,
    List.map_map, List.map_map, List.map_map, List.map_map]
  rfl

/-! ### Which arcs there are -/

lemma mem_single {s u : StateId} {as : Multiset (Arc StateId L r)} {x : Arc StateId L r} :
    x ∈ (Pi.single s as : StateId → Multiset (Arc StateId L r)) u ↔ u = s ∧ x ∈ as := by
  by_cases h : u = s
  · subst h
    rw [Pi.single_eq_same]
    simp
  · rw [Pi.single_eq_of_ne h]
    simp [h]

lemma mem_entryArcs {es : Array (Entry L r)} {x : Arc StateId L r} :
    x ∈ entryArcs es ↔ ∃ e ∈ es, e.arc = x := by
  simp [entryArcs]

lemma mem_exitArcs {xs : Array (Exit L r)} {target s : StateId} {x : Arc StateId L r} :
    x ∈ exitArcs xs target s ↔ ∃ y ∈ xs, y.source = s ∧ y.arcTo target = x := by
  simp [exitArcs, and_assoc]

lemma mem_leads {f : Fragment L r} {target : StateId} {x : Arc StateId L r} :
    x ∈ f.leads target ↔
      (∃ p ∈ f.passages, p.arcTo target = x) ∨ ∃ e ∈ f.entries, e.arc = x := by
  simp [leads, passageArcs, entryArcs]

lemma mem_leads_scale {f : Fragment L r} {w : Weight r} {target u : StateId} :
    (∃ x ∈ (f.scale w).leads target, x.target = u) ↔ ∃ x ∈ f.leads target, x.target = u := by
  simp [leads_scale]

end Fragment

end WeightedAutomata
