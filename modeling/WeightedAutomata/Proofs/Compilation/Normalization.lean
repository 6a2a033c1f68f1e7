import WeightedAutomata.Proofs.Compilation.Assembly
import WeightedAutomata.Proofs.Bag
import Mathlib.Algebra.BigOperators.Ring.Finset
import Mathlib.Algebra.BigOperators.Ring.Multiset
import Mathlib.Algebra.Ring.Rat
import Mathlib.Data.Fintype.BigOperators

/-!
The arcs of a state are the outcomes of decisions.

Whoever stands at a state decides at the choices, loops and options that come next, until a label is
due. These decisions form a tree; its leaves are the arcs of the state, each with the product of the
weights on the way down to it. A weight is put on the ways into a fragment, and the state that they
lead from may be added much later, so the tree of the ways in goes with the fragment until it is
tied. Where the two weights of each decision are one together, so are those of all the arcs.
-/

namespace WeightedAutomata

open Bag Compilation Fragment
open Automaton hiding single

variable {L : Type}

/-! ### Decisions -/

/-- Where an expression branches: between the sides of a choice, or between taking the body of a
loop or an option and leaving it. -/
inductive Branching (L : Type) where
  | choice (first second : Expr L)
  | decision (body : Expr L)

namespace Branching

def weights {r : Range} (d : LogDomain) : Branching L → Weight r × Weight r
  | choice first second => Compilation.choice d first second
  | decision body => Compilation.decision d body

/-- The two shares of a branching in other numbers, given what the stated weights are there. -/
def shares {K : Type*} [OfNat K 1] [Sub K] (read : Float → K) : Branching L → K × K
  | choice first second =>
    match first.branchWeight?, second.branchWeight? with
    | some w, some v => (read w, read v)
    | some w, none => (read w, 1 - read w)
    | none, some v => (1 - read v, read v)
    | none, none => (read defaultBranchWeight, read defaultBranchWeight)
  | decision body =>
    let w := read (body.branchWeight?.getD defaultBranchWeight)
    (w, 1 - w)

/-- The weights are the shares as floating-point numbers have them. -/
lemma weights_eq_shares {r : Range} (d : LogDomain) (b : Branching L) :
    (b.weights d : Weight r × Weight r) =
      (.ofFloat d (b.shares id).1, .ofFloat d (b.shares id).2) := by
  cases b with
  | choice first second =>
    unfold weights shares Compilation.choice Compilation.shares
    split <;> rfl
  | decision body => rfl

end Branching

namespace Expr

def branchings : Expr L → List (Branching L)
  | epsilon => []
  | token _ => []
  | concat first second => first.branchings ++ second.branchings
  | alt first second => .choice first second :: (first.branchings ++ second.branchings)
  | kleene body => .decision body :: body.branchings
  | positive body => .decision body :: body.branchings
  | optional body => .decision body :: body.branchings
  | weighted _ body => body.branchings

/-- Where both sides of a choice state their weight, the two are read as numbers that are one
together. The weight that stands for none is read as a half. -/
structure Complementary {K : Type*} [OfNat K 1] [Add K] (read : Float → K) (e : Expr L) :
    Prop where
  halves : read defaultBranchWeight + read defaultBranchWeight = 1
  stated : ∀ first second w v, .choice first second ∈ e.branchings →
    first.branchWeight? = some w → second.branchWeight? = some v → read w + read v = 1

/-- With one exactly less a weight as its counterpart, the shares of each branching are one
together. -/
lemma Complementary.shares_add {K : Type*} [CommRing K] {read : Float → K} {e : Expr L}
    (h : e.Complementary read) {b : Branching L} (hb : b ∈ e.branchings) :
    (b.shares read).1 + (b.shares read).2 = 1 := by
  cases b with
  | choice first second =>
    -- which of the two operands states a weight
    simp only [Branching.shares]
    split
    · next w v hw hv => exact h.stated first second w v hb hw hv
    · exact add_sub_cancel _ _
    · exact sub_add_cancel _ _
    · exact h.halves
  | decision body => exact add_sub_cancel _ _

end Expr

/-! ### Trees of decisions -/

inductive DecisionTree (L : Type) where
  | leaf
  | node (branching : Branching L) (left right : DecisionTree L)

namespace DecisionTree

def branchings : DecisionTree L → List (Branching L)
  | leaf => []
  | node b left right => b :: (left.branchings ++ right.branchings)

/-- The ways from the root to a leaf. -/
def Way : DecisionTree L → Type
  | leaf => Unit
  | node _ left right => left.Way ⊕ right.Way

/-- Finitely many ways, since the tree is finite. -/
instance fintypeWay : (tree : DecisionTree L) → Fintype tree.Way
  | leaf => inferInstanceAs (Fintype Unit)
  | node _ left right =>
    have := left.fintypeWay
    have := right.fintypeWay
    inferInstanceAs (Fintype (left.Way ⊕ right.Way))

variable {K : Type*} (pair : Branching L → K × K)

/-- The product along a way, given the pair of numbers at each branching. -/
def value [Monoid K] : (tree : DecisionTree L) → tree.Way → K
  | leaf, _ => 1
  | node b left right, way =>
    Sum.elim (fun way => (pair b).1 * left.value way) (fun way => (pair b).2 * right.value way) way

/-- **Complete trees.** Where the numbers at each branching are one together, so are the products
along all ways. -/
lemma sum_value [CommRing K] (tree : DecisionTree L)
    (h : ∀ b ∈ tree.branchings, (pair b).1 + (pair b).2 = 1) : ∑ way, tree.value pair way = 1 := by
  -- the ways through a node are those of its two sides, each side scaled by its weight
  induction tree with
  | leaf => exact Fintype.sum_unique fun _ : Unit => (1 : K)
  | node b left right ihl ihr =>
    have hleft := ihl fun b' hb' => h b' (List.mem_cons_of_mem _ (List.mem_append_left _ hb'))
    have hright := ihr fun b' hb' => h b' (List.mem_cons_of_mem _ (List.mem_append_right _ hb'))
    calc ∑ way, (node b left right).value pair way
        = ∑ way, (pair b).1 * left.value pair way + ∑ way, (pair b).2 * right.value pair way :=
          Fintype.sum_sum_type _
      _ = (pair b).1 * 1 + (pair b).2 * 1 := by
          rw [← Finset.mul_sum, ← Finset.mul_sum, hleft, hright]
      _ = 1 := by rw [mul_one, mul_one, h b List.mem_cons_self]

end DecisionTree

/-- The decisions before the first label of an expression. A loop that starts empty is entered by a
label of its own, before anything is decided. -/
def Expr.opening : Expr L → DecisionTree L
  | .epsilon => .leaf
  | .token _ => .leaf
  | .concat first _ => first.opening
  | .alt first second => .node (.choice first second) first.opening second.opening
  | .kleene _ => .leaf
  | .positive body => body.opening
  | .optional body => .node (.decision body) body.opening .leaf
  | .weighted _ body => body.opening

/-- The decisions at the hub of a loop: on another pass, and then before its first label. -/
def Expr.reopening (body : Expr L) : DecisionTree L := .node (.decision body) body.opening .leaf

/-- The decisions at the states inside an automaton. Where two parts meet they are those before the
first label of the second part, and at the hub of a loop those on another pass. -/
def Expr.meetings : Expr L → List (DecisionTree L)
  | .epsilon => []
  | .token _ => []
  | .concat first second => first.meetings ++ second.meetings ++ [second.opening]
  | .alt first second => first.meetings ++ second.meetings
  | .kleene body => body.meetings ++ [body.reopening]
  | .positive body => body.meetings ++ body.meetings ++ [body.reopening]
  | .optional body => body.meetings
  | .weighted _ body => body.meetings

lemma Expr.branchings_opening (e : Expr L) : e.opening.branchings ⊆ e.branchings := by
  induction e with
  | epsilon | token l | kleene body ih => exact List.nil_subset _
  | concat first second ih ih' => exact List.subset_append_of_subset_left _ ih
  | alt first second ih ih' =>
    exact List.cons_subset_cons _ (List.append_subset.2
      ⟨List.subset_append_of_subset_left _ ih, List.subset_append_of_subset_right _ ih'⟩)
  | positive body ih => exact List.subset_cons_of_subset _ ih
  | optional body ih =>
    exact List.cons_subset_cons _ (List.append_subset.2 ⟨ih, List.nil_subset _⟩)
  | weighted w body ih => exact ih

lemma Expr.branchings_reopening (body : Expr L) :
    body.reopening.branchings ⊆ .decision body :: body.branchings :=
  List.cons_subset_cons _ (List.append_subset.2 ⟨body.branchings_opening, List.nil_subset _⟩)

lemma Expr.branchings_meetings {e : Expr L} {tree : DecisionTree L} (h : tree ∈ e.meetings) :
    tree.branchings ⊆ e.branchings := by
  induction e with
  | epsilon | token l => exact absurd h List.not_mem_nil
  | concat first second ih ih' =>
    rcases List.mem_append.1 h with h | h
    · rcases List.mem_append.1 h with h | h
      · exact List.subset_append_of_subset_left _ (ih h)
      · exact List.subset_append_of_subset_right _ (ih' h)
    · rw [List.mem_singleton.1 h]
      exact List.subset_append_of_subset_right _ second.branchings_opening
  | alt first second ih ih' =>
    rcases List.mem_append.1 h with h | h
    · exact List.subset_cons_of_subset _ (List.subset_append_of_subset_left _ (ih h))
    · exact List.subset_cons_of_subset _ (List.subset_append_of_subset_right _ (ih' h))
  | kleene body ih =>
    rcases List.mem_append.1 h with h | h
    · exact List.subset_cons_of_subset _ (ih h)
    · rw [List.mem_singleton.1 h]
      exact body.branchings_reopening
  | positive body ih =>
    -- the body is there twice, so its decisions are met on either copy
    rcases List.mem_append.1 h with h | h
    · rcases List.mem_append.1 h with h | h
      · exact List.subset_cons_of_subset _ (ih h)
      · exact List.subset_cons_of_subset _ (ih h)
    · rw [List.mem_singleton.1 h]
      exact body.branchings_reopening
  | optional body ih => exact List.subset_cons_of_subset _ (ih h)
  | weighted w body ih => exact ih h

/-! ### States and the decisions met there -/

/-- Each state of a set is matched with one tree of a list, and each tree with one state. -/
def Matched (N : Set StateId) (trees : List (DecisionTree L))
    (P : StateId → DecisionTree L → Prop) : Prop :=
  ∃ states : List StateId, states.Nodup ∧ (∀ s, s ∈ states ↔ s ∈ N) ∧ List.Forall₂ P states trees

namespace Matched

variable {N N' : Set StateId} {trees trees' : List (DecisionTree L)}
  {P Q : StateId → DecisionTree L → Prop}

lemma empty : Matched ∅ [] P := ⟨[], List.nodup_nil, by simp, .nil⟩

lemma singleton {s : StateId} {tree : DecisionTree L} (h : P s tree) : Matched {s} [tree] P :=
  ⟨[s], List.nodup_singleton s, by simp, .cons h .nil⟩

lemma union (h : Matched N trees P) (h' : Matched N' trees' P) (hdisjoint : Disjoint N N') :
    Matched (N ∪ N') (trees ++ trees') P := by
  obtain ⟨states, hnodup, hmem, htrees⟩ := h
  obtain ⟨states', hnodup', hmem', htrees'⟩ := h'
  refine ⟨states ++ states', hnodup.append hnodup' fun s hs hs' => ?_, fun s => ?_,
    List.rel_append htrees htrees'⟩
  · exact Set.disjoint_left.1 hdisjoint ((hmem s).1 hs) ((hmem' s).1 hs')
  · rw [List.mem_append, hmem, hmem', Set.mem_union]

lemma imp (h : Matched N trees P) (hPQ : ∀ s ∈ N, ∀ tree, P s tree → Q s tree) :
    Matched N trees Q := by
  obtain ⟨states, hnodup, hmem, htrees⟩ := h
  have hown := (List.forall₂_and_left ..).2 ⟨fun s hs => (hmem s).1 hs, htrees⟩
  exact ⟨states, hnodup, hmem, hown.imp fun s tree hs => hPQ s hs.1 tree hs.2⟩

lemma exists_map (h : Matched N trees P) : ∃ (states : List StateId)
    (tree : StateId → DecisionTree L), states.Nodup ∧ (∀ s, s ∈ states ↔ s ∈ N) ∧
      states.map tree = trees ∧ ∀ s ∈ N, P s (tree s) := by
  obtain ⟨states, hnodup, hmem, htrees⟩ := h
  have htree : ∃ tree : StateId → DecisionTree L,
      states.map tree = trees ∧ ∀ s ∈ states, P s (tree s) := by
    clear hmem
    induction htrees with
    | nil => exact ⟨fun _ => .leaf, rfl, by simp⟩
    | @cons s t states trees hs htrees ih =>
      obtain ⟨hnotin, hnodup⟩ := List.nodup_cons.1 hnodup
      obtain ⟨tree, hmap, htree⟩ := ih hnodup
      have hother : ∀ s' ∈ states, Function.update tree s t s' = tree s' := by
        intro s' hs'
        have hne : s' ≠ s := fun heq => hnotin (heq ▸ hs')
        exact Function.update_of_ne hne _ _
      refine ⟨Function.update tree s t, ?_, List.forall_mem_cons.2 ⟨?_, fun s' hs' => ?_⟩⟩
      · rw [List.map_cons, Function.update_self, List.map_congr_left hother, hmap]
      · rwa [Function.update_self]
      · rw [hother s' hs']
        exact htree s' hs'
  obtain ⟨tree, hmap, htree⟩ := htree
  exact ⟨states, tree, hnodup, hmem, hmap, fun s hs => htree s ((hmem s).2 hs)⟩

end Matched

/-! ### Weights of arcs -/

def weighed (arcs : Multiset (Arc StateId L .probability)) : Bag (Weight .probability) :=
  (arcs.map fun x => single x.weight).sum

lemma weighed_add (as bs : Multiset (Arc StateId L .probability)) :
    weighed (as + bs) = weighed as + weighed bs := by
  unfold weighed
  rw [Multiset.map_add, Multiset.sum_add]

lemma weighed_singleton (x : Arc StateId L .probability) : weighed {x} = single x.weight := by
  unfold weighed
  rw [Multiset.map_singleton, Multiset.sum_singleton]

lemma single_one : (single 1 : Bag (Weight .probability)) = 1 := rfl

lemma weighed_leads_scale (f : Fragment L .probability) (c : Weight .probability)
    (target : StateId) :
    weighed ((f.scale c).leads target) = single c * weighed (f.leads target) := by
  unfold weighed
  rw [leads_scale, Multiset.map_map, ← Multiset.sum_map_mul_left]
  refine congrArg Multiset.sum (Multiset.map_congr rfl fun x _ => ?_)
  change single (x.weight * c) = _
  rw [mul_comm, single_mul_single]

lemma of_weight {I O : Type} [LabelOver L I O] [Alphabet I] [Alphabet O]
    {a : Automaton L .probability I O} {s : StateId}
    (hnodup : (a.transitionsFrom s).toList.Nodup) :
    of (fun t : {t // t ∈ (a.transitionsFrom s).toList} => t.1.weight) = weighed (a.arcs s) := by
  have hsum := sum_map_of (fun t (_ : Unit) => t.weight) hnodup
  have hweighed : weighed (a.arcs s) =
      ((a.transitionsFrom s).toList.map fun t => of fun _ : Unit => t.weight).sum := by
    rw [arcs_eq, weighed, Multiset.map_coe, Multiset.sum_coe, List.map_map]
    rfl
  rw [hweighed, hsum]
  exact of_congr (Equiv.sigmaPUnit _).symm fun _ => rfl

/-! ### Layouts -/

variable (d : LogDomain)

def DecisionTree.bag (tree : DecisionTree L) : Bag (Weight .probability) :=
  of (tree.value (Branching.weights d))

lemma DecisionTree.bag_leaf : (leaf : DecisionTree L).bag d = 1 := rfl

lemma DecisionTree.bag_node (b : Branching L) (left right : DecisionTree L) :
    (node b left right).bag d =
      single (b.weights d).1 * left.bag d + single (b.weights d).2 * right.bag d := by
  unfold bag
  rw [single_mul_of, single_mul_of]
  rfl

section Layout

variable {I O : Type} [LabelOver L I O] {e : Expr L} {w : Weight .probability}
  {f g : Fragment L .probability} {N : Set StateId}
  {arcs : StateId → Multiset (Arc StateId L .probability)}

/-- **What leads in** are the decisions before the first label. -/
lemma Layout.weighed_leads (h : Layout d e w f N arcs) (target : StateId) :
    weighed (f.leads target) = single w * e.opening.bag d := by
  induction h generalizing target with
  | epsilon | token l => exact (weighed_singleton ⟨target, _, 1⟩).trans (mul_one _).symm
  | weighted v h ih => exact ih target
  | scaled w h ih => rw [weighed_leads_scale, ih, ← mul_assoc, single_mul_single, mul_one]
  | alt hf hg hdisjoint ihf ihg =>
    rw [leads_merge, weighed_add, ihf, ihg, Expr.opening, DecisionTree.bag_node, mul_add,
      ← mul_assoc, ← mul_assoc, single_mul_single, single_mul_single]
    rfl
  -- the second part is entered from the junction, so it adds nothing to what leads in
  | concat hf hg hdisjoint hN hN' ihf ihg => rw [leads_through, ihf, Expr.opening]
  | kleene hg hN ih =>
    rw [leads_around, weighed_singleton, Expr.opening, DecisionTree.bag_leaf, mul_one]
  | positive hf hg hdisjoint hN hN' ihf ihg => rw [leads_onto, ihf, Expr.opening]
  | optional h ih =>
    rw [leads_optional, weighed_add, weighed_leads_scale, ih, weighed_singleton, Expr.opening,
      DecisionTree.bag_node, DecisionTree.bag_leaf, mul_one, single_one, one_mul, one_mul]
    rfl

lemma Layout.weighed_hub (h : Layout d e 1 g N arcs) (hub target : StateId) :
    weighed ((g.scale (decision d e).1).leads hub +
      {⟨target, Label.epsilon, (decision d e).2⟩}) = e.reopening.bag d := by
  rw [weighed_add, weighed_leads_scale, h.weighed_leads, weighed_singleton, Expr.reopening,
    DecisionTree.bag_node, DecisionTree.bag_leaf, mul_one, single_one, one_mul]
  rfl

/-- **What leaves the states inside** are the decisions met there, whatever the right ends are tied
to. -/
lemma Layout.matched_meetings (h : Layout d e w f N arcs) :
    Matched N e.meetings fun s tree => ∀ target, weighed (f.out arcs target s) = tree.bag d := by
  -- the states of a part keep their trees; only what a combination adds gets a new one, and that is
  -- where what leads into the next part is tied
  induction h with
  | epsilon | token l => exact .empty
  | weighted v h ih => exact ih
  | scaled w h ih => exact ih
  | optional h ih => exact ih
  | alt hf hg hdisjoint ihf ihg =>
    have hsides := fun target => hf.enclosed.sides hg.enclosed hdisjoint target target
    refine (ihf.imp fun s hs tree htree target => ?_).union
      (ihg.imp fun s hs tree htree target => ?_) hdisjoint
    · rw [out_merge, (hsides target).1 s hs, htree]
    · rw [out_merge, (hsides target).2 s hs, htree]
  | @concat e e' f g N N' arcs arcs' junction hf hg hdisjoint hN hN' ihf ihg =>
    have hparts := fun target =>
      hf.enclosed.parts hg.enclosed hdisjoint hN hN' junction target (g.leads target)
    have hjunction : Disjoint (N ∪ N') {junction} :=
      Set.disjoint_singleton_right.2 fun h => h.elim hN hN'
    refine ((ihf.imp fun s hs tree htree target => ?_).union
      (ihg.imp fun s hs tree htree target => ?_) hdisjoint).union (.singleton fun target => ?_)
      hjunction
    · rw [out_through, (hparts target).1 s hs, htree]
    · rw [out_through, (hparts target).2.1 s hs, htree]
    · rw [out_through, (hparts target).2.2, hg.weighed_leads]
      exact one_mul _
  | @kleene e g N arcs hub hg hN ih =>
    have hparts := fun target => hg.enclosed.hub_parts hN hub
      ((g.scale (decision d e).1).leads hub + {⟨target, Label.epsilon, (decision d e).2⟩})
    refine (ih.imp fun s hs tree htree target => ?_).union (.singleton fun target => ?_)
      (Set.disjoint_singleton_right.2 hN)
    · rw [out_around, (hparts target).1 s hs, htree]
    · rw [out_around, (hparts target).2, hg.weighed_hub]
  | @positive e f g N N' arcs arcs' hub hf hg hdisjoint hN hN' ihf ihg =>
    have hparts := fun target => hf.enclosed.parts hg.enclosed hdisjoint hN hN' hub hub
      ((g.scale (decision d e).1).leads hub + {⟨target, Label.epsilon, (decision d e).2⟩})
    have hhub : Disjoint (N ∪ N') {hub} :=
      Set.disjoint_singleton_right.2 fun h => h.elim hN hN'
    refine ((ihf.imp fun s hs tree htree target => ?_).union
      (ihg.imp fun s hs tree htree target => ?_) hdisjoint).union (.singleton fun target => ?_)
      hhub
    · rw [out_onto, (hparts target).1 s hs, htree]
    · rw [out_onto, (hparts target).2.1 s hs, htree]
    · rw [out_onto, (hparts target).2.2, hg.weighed_hub]

/-! ### Compiled expressions -/

variable [Alphabet I] [Alphabet O]

/-- The start is left by the decisions before the first label, every other state but the final one
by the decisions met there. -/
lemma Attached.exists_trees {c : Compiled L .probability} (h : Attached c f N arcs)
    (hlayout : Layout d e 1 f N arcs) : ∃ (tree : StateId → DecisionTree L) (inner : List StateId),
      tree c.automaton.start = e.opening ∧ inner.Nodup ∧
      (∀ s, s ∈ inner ↔
        c.automaton.contains s ∧ s ≠ c.automaton.start ∧ s ≠ c.final) ∧
      inner.map tree = e.meetings ∧
      ∀ s, c.automaton.contains s → s ≠ c.final →
        weighed (c.automaton.arcs s) = (tree s).bag d := by
  -- the start has the opening tree, the own states the trees of their meetings
  obtain ⟨inner, tree, hnodup, hmem, hmap, htree⟩ := hlayout.matched_meetings.exists_map
  have hinner : ∀ s ∈ inner, Function.update tree c.automaton.start e.opening s = tree s := by
    intro s hs
    have hne : s ≠ c.automaton.start := fun heq => h.start_notMem (heq ▸ (hmem s).1 hs)
    exact Function.update_of_ne hne _ _
  refine ⟨Function.update tree c.automaton.start e.opening, inner, Function.update_self .., hnodup,
    fun s => ?_, by rw [List.map_congr_left hinner, hmap], fun s hs hfinal => ?_⟩
  · rw [hmem, h.contains]
    constructor
    · intro hs
      exact ⟨Or.inr (Or.inl hs), fun heq => h.start_notMem (heq ▸ hs),
        fun heq => h.final_notMem (heq ▸ hs)⟩
    · rintro ⟨rfl | hs | rfl, hstart, hfinal⟩
      · exact absurd rfl hstart
      · exact hs
      · exact absurd rfl hfinal
  · rcases (h.contains s).1 hs with rfl | hown | rfl
    · rw [Function.update_self, h.arcs_start hlayout.enclosed, hlayout.weighed_leads, single_one,
        one_mul]
    · rw [hinner s ((hmem s).2 hown), h.arcs_own hown]
      exact htree s hown c.final
    · exact absurd rfl hfinal

end Layout

lemma sum_attach_equiv {α β K : Type*} [Fintype β] [AddCommMonoid K] {l : List α} (hl : l.Nodup)
    (φ : {x // x ∈ l} ≃ β) (v : β → K) : (l.attach.map fun x => v (φ x)).sum = ∑ y, v y := by
  let members : Fintype {x // x ∈ l} := ⟨⟨l.attach, List.nodup_attach.2 hl⟩, List.mem_attach l⟩
  exact Fintype.sum_equiv φ (fun x => v (φ x)) v fun _ => rfl

/-- **Branch weights are normalized.** In a compiled expression the start is left by the decisions
before the first label, and the states between it and the final one by the decisions met there, each
of which is met at one of them. The transitions of a state correspond one to one to the ways through
its tree of decisions, and the weight of each is the product along its way. The weights at a
branching are its shares as floating-point numbers have them; so with exact numbers for weights
those of a state sum to one, wherever the stated weights of choices do. -/
theorem Expr.compile_normalized {I O : Type} [LabelOver L I O] [Alphabet I] [Alphabet O]
    (e : Expr L) :
    ∃ c : Compiled L .probability, e.compile d = .ok c ∧
      (∀ b : Branching L, (b.weights d : Weight .probability × Weight .probability) =
        (.ofFloat d (b.shares id).1, .ofFloat d (b.shares id).2)) ∧
      ∃ (tree : StateId → DecisionTree L) (inner : List StateId),
        tree c.automaton.start = e.opening ∧ inner.Nodup ∧
        (∀ s, s ∈ inner ↔
          c.automaton.contains s ∧ s ≠ c.automaton.start ∧ s ≠ c.final) ∧
        inner.map tree = e.meetings ∧
        ∀ s, c.automaton.contains s → s ≠ c.final →
          ∃ φ : {t // t ∈ (c.automaton.transitionsFrom s).toList} ≃ (tree s).Way,
            (tree s).branchings ⊆ e.branchings ∧
            (∀ t, t.1.weight = (tree s).value (Branching.weights d) (φ t)) ∧
            ∀ (K : Type*) [CommRing K] (read : Float → K), e.Complementary read →
              ((c.automaton.transitionsFrom s).toList.attach.map
                fun t => (tree s).value (Branching.shares read) (φ t)).sum = 1 := by
  obtain ⟨c, f, N, arcs, hc, hlayout, h⟩ := exists_attached (r := .probability) d e
  obtain ⟨ts, hts⟩ := h.consistent
  obtain ⟨tree, inner, hstart, hinner, hmem, hmap, htree⟩ := h.exists_trees d hlayout
  refine ⟨c, hc, Branching.weights_eq_shares d, tree, inner, hstart, hinner, hmem, hmap,
    fun s hs hfinal => ?_⟩
  have hnodup := hts.nodup_transitionsFrom s
  have hsub : (tree s).branchings ⊆ e.branchings := by
    by_cases heq : s = c.automaton.start
    · rw [heq, hstart]
      exact e.branchings_opening
    · have hs := List.mem_map_of_mem (f := tree) ((hmem s).2 ⟨hs, heq, hfinal⟩)
      exact branchings_meetings (hmap ▸ hs)
  obtain ⟨φ, hφ⟩ := of_eq_of_iff.1 ((of_weight hnodup).trans (htree s hs hfinal))
  refine ⟨φ, hsub, fun t => (hφ t).symm, fun K _ read hread => ?_⟩
  rw [sum_attach_equiv hnodup φ]
  exact (tree s).sum_value _ fun b hb => hread.shares_add (hsub hb)

/-- An option whose body is a choice with both weights stated. -/
def Expr.statedChoice : Expr Letter :=
  .optional (.alt (.weighted 0.25 (.symbol "a")) (.weighted 0.75 (.symbol "b")))

theorem Expr.compile_normalized_statedChoice :
    let d := LogDomain.build LogDomain.defaultPrecision
    let read : Float → ℚ := fun w => if w == 0.25 then 1 / 4 else if w == 0.75 then 3 / 4 else 1 / 2
    statedChoice.Complementary read ∧
      ∃ c : Compiled Letter .probability, statedChoice.compile d = .ok c ∧
        ∃ φ : {t // t ∈ (c.automaton.transitionsFrom c.automaton.start).toList} ≃
            statedChoice.opening.Way,
          (∀ t, t.1.weight = statedChoice.opening.value (Branching.weights d) (φ t)) ∧
          ((c.automaton.transitionsFrom c.automaton.start).toList.attach.map
            fun t => statedChoice.opening.value (Branching.shares read) (φ t)).sum = 1 := by
  intro d read
  have hread : statedChoice.Complementary read := by
    refine ⟨by decide +kernel, fun first second w v hmem hw hv => ?_⟩
    simp only [statedChoice, branchings, symbol, List.append_nil, List.mem_cons, reduceCtorEq,
      Branching.choice.injEq, List.not_mem_nil, or_false, false_or] at hmem
    obtain ⟨rfl, rfl⟩ := hmem
    cases hw
    cases hv
    decide +kernel
  refine ⟨hread, ?_⟩
  obtain ⟨c, hc, -, tree, inner, hstart, -, -, -, hnormalized⟩ := compile_normalized d statedChoice
  obtain ⟨c', f, N, arcs, hc', -, h⟩ := exists_attached (r := .probability) d statedChoice
  obtain rfl : c = c' := Except.ok.inj (hc.symm.trans hc')
  have hnormalized :=
    hnormalized c.automaton.start ((h.contains _).2 (Or.inl rfl)) h.start_ne_final
  rw [hstart] at hnormalized
  obtain ⟨φ, -, hweight, hsum⟩ := hnormalized
  exact ⟨c, hc, φ, hweight, hsum ℚ read hread⟩

end WeightedAutomata
