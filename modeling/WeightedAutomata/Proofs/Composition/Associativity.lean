import WeightedAutomata.Proofs.Bag
import WeightedAutomata.Proofs.Composition.Laziness
import WeightedAutomata.Proofs.Composition.Pairing
import WeightedAutomata.Proofs.Walk.Naming

/-!
Composition is associative.

What an automaton relates is a family of paths, each with the word it reads, the word it writes and
its weight; how often a pair of words occurs counts. Up to the names of its paths, the family of a
composition is the composition of the families of its sides, and the family of a materialized
composition is that of the composition. For families associativity is regrouping of pairs.
-/

namespace WeightedAutomata

/-! ### Families of paths -/

/-- The word that a path reads, the word it writes and its weight. -/
@[ext] structure Translation (I O : Type) where
  inputs : List I
  outputs : List O
  weight : Weight .probability

namespace Family

variable {I M N O : Type} {F F' : Family (Translation I M)} {G G' : Family (Translation M O)}

/-- The pairs of paths of which the second reads what the first writes. -/
def comp (F : Family (Translation I M)) (G : Family (Translation M O)) :
    Family (Translation I O) where
  Item := {p : F.Item × G.Item // (F.value p.1).outputs = (G.value p.2).inputs}
  value p := ⟨(F.value p.1.1).inputs, (G.value p.1.2).outputs,
    (F.value p.1.1).weight * (G.value p.1.2).weight⟩

lemma comp_congr (hF : F ≈ F') (hG : G ≈ G') : F.comp G ≈ F'.comp G' := by
  obtain ⟨e, he⟩ := hF
  obtain ⟨e', he'⟩ := hG
  have hmatch : ∀ p : F.Item × G.Item, (F.value p.1).outputs = (G.value p.2).inputs ↔
      (F'.value (e p.1)).outputs = (G'.value (e' p.2)).inputs := by
    intro p
    rw [he, he']
  refine ⟨(e.prodCongr e').subtypeEquiv hmatch, fun p => ?_⟩
  change (⟨(F'.value (e p.1.1)).inputs, (G'.value (e' p.1.2)).outputs,
    (F'.value (e p.1.1)).weight * (G'.value (e' p.1.2)).weight⟩ : Translation I O) = _
  rw [he, he']
  rfl

lemma comp_assoc (F : Family (Translation I M)) (G : Family (Translation M N))
    (H : Family (Translation N O)) : (F.comp G).comp H ≈ F.comp (G.comp H) :=
  ⟨{  toFun := fun p => ⟨(p.1.1.1.1, ⟨(p.1.1.1.2, p.1.2), p.2⟩), p.1.1.2⟩
      invFun := fun p => ⟨(⟨(p.1.1, p.1.2.1.1), p.2⟩, p.1.2.1.2), p.1.2.2⟩
      left_inv := fun _ => rfl
      right_inv := fun _ => rfl },
    fun _ => Translation.ext rfl rfl (mul_assoc _ _ _).symm⟩

end Family

/-! ### The families of automata and of compositions -/

def Automaton.family {L I O : Type} [LabelOver L I O] [Alphabet I] [Alphabet O]
    (a : Automaton L .probability I O) : Family (Translation I O) where
  Item := {p // a.Accepts p}
  value p := ⟨Transition.inputs p.1, Transition.outputs p.1, Transition.product p.1⟩

namespace Automaton.Consistent

variable {L I O : Type} {r : Range} [LabelOver L I O] [Alphabet I] [Alphabet O]
  {a : Automaton L r I O} {ts : List (Transition L r)} (h : a.Consistent ts)

def naming : a.machine.Naming (Transition L r) where
  names s := (a.transitionsFrom s).toList
  arc _ t := t.arc
  nodup := h.nodup_transitionsFrom
  toList_arcs _ := LazyList.toList_map _ _

lemma leads_naming (s : StateId) (p : List (Transition L r)) (u : StateId) :
    h.naming.Leads s p u ↔ a.Leads s p u := by
  induction p generalizing s with
  | nil => rfl
  | cons t p ih => exact and_congr_right' (ih t.target)

lemma arcsAlong_naming (s : StateId) (p : List (Transition L r)) :
    h.naming.arcsAlong s p = p.map Transition.arc := by
  induction p generalizing s with
  | nil => rfl
  | cons t p ih => exact congrArg (t.arc :: ·) (ih t.target)

end Automaton.Consistent

namespace Composition

variable {A B I M O : Type} [LabelOver A I M] [LabelOver B M O]
  [Alphabet I] [Alphabet M] [Alphabet O]

def family (c : Composition A B .probability) : Family (Translation I O) where
  Item := {π // c.Accepts π}
  value π := ⟨inputs (movesAlong c.start π.1), outputs (movesAlong c.start π.1),
    product (movesAlong c.start π.1)⟩

variable {c : Composition A B .probability} {ts : List (Transition A .probability)}
  {us : List (Transition B .probability)}

/-- **The family of a composition is the composition of the families.** -/
lemma family_equiv (hinner : c.inner.Consistent us) :
    c.family ≈ c.outer.family.comp c.inner.family := by
  have hpaths := bijOn_paths hinner
  -- a path of the composition is a pair of paths with the same word between them
  let sides : c.family.Item → (c.outer.family.comp c.inner.family).Item := fun π =>
    have hπ := hpaths.mapsTo π.2
    ⟨(⟨outerPath π.1, hπ.1⟩, ⟨innerPath π.1, hπ.2.1⟩), hπ.2.2⟩
  have hinjective : Function.Injective sides := by
    intro π π' heq
    have houter := congrArg (·.1.1.1) heq
    have hinner := congrArg (·.1.2.1) heq
    exact Subtype.ext (hpaths.injOn π.2 π'.2 (Prod.ext houter hinner))
  have hsurjective : Function.Surjective sides := by
    rintro ⟨⟨⟨p, hp⟩, ⟨q, hq⟩⟩, hword⟩
    obtain ⟨π, hπ, heq⟩ := hpaths.surjOn (show (p, q) ∈ _ from ⟨hp, hq, hword⟩)
    obtain ⟨rfl, rfl⟩ := Prod.mk.inj heq
    exact ⟨⟨π, hπ⟩, rfl⟩
  refine ⟨Equiv.ofBijective sides ⟨hinjective, hsurjective⟩, fun π => Translation.ext ?_ ?_ ?_⟩
  · exact (inputs_movesAlong c.start π.1).symm
  · exact (outputs_movesAlong c.start π.1).symm
  · exact (product_movesAlong c.start π.1).symm

section Naming

variable (houter : c.outer.Consistent ts) (hinner : c.inner.Consistent us)

def naming : c.machine.Naming (Origin A B .probability) where
  names := c.origins
  arc s o := (o.move s).arc
  nodup _ := nodup_origins_of_consistent houter hinner
  toList_arcs s := by
    change ((c.moves s).map ComposedMove.arc).toList = _
    rw [LazyList.toList_map, toList_moves, List.map_map]
    rfl

lemma leads_naming (s : ComposedState) (π : List (Origin A B .probability)) (u : ComposedState) :
    (naming houter hinner).Leads s π u ↔ c.Follows s π u := by
  induction π generalizing s with
  | nil => rfl
  | cons o π ih => exact and_congr_right' (ih (o.move s).target)

lemma arcsAlong_naming (s : ComposedState) (π : List (Origin A B .probability)) :
    (naming houter hinner).arcsAlong s π = (movesAlong s π).map ComposedMove.arc := by
  induction π generalizing s with
  | nil => rfl
  | cons o π ih => exact congrArg ((o.move s).arc :: ·) (ih (o.move s).target)

end Naming

omit [Alphabet I] [Alphabet O] in
/-- Transitions that are drawn for moves, one for each, have their words and weights. -/
lemma words_of_map_arc_eq {f : ComposedState → StateId}
    {p : List (Transition (Pair I O) .probability)} {ms : List (ComposedMove .probability I O)}
    (h : p.map Transition.arc = (ms.map ComposedMove.arc).map (Arc.map f)) :
    Transition.inputs p = inputs ms ∧ Transition.outputs p = outputs ms ∧
      Transition.product p = product ms := by
  rw [List.map_map] at h
  have hlabels : p.map (·.label) = ms.map (·.label) := by
    have := congrArg (List.map Arc.label) h
    rwa [List.map_map, List.map_map] at this
  have hweights : p.map (·.weight) = ms.map (·.weight) := by
    have := congrArg (List.map Arc.weight) h
    rwa [List.map_map, List.map_map] at this
  have hinputs := congrArg (List.filterMap fun l : Pair I O => l.input.value?) hlabels
  have houtputs := congrArg (List.filterMap fun l : Pair I O => l.output.value?) hlabels
  rw [List.filterMap_map, List.filterMap_map] at hinputs houtputs
  exact ⟨hinputs, houtputs, congrArg Weight.product hweights⟩

/-- **The family of a materialized composition is that of the composition.** -/
lemma ReachablePart.family_equiv {t : Transducer .probability I O} {f : ComposedState → StateId}
    {vs : List (Transition (Pair I O) .probability)} (h : c.ReachablePart t f)
    (ht : t.Consistent vs) (houter : c.outer.Consistent ts) (hinner : c.inner.Consistent us) :
    c.family ≈ t.family := by
  obtain ⟨e, he⟩ := h.image.exists_equiv_paths (naming houter hinner) ht.naming
  have hpaths : ∀ π, c.Accepts π ↔ (naming houter hinner).Accepts π := fun π =>
    exists_congr fun u => and_congr_left' (leads_naming houter hinner c.start π u).symm
  have hpaths' : ∀ p, ht.naming.Accepts p ↔ t.Accepts p := fun p =>
    exists_congr fun u => and_congr_left' (ht.leads_naming t.start p u)
  refine ⟨(Equiv.subtypeEquivRight hpaths).trans (e.trans (Equiv.subtypeEquivRight hpaths')),
    fun π => ?_⟩
  have harcs := he ⟨π.1, (hpaths _).1 π.2⟩
  rw [arcsAlong_naming, ht.arcsAlong_naming] at harcs
  obtain ⟨hinputs, houtputs, hproduct⟩ := words_of_map_arc_eq harcs
  exact Translation.ext hinputs houtputs hproduct

/-! ### Associativity -/

lemma family_materialize {limits : Limits} {t : Transducer .probability I O}
    (houter : c.outer.Consistent ts) (hinner : c.inner.Consistent us)
    (ht : c.materialize limits = .ok t) :
    (∃ vs, t.Consistent vs) ∧ t.family ≈ c.outer.family.comp c.inner.family := by
  obtain ⟨x, calls, rfl, hfollows⟩ := follows_of_materialize ht
  have hconsistent := hfollows.consistent
  have hsame := hfollows.reachablePart.family_equiv hconsistent houter hinner
  exact ⟨⟨_, hconsistent⟩, Setoid.trans (Setoid.symm hsame) (family_equiv hinner)⟩

variable {C N : Type} [Alphabet N] {limits : Limits} {t : Transducer .probability I O}

lemma family_left [LabelOver C O N] {b : Automaton C .probability O N}
    {vs : List (Transition C .probability)}
    (houter : c.outer.Consistent ts) (hinner : c.inner.Consistent us) (hb : b.Consistent vs)
    (ht : c.materialize limits = .ok t) : (⟨t, b⟩ : Composition (Pair I O) C .probability).family ≈
      (c.outer.family.comp c.inner.family).comp b.family := by
  obtain ⟨-, hsame⟩ := family_materialize houter hinner ht
  exact Setoid.trans (family_equiv hb) (Family.comp_congr hsame (Setoid.refl _))

lemma family_right [LabelOver C N I] (a : Automaton C .probability N I)
    (houter : c.outer.Consistent ts) (hinner : c.inner.Consistent us)
    (ht : c.materialize limits = .ok t) :
    (⟨a, t⟩ : Composition C (Pair I O) .probability).family ≈
      a.family.comp (c.outer.family.comp c.inner.family) := by
  obtain ⟨⟨ws, ht⟩, hsame⟩ := family_materialize houter hinner ht
  exact Setoid.trans (family_equiv (c := ⟨a, t⟩) ht)
    (Family.comp_congr (Setoid.refl _) hsame)

/-- **Composition is associative.** Of three automata the first two or the last two can be composed
and materialized first, whatever operations the automata come from: the accepting paths correspond,
and corresponding paths read the same word, write the same word and have the same weight. -/
theorem associative [LabelOver C O N] (opsA : List (Operation A .probability))
    (opsB : List (Operation B .probability)) (opsC : List (Operation C .probability))
    {limits limits' : Limits} {ab : Transducer .probability I O}
    {bc : Transducer .probability M N}
    (hab : (⟨.reach opsA, .reach opsB⟩ : Composition A B .probability).materialize limits = .ok ab)
    (hbc : (⟨.reach opsB, .reach opsC⟩ : Composition B C .probability).materialize limits' =
      .ok bc) :
    let left : Composition (Pair I O) C .probability := ⟨ab, .reach opsC⟩
    let right : Composition A (Pair M N) .probability := ⟨.reach opsA, bc⟩
    ∃ e : {π // left.Accepts π} ≃ {π // right.Accepts π}, ∀ π,
      inputs (movesAlong right.start (e π).1) = inputs (movesAlong left.start π.1) ∧
      outputs (movesAlong right.start (e π).1) = outputs (movesAlong left.start π.1) ∧
      product (movesAlong right.start (e π).1) = product (movesAlong left.start π.1) := by
  intro left right
  obtain ⟨ts, hA⟩ := Automaton.consistent_reach opsA
  obtain ⟨us, hB⟩ := Automaton.consistent_reach opsB
  obtain ⟨vs, hC⟩ := Automaton.consistent_reach opsC
  -- both sides are the three families composed, in one bracketing or the other
  have hsame : left.family ≈ right.family := calc
    left.family ≈ ((Automaton.reach opsA).family.comp (Automaton.reach opsB).family).comp
        (Automaton.reach opsC).family := family_left hA hB hC hab
    _ ≈ (Automaton.reach opsA).family.comp
        ((Automaton.reach opsB).family.comp (Automaton.reach opsC).family) :=
      Family.comp_assoc _ _ _
    _ ≈ right.family := Setoid.symm (family_right _ hB hC hbc)
  obtain ⟨e, he⟩ := hsame
  exact ⟨e, fun π => Translation.mk.inj (he π)⟩

def onePath (l : Pair) : (Automaton.reach (oneArc l)).family.Item := ⟨_, accepts_oneArc l⟩

lemma value_onePath (l : Pair) : (Automaton.reach (oneArc l)).family.value (onePath l) =
    ⟨l.input.value?.toList, l.output.value?.toList, 1⟩ := by
  obtain ⟨input, output⟩ := l
  refine Translation.ext ?_ ?_ rfl
  · cases input <;> rfl
  · cases output <;> rfl

/-- One path reads the first word without writing, and the next writes without reading. -/
theorem associative_silent :
    let a := oneArc ⟨.concrete "a", .epsilon⟩
    let b := oneArc ⟨.epsilon, .concrete "b"⟩
    let c := oneArc ⟨.concrete "b", .concrete "c"⟩
    ∃ ab bc : Transducer .probability,
      (⟨.reach a, .reach b⟩ : Composition Pair Pair .probability).materialize ⟨0, 0, 4⟩ = .ok ab ∧
      (⟨.reach b, .reach c⟩ : Composition Pair Pair .probability).materialize ⟨0, 0, 2⟩ = .ok bc ∧
      let right : Composition Pair Pair .probability := ⟨.reach a, bc⟩
      ∃ π, right.Accepts π ∧ inputs (movesAlong right.start π) = ["a"] ∧
        outputs (movesAlong right.start π) = ["c"] ∧ product (movesAlong right.start π) = 1 := by
  intro a b c
  let first : Composition Pair Pair .probability := ⟨.reach a, .reach b⟩
  let second : Composition Pair Pair .probability := ⟨.reach b, .reach c⟩
  have hfirst : ∃ ab, first.materialize ⟨0, 0, 4⟩ = .ok ab := by
    refine exists_materialize [⟨⟨0, 0⟩, ⟨0, 0⟩, .moveBoth⟩, ⟨⟨1, 0⟩, ⟨0, 0⟩, .moveOuter⟩,
      ⟨⟨1, 0⟩, ⟨1, 0⟩, .moveBoth⟩, ⟨⟨0, 0⟩, ⟨1, 0⟩, .moveInner⟩] ?_ ?_ le_rfl
    · decide +kernel
    · decide +kernel
  have hsecond : ∃ bc, second.materialize ⟨0, 0, 2⟩ = .ok bc := by
    refine exists_materialize [⟨⟨0, 0⟩, ⟨0, 0⟩, .moveBoth⟩, ⟨⟨1, 0⟩, ⟨1, 0⟩, .moveBoth⟩]
      ?_ ?_ le_rfl
    · decide +kernel
    · decide +kernel
  obtain ⟨ab, hab⟩ := hfirst
  obtain ⟨bc, hbc⟩ := hsecond
  obtain ⟨e, he⟩ := associative a b c hab hbc
  obtain ⟨ts, hA⟩ := Automaton.consistent_reach a
  obtain ⟨us, hB⟩ := Automaton.consistent_reach b
  obtain ⟨vs, hC⟩ := Automaton.consistent_reach c
  -- the three arcs together are a path on the left
  have houtA := congrArg Translation.outputs (value_onePath ⟨.concrete "a", .epsilon⟩)
  have hinB := congrArg Translation.inputs (value_onePath ⟨.epsilon, .concrete "b"⟩)
  have houtB := congrArg Translation.outputs (value_onePath ⟨.epsilon, .concrete "b"⟩)
  have hinC := congrArg Translation.inputs (value_onePath ⟨.concrete "b", .concrete "c"⟩)
  let whole : (((Automaton.reach a).family.comp (Automaton.reach b).family).comp
      (Automaton.reach c).family).Item :=
    ⟨(⟨(onePath _, onePath _), houtA.trans hinB.symm⟩, onePath _), houtB.trans hinC.symm⟩
  have hwhole : Family.value _ whole = ⟨["a"], ["c"], 1⟩ := by
    change (⟨_, _, _ * _ * _⟩ : Translation String String) = _
    rw [value_onePath, value_onePath, value_onePath, one_mul, one_mul]
    rfl
  obtain ⟨e', he'⟩ := Setoid.symm (family_left (c := first) hA hB hC hab)
  obtain ⟨hin, hout, hproduct⟩ := Translation.mk.inj ((he' whole).trans hwhole)
  obtain ⟨hin', hout', hproduct'⟩ := he (e' whole)
  exact ⟨ab, bc, hab, hbc, _, (e (e' whole)).2, hin'.trans hin, hout'.trans hout,
    hproduct'.trans hproduct⟩

end Composition

end WeightedAutomata
