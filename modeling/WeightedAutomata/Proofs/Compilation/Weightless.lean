import WeightedAutomata.Proofs.Automaton.Unweighted
import WeightedAutomata.Proofs.Compilation.Lockstep

/-!
Weights never influence structure.

A stated weight says how much a branch weighs. Which branches there are, and in which order they are
built, is told by the operators alone. So an expression compiles to the same states and the same
transitions in either range and any logarithms, whatever weights are stated in it, negative,
infinite or not a number, and also when none is.
-/

namespace WeightedAutomata

open Automaton Compilation

variable {L I O : Type} {r r' : Range} [LabelOver L I O] [Alphabet I] [Alphabet O]

/-- The expression with no weight stated anywhere in it. -/
def Expr.unweighted : Expr L → Expr L
  | epsilon => epsilon
  | token label => token label
  | concat first second => concat first.unweighted second.unweighted
  | alt first second => alt first.unweighted second.unweighted
  | kleene body => kleene body.unweighted
  | positive body => positive body.unweighted
  | optional body => optional body.unweighted
  | weighted _ body => body.unweighted

/-- Two automata are left the same without their weights, and only states under the same handle
correspond. -/
structure Weightless (P : Correspondence) (a : Automaton L r I O) (b : Automaton L r' I O) :
    Prop where
  consistent : ∃ ts, Consistent a ts
  handles : ∀ s s', P s s' → s = s' ∧ a.contains s
  unweighted : a.unweighted = b.unweighted

namespace Weightless

/-- Edits keep it up, whatever weights they are made with. -/
lemma lockstep : Lockstep (fun (_ : Weight r) (_ : Weight r') => True) (Weightless (L := L)) where
  one := trivial
  mul _ _ := trivial
  contains := by
    intro P a b s s' h hs
    obtain ⟨rfl, hcontains⟩ := h.handles s s' hs
    refine ⟨hcontains, ?_⟩
    rwa [← contains_unweighted, ← h.unweighted, contains_unweighted]
  grow := by
    intro P a b h isFinal
    obtain ⟨ts, ha⟩ := h.consistent
    -- handles are given out alike, since they depend on the slots alone
    have hnext : a.nextState = b.nextState := by
      rw [← nextState_unweighted, h.unweighted, nextState_unweighted]
    refine ⟨fun s s' => P s s' ∨ s = a.nextState ∧ s' = b.nextState, fun _ _ => Or.inl,
      Or.inr ⟨rfl, rfl⟩, ⟨ts, ha.grow isFinal⟩, ?_, ?_⟩
    · rintro s s' (hs | ⟨rfl, rfl⟩)
      · obtain ⟨heq, hcontains⟩ := h.handles s s' hs
        exact ⟨heq, (contains_grow ha.states isFinal s).2 (Or.inl hcontains)⟩
      · exact ⟨hnext, (contains_grow ha.states isFinal _).2 (Or.inr rfl)⟩
    · rw [unweighted_grow, unweighted_grow, h.unweighted]
  link := by
    intro P a b s s' t t' w w' h hs ht _ label
    obtain ⟨rfl, hsource⟩ := h.handles s s' hs
    obtain ⟨rfl, htarget⟩ := h.handles t t' ht
    obtain ⟨ts, ha⟩ := h.consistent
    refine ⟨⟨_, ha.link hsource htarget label w⟩, fun u u' hu => ?_, ?_⟩
    · rw [contains_eq, finality?_link, ← contains_eq]
      exact h.handles u u' hu
    · rw [unweighted_link a, unweighted_link b, h.unweighted]

lemma alike_unweighted (d d' : LogDomain) (e : Expr L) :
    Alike (fun (_ : Weight r) (_ : Weight r') => True) Weightless d d' e e.unweighted := by
  -- the same construct on both sides, apart from weights, which the right side does without
  induction e with
  | epsilon => exact .epsilon lockstep
  | token l => exact .token lockstep l
  | concat e e' ih ih' => exact .concat lockstep ih ih'
  | alt e e' ih ih' => exact .alt lockstep ⟨trivial, trivial⟩ ih ih'
  | kleene e ih => exact .kleene lockstep ⟨trivial, trivial⟩ ih
  | positive e ih => exact .positive lockstep ⟨trivial, trivial⟩ ih
  | optional e ih => exact .optional lockstep ⟨trivial, trivial⟩ ih
  | weighted v e ih => exact .weighted_left v ih

end Weightless

lemma exists_compile_unweighted (r r' : Range) (d d' : LogDomain) (e : Expr L) :
    ∃ (c : Compiled L r) (c' : Compiled L r'), e.compile d = .ok c ∧
      e.unweighted.compile d' = .ok c' ∧ c.final = c'.final ∧
        c.automaton.unweighted = c'.automaton.unweighted := by
  have hnew : Weightless (fun s s' => s = ⟨0, 0⟩ ∧ s' = ⟨0, 0⟩) (new : Automaton L r I O)
      (new : Automaton L r' I O) := by
    refine ⟨⟨[], consistent_new⟩, ?_, by rw [unweighted_new, unweighted_new]⟩
    rintro s s' ⟨rfl, rfl⟩
    exact ⟨rfl, consistent_new.start⟩
  obtain ⟨P, c, final, b, -, hc, hb, h, hfinal⟩ :=
    (Weightless.alike_unweighted d d' e).exists_compile Weightless.lockstep hnew ⟨rfl, rfl⟩
  obtain ⟨rfl, -⟩ := h.handles _ _ hfinal
  exact ⟨c, ⟨b, c.final⟩, hc, compile_of_compileFrom d' hb, rfl, h.unweighted⟩

/-- **Weights never influence structure.** In either range, with any logarithms, with its weights
and without them, an expression compiles to the same states and the same transitions in the same
order, and ends in the same state. -/
theorem Expr.compile_sameStructure (r r' : Range) (d d' : LogDomain) (e : Expr L) :
    ∃ (c : Compiled L r) (c' c'' : Compiled L r'), e.compile d = .ok c ∧ e.compile d' = .ok c' ∧
      e.unweighted.compile d' = .ok c'' ∧ c'.final = c.final ∧ c''.final = c.final ∧
      SameStructure c.automaton c'.automaton ∧ SameStructure c.automaton c''.automaton := by
  obtain ⟨c, c'', hc, hc'', hfinal, hleft⟩ := exists_compile_unweighted r r' d d' e
  obtain ⟨c', c₁, hc', hc₁, hfinal', hleft'⟩ := exists_compile_unweighted r' r' d' d' e
  rw [hc''] at hc₁
  cases hc₁
  exact ⟨c, c', c'', hc, hc', hc'', hfinal'.trans hfinal.symm, hfinal.symm,
    sameStructure_of_unweighted_eq (hleft.trans hleft'.symm), sameStructure_of_unweighted_eq hleft⟩

end WeightedAutomata
