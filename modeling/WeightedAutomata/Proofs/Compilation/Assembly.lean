import WeightedAutomata.Proofs.Compilation.Equations
import WeightedAutomata.Proofs.Compilation.Extension
import WeightedAutomata.Proofs.Compilation.Layout

/-!
Expressions are laid out as they are built.

Building an expression succeeds and lays it out, and so does compiling it, between a start and a
final state. The branches of a choice, spread out in one list, are laid out as the choice is, side
by side.
-/

namespace WeightedAutomata

open Automaton Compilation Fragment

variable {L I O : Type} {r : Range} [LabelOver L I O] [Alphabet I] [Alphabet O] (d : LogDomain)

/-! ### Built expressions -/

/-- Between two automata an expression has been laid out. -/
def LaidOut (a b : Automaton L r I O) (e : Expr L) (w : Weight r) (f : Fragment L r) : Prop :=
  ∃ N arcs, Extends a b N arcs ∧ Layout d e w f N arcs

namespace LaidOut

variable {d} {a b c : Automaton L r I O} {e e' : Expr L} {w : Weight r} {f g : Fragment L r}

lemma consistent (h : LaidOut d a b e w f) : ∃ ts, Consistent b ts := by
  obtain ⟨N, arcs, hab, -⟩ := h
  exact hab.consistent

lemma weighted (v : Float) (h : LaidOut d a b e w f) : LaidOut d a b (.weighted v e) w f := by
  obtain ⟨N, arcs, hab, h⟩ := h
  exact ⟨N, arcs, hab, h.weighted v⟩

/-- The weights stated at the top of an expression do not show in its layout. -/
lemma of_withoutWeight (h : LaidOut d a b e.withoutWeight w f) : LaidOut d a b e w f := by
  induction e with
  | weighted v e ih => exact (ih h).weighted v
  | _ => exact h

lemma scale (h : LaidOut d a b e 1 f) (w : Weight r) : LaidOut d a b e w (f.scale w) := by
  obtain ⟨N, arcs, hab, h⟩ := h
  exact ⟨N, arcs, hab, h.scaled w⟩

lemma optional (h : LaidOut d a b e 1 f) :
    LaidOut d a b (.optional e) 1 (f.optional (decision d e).1 (decision d e).2) := by
  obtain ⟨N, arcs, hab, h⟩ := h
  exact ⟨N, arcs, hab, h.optional⟩

lemma alt (hf : LaidOut d a b e (w * (choice d e e').1) f)
    (hg : LaidOut d b c e' (w * (choice d e e').2) g) :
    LaidOut d a c (.alt e e') w (f.merge g) := by
  obtain ⟨N, arcs, hab, hf⟩ := hf
  obtain ⟨N', arcs', hbc, hg⟩ := hg
  exact ⟨_, _, hab.trans hbc, hf.alt hg (hab.disjoint hbc)⟩

lemma concat (hf : LaidOut d a b e 1 f) (hg : LaidOut d b c e' 1 g) :
    ∃ h k, f.concat g c = .ok h k ∧ LaidOut d a k (.concat e e') 1 h := by
  obtain ⟨N, arcs, hab, hf⟩ := hf
  obtain ⟨N', arcs', hbc, hg⟩ := hg
  have hac := hab.trans hbc
  obtain ⟨k, hk, hck⟩ := extends_concat hac.consistent
    (fun x hx => (hac.contains _).2 (Or.inr (Or.inl (hf.enclosed.exits x hx))))
    (fun y hy => (hac.contains _).2 (Or.inr (Or.inr (hg.enclosed.entries y hy))))
  have hnew := hac.disjoint hck
  rw [Set.disjoint_singleton_right] at hnew
  obtain ⟨hN, hN'⟩ := not_or.1 hnew
  exact ⟨_, k, hk, _, _, hac.trans hck, hf.concat hg (hab.disjoint hbc) hN hN'⟩

lemma kleene (hg : LaidOut d a b e 1 g) : ∃ h c,
    g.closure (decision d e).1 (decision d e).2 b = .ok h c ∧ LaidOut d a c (.kleene e) 1 h := by
  obtain ⟨N, arcs, hab, hg⟩ := hg
  obtain ⟨c, hc, hbc⟩ := extends_closure hab.consistent
    (fun e he => (hab.contains _).2 (Or.inr (hg.enclosed.entries e he)))
    (fun x hx => (hab.contains _).2 (Or.inr (hg.enclosed.exits x hx))) _ _
  have hN := hab.disjoint hbc
  rw [Set.disjoint_singleton_right] at hN
  exact ⟨_, c, hc, _, _, hab.trans hbc, hg.kleene hN⟩

lemma positive (hf : LaidOut d a b e 1 f) (hg : LaidOut d b c e 1 g) : ∃ h k,
    f.positiveClosure g (decision d e).1 (decision d e).2 c = .ok h k ∧
      LaidOut d a k (.positive e) 1 h := by
  obtain ⟨N, arcs, hab, hf⟩ := hf
  obtain ⟨N', arcs', hbc, hg⟩ := hg
  have hac := hab.trans hbc
  obtain ⟨k, hk, hck⟩ := extends_positiveClosure hac.consistent
    (fun x hx => (hac.contains _).2 (Or.inr (Or.inl (hf.enclosed.exits x hx))))
    (fun y hy => (hac.contains _).2 (Or.inr (Or.inr (hg.enclosed.entries y hy))))
    (fun x hx => (hac.contains _).2 (Or.inr (Or.inr (hg.enclosed.exits x hx)))) _ _
  have hnew := hac.disjoint hck
  rw [Set.disjoint_singleton_right] at hnew
  obtain ⟨hN, hN'⟩ := not_or.1 hnew
  exact ⟨_, k, hk, _, _, hac.trans hck, hf.positive hg (hab.disjoint hbc) hN hN'⟩

end LaidOut

/-- Wherever the expression is built, it is laid out. -/
def LaidOutAnywhere (r : Range) (e : Expr L) : Prop :=
  ∀ ⦃a : Automaton L r I O⦄, (∃ ts, Consistent a ts) →
    ∃ f b, e.fragment d a = .ok f b ∧ LaidOut d a b e 1 f

lemma laidOut_leaves {e : Expr L} {w : Weight r}
    (hleaves : ∀ b ∈ leaves d e w, LaidOutAnywhere d r b.expr) {a : Automaton L r I O}
    (ha : ∃ ts, Consistent a ts) :
    ∃ f c, mergeBranches d (leaves d e w) a = .ok f c ∧ LaidOut d a c e w f := by
  fun_induction leaves d e w generalizing a with
  | case1 e w first second h ih₁ ih₂ =>
    obtain ⟨f, b, hf, hfirst⟩ := ih₁ (fun l hl => hleaves l (List.mem_append_left _ hl)) ha
    obtain ⟨g, c, hg, hsecond⟩ := ih₂ (fun l hl => hleaves l (List.mem_append_right _ hl))
      hfirst.consistent
    -- a choice with or without a weight on it has the same layout
    refine ⟨f.merge g, c, ?_, LaidOut.of_withoutWeight ?_⟩
    · rw [mergeBranches_append, Edit.bind_ok hf, Edit.bind_ok hg]
      rfl
    · rw [h]
      exact hfirst.alt hsecond
  | case2 e w h =>
    obtain ⟨f, b, hf, hlaid⟩ := hleaves ⟨e, w⟩ List.mem_cons_self ha
    refine ⟨f.scale w, b, ?_, hlaid.scale w⟩
    rw [mergeBranches_singleton, Edit.bind_ok hf]
    rfl

/-- **Every expression is laid out**, wherever it is built. -/
lemma exists_fragment (e : Expr L) : LaidOutAnywhere d r e := by
  induction e using branch_induction d r with
  | epsilon =>
    rintro a ⟨ts, ha⟩
    rw [Expr.fragment_epsilon]
    exact ⟨_, a, rfl, ∅, 0, Extends.refl ha, .epsilon⟩
  | token l =>
    rintro a ⟨ts, ha⟩
    rw [Expr.fragment_token]
    exact ⟨_, a, rfl, ∅, 0, Extends.refl ha, .token l⟩
  | weighted v e ih =>
    intro a ha
    obtain ⟨f, b, hf, hlaid⟩ := ih ha
    rw [Expr.fragment_weighted]
    exact ⟨f, b, hf, hlaid.weighted v⟩
  | concat e e' ih ih' =>
    intro a ha
    obtain ⟨f, b, hf, hlaid⟩ := ih ha
    obtain ⟨g, c, hg, hlaid'⟩ := ih' hlaid.consistent
    obtain ⟨h, k, hh, hconcat⟩ := hlaid.concat hlaid'
    refine ⟨h, k, ?_, hconcat⟩
    rw [Expr.fragment_concat, Edit.bind_ok hf, Edit.bind_ok hg, hh]
  | alt e e' ih =>
    intro a ha
    rw [alternatives_eq_leaves] at ih
    rw [Expr.fragment_alt, alternatives_eq_leaves]
    exact laidOut_leaves d ih ha
  | kleene e ih =>
    intro a ha
    obtain ⟨f, b, hf, hlaid⟩ := ih ha
    obtain ⟨h, c, hh, hkleene⟩ := hlaid.kleene
    refine ⟨h, c, ?_, hkleene⟩
    rw [Expr.fragment_kleene, Edit.bind_ok hf, hh]
  | positive e ih =>
    intro a ha
    obtain ⟨f, b, hf, hlaid⟩ := ih ha
    obtain ⟨g, c, hg, hlaid'⟩ := ih hlaid.consistent
    obtain ⟨h, k, hh, hpositive⟩ := hlaid.positive hlaid'
    refine ⟨h, k, ?_, hpositive⟩
    rw [Expr.fragment_positive, Edit.bind_ok hf, Edit.bind_ok hg, hh]
  | optional e ih =>
    intro a ha
    obtain ⟨f, b, hf, hlaid⟩ := ih ha
    refine ⟨_, b, ?_, hlaid.optional⟩
    rw [Expr.fragment_optional, Edit.bind_ok hf]
    rfl

/-! ### Compiled expressions -/

/-- A piece that has been attached: its own states, a start before them and a final state behind. -/
structure Attached (c : Compiled L r) (f : Fragment L r) (N : Set StateId)
    (arcs : StateId → Multiset (Arc StateId L r)) : Prop where
  consistent : ∃ ts, Consistent c.automaton ts
  contains : ∀ s, c.automaton.contains s ↔ s = c.automaton.start ∨ s ∈ N ∨ s = c.final
  isFinal : ∀ s, c.automaton.isFinal s ↔ s = c.final
  arcs : c.automaton.arcs =
    arcs + (Pi.single c.automaton.start (f.leads c.final) + exitArcs f.exits c.final)
  start_notMem : c.automaton.start ∉ N
  final_notMem : c.final ∉ N
  start_ne_final : c.automaton.start ≠ c.final

namespace Attached

variable {c : Compiled L r} {f : Fragment L r} {N : Set StateId}
  {arcs : StateId → Multiset (Arc StateId L r)} {s : StateId}

lemma arcs_eq (h : Attached c f N arcs) (s : StateId) : c.automaton.arcs s =
    f.out arcs c.final s + (Pi.single c.automaton.start (f.leads c.final) : StateId → _) s := by
  rw [h.arcs, out, Pi.add_apply, Pi.add_apply, add_assoc, add_comm (exitArcs _ _ _)]

lemma arcs_own (h : Attached c f N arcs) (hs : s ∈ N) :
    c.automaton.arcs s = f.out arcs c.final s := by
  have hstart : s ≠ c.automaton.start := fun heq => h.start_notMem (heq ▸ hs)
  rw [h.arcs_eq, Pi.single_eq_of_ne hstart, add_zero]

lemma arcs_start (h : Attached c f N arcs) (henclosed : Enclosed f N arcs) :
    c.automaton.arcs c.automaton.start = f.leads c.final := by
  rw [h.arcs_eq, henclosed.out_eq_zero h.start_notMem, Pi.single_eq_same, zero_add]

lemma arcs_final (h : Attached c f N arcs) (henclosed : Enclosed f N arcs) :
    c.automaton.arcs c.final = 0 := by
  rw [h.arcs_eq, henclosed.out_eq_zero h.final_notMem, Pi.single_eq_of_ne h.start_ne_final.symm,
    add_zero]

end Attached

lemma compileFrom_of_contains {e : Expr L} {a : Automaton L r I O} {s : StateId}
    (hs : a.contains s) :
    e.compileFrom d s a = (e.fragment d >>= fun f => f.attach s) a := by
  unfold Expr.compileFrom
  rw [Edit.get_bind, if_neg (by simp [hs])]

lemma compile_of_compileFrom {e : Expr L} {final : StateId} {a : Automaton L r I O}
    (h : e.compileFrom d (new : Automaton L r I O).start new = .ok final a) :
    e.compile d = .ok ⟨a, final⟩ := by
  unfold Expr.compile
  simp only [h]

/-- An expression is compiled in two steps: its fragment is built, then attached to the start. -/
lemma compile_eq_ok_iff {e : Expr L} {c : Compiled L r} : e.compile d = .ok c ↔
    ∃ f a, e.fragment d (new : Automaton L r I O) = .ok f a ∧
      f.attach (new : Automaton L r I O).start a = .ok c.final c.automaton := by
  have hstart : (new : Automaton L r I O).contains (new : Automaton L r I O).start :=
    consistent_new.start
  unfold Expr.compile
  dsimp only
  rw [compileFrom_of_contains d hstart]
  cases hf : e.fragment d (new : Automaton L r I O) with
  | error cause a => simp [bind, EStateM.bind, hf]
  | ok f a =>
    rw [Edit.bind_ok hf]
    cases hc : f.attach (new : Automaton L r I O).start a with
    | error cause b => simp [hc]
    | ok final b =>
      obtain ⟨automaton, final'⟩ := c
      simp [hc, and_comm]

omit [Alphabet I] [Alphabet O] in
lemma Layout.ends {e : Expr L} {w : Weight r} {f : Fragment L r} {N : Set StateId}
    {arcs : StateId → Multiset (Arc StateId L r)} (h : Layout d e w f N arcs) :
    f.passages ≠ #[] ∨ f.exits ≠ #[] := by
  induction h with
  | epsilon | token l => exact Or.inl (by simp [Fragment.edge])
  | weighted v h ih => exact ih
  | scaled w h ih => exact ih.imp_left fun hp => by simpa [Fragment.scale] using hp
  | alt hf hg hdisjoint ihf ihg =>
    refine ihf.imp ?_ ?_
    · exact fun hp => by simp [Fragment.merge, hp]
    · exact fun hx => by simp [Fragment.merge, hx]
  -- with a passage of `g` there is an exit from the junction, otherwise one of `g` itself
  | concat hf hg hdisjoint hN hN' ihf ihg =>
    refine Or.inr ?_
    rcases ihg with hp | hx
    · simp [Fragment.through, hp]
    · simp [Fragment.through, hx]
  | kleene hg hN ih => exact Or.inr (by simp [Fragment.around])
  | positive hf hg hdisjoint hN hN' ihf ihg => exact Or.inr (by simp [Fragment.onto])
  | optional h ih => exact Or.inl (by simp [Fragment.optional, Fragment.addPassage])

/-- **Every expression compiles**, to its layout between a start and a final state. -/
lemma exists_attached (e : Expr L) : ∃ (c : Compiled L r) (f : Fragment L r) (N : Set StateId)
    (arcs : StateId → Multiset (Arc StateId L r)),
      e.compile d = .ok c ∧ Layout d e 1 f N arcs ∧ Attached c f N arcs := by
  have hnew : Consistent (new : Automaton L r I O) [] := consistent_new
  obtain ⟨f, a, hfragment, N, arcs, hnewa, hlayout⟩ := exists_fragment d e ⟨[], hnew⟩
  have hown : ∀ s ∈ N, a.contains s := fun s hs => (hnewa.contains s).2 (Or.inr hs)
  obtain ⟨b, c, before, after, hattach, hab, hbc, hadded⟩ := extends_attach hnewa.consistent
    (hnewa.contains_of_contains hnew.start) (fun x hx => hown _ (hlayout.enclosed.entries x hx))
    (fun x hx => hown _ (hlayout.enclosed.exits x hx)) hlayout.ends
  obtain ⟨us, hb⟩ := hab.consistent
  have hcontains : ∀ s, b.contains s ↔ (new : Automaton L r I O).contains s ∨ s ∈ N := fun s => by
    rw [hab.contains, hnewa.contains, Set.mem_empty_iff_false, or_false]
  have hstart : b.contains (new : Automaton L r I O).start := (hcontains _).2 (Or.inl hnew.start)
  refine ⟨⟨c, b.nextState⟩, f, N, arcs, (compile_eq_ok_iff d).2 ⟨f, a, hfragment, hattach⟩, hlayout,
    { consistent := hbc.consistent
      contains := fun s => ?contains
      isFinal := fun s => ?isFinal
      arcs := ?arcs
      start_notMem := fun h => hnewa.fresh _ h hnew.start
      final_notMem := fun h => hb.not_contains_nextState ((hcontains _).2 (Or.inr h))
      start_ne_final := fun h => ?distinct }⟩
  case contains =>
    rw [hbc.contains, contains_grow hb.states, hcontains, contains_new, Set.mem_empty_iff_false,
      or_false, or_assoc]
    rfl
  case isFinal =>
    rw [hbc.isFinal, isFinal_grow_true hb.states, hab.isFinal, hnewa.isFinal, isFinal_new]
    simp
  case distinct =>
    change (new : Automaton L r I O).start = b.nextState at h
    rw [h] at hstart
    exact hb.not_contains_nextState hstart
  case arcs =>
    rw [hbc.arcs, hb.arcs_grow, hab.arcs, hnewa.arcs, arcs_new, zero_add, add_assoc, hadded]
    rfl

end WeightedAutomata
