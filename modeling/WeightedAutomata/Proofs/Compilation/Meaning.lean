import WeightedAutomata.Proofs.Compilation.Assembly
import WeightedAutomata.Proofs.Compilation.Ways
import WeightedAutomata.Proofs.Path
import Mathlib.Algebra.Group.PUnit

/-!
Compilation keeps the meaning of an expression.

The bags of paths to the final state of a compiled automaton solve its system of equations, so what
is known of the expression's fragment holds of them: the paths from the start are the derivations.
-/

namespace WeightedAutomata

open Automaton Bag Compilation Fragment

variable {L I O : Type} {r : Range} [LabelOver L I O] [Alphabet I] [Alphabet O] {K : Type}
  [CommMonoid K]

/-! ### Paths as a bag -/

section Paths

variable (κ : Weight r →* K) (a : Automaton L r I O)

def pathSpelling (p : List (Transition L r)) : Spelling L K :=
  (p.map fun t => Spelling.arc κ t.label t.weight).prod

lemma pathSpelling_eq (p : List (Transition L r)) :
    pathSpelling κ p = (.ofList (p.map (·.label)), κ (Transition.product p)) := by
  unfold pathSpelling Transition.product
  rw [Weight.map_product]
  induction p with
  | nil => rfl
  | cons t p ih =>
    rw [List.map_cons, List.prod_cons, ih]
    rfl

def paths (final s : StateId) : Bag (Spelling L K) :=
  .of fun p : {p // a.Leads s p final} => pathSpelling κ p.1

variable {κ a}

/-- **A path takes one arc and goes on from its target.** -/
lemma paths_eq_total {ts : List (Transition L r)} (ha : Consistent a ts) {final s : StateId}
    (hs : s ≠ final) : paths κ a final s = total κ (paths κ a final) (a.arcs s) := by
  have hnodup := ha.nodup_transitionsFrom s
  have hsum := sum_map_of
    (fun t (p : {p // a.Leads t.target p final}) => pathSpelling κ (t :: p.1)) hnodup
  have htotal : total κ (paths κ a final) (a.arcs s) =
      ((a.transitionsFrom s).toList.map fun t => Bag.of
        fun p : {p // a.Leads t.target p final} => pathSpelling κ (t :: p.1)).sum := by
    rw [arcs_eq, total, Multiset.map_coe, Multiset.sum_coe, List.map_map]
    refine congrArg List.sum (List.map_congr_left fun t _ => ?_)
    exact of_congr (Equiv.punitProd _) fun _ => List.prod_cons
  -- a path that is not empty is its first transition and a path from there
  let path : (t : {t // t ∈ (a.transitionsFrom s).toList}) × {p // a.Leads t.1.target p final} →
      {p // a.Leads s p final} := fun x => ⟨x.1.1 :: x.2.1, x.1.2, x.2.2⟩
  have hinjective : Function.Injective path := by
    rintro ⟨⟨t, ht⟩, ⟨p, hp⟩⟩ ⟨⟨u, hu⟩, ⟨q, hq⟩⟩ h
    obtain ⟨rfl, rfl⟩ := List.cons.inj (Subtype.mk.inj h)
    rfl
  have hsurjective : Function.Surjective path := by
    rintro ⟨p, hp⟩
    cases p with
    | nil => exact absurd hp hs
    | cons t p => exact ⟨⟨⟨t, hp.1⟩, ⟨p, hp.2⟩⟩, rfl⟩
  rw [htotal, hsum]
  exact (of_congr (Equiv.ofBijective path ⟨hinjective, hsurjective⟩) fun _ => rfl).symm

omit [LabelOver L I O] in
lemma paths_self {final : StateId} (h : a.arcs final = 0) : paths κ a final final = 1 := by
  have hnone : (a.transitionsFrom final).toList = [] := by
    rwa [arcs_eq, Multiset.coe_eq_zero, List.map_eq_nil_iff] at h
  have hempty : ∀ p, a.Leads final p final ↔ p = [] := by
    -- nothing leaves the final state, so only the empty path ends there
    intro p
    cases p with
    | nil => simp [Leads]
    | cons t p => simp [Leads, hnone]
  have : Unique {p // a.Leads final p final} := {
    default := ⟨[], rfl⟩
    uniq := fun p => Subtype.ext ((hempty p.1).1 p.2) }
  refine of_congr (Equiv.ofUnique _ Unit) ?_
  rintro ⟨p, hp⟩
  obtain rfl := (hempty p).1 hp
  rfl

end Paths

/-! ### Compiled expressions -/

variable (κ : Weight r →* K) (d : LogDomain) (e : Expr L)

/-- **The paths of a compiled expression are its derivations.** -/
lemma paths_compile : ∃ c : Compiled L r, e.compile d = .ok c ∧
    (∀ s, c.automaton.isFinal s ↔ s = c.final) ∧
    paths κ c.automaton c.final c.automaton.start = derivations κ d e := by
  obtain ⟨c, f, N, arcs, hc, hlayout, h⟩ := exists_attached (r := r) d e
  obtain ⟨ts, hts⟩ := h.consistent
  have henclosed := hlayout.enclosed
  refine ⟨c, hc, h.isFinal, ?_⟩
  -- the paths from each own state solve the equations that the layout gives for it
  have hX : ∀ s ∈ N, paths κ c.automaton c.final s =
      total κ (paths κ c.automaton c.final) (f.out arcs c.final s) := by
    intro s hs
    have hne : s ≠ c.final := fun heq => h.final_notMem (heq ▸ hs)
    rw [paths_eq_total hts hne, h.arcs_own hs]
  calc paths κ c.automaton c.final c.automaton.start
      = total κ (paths κ c.automaton c.final) (f.leads c.final) := by
        rw [paths_eq_total hts h.start_ne_final, h.arcs_start henclosed]
    _ = derivations κ d e * single (Spelling.factor κ 1) * paths κ c.automaton c.final c.final :=
        hlayout.total_leads d c.final hX
    _ = derivations κ d e := by
        rw [paths_self (h.arcs_final henclosed), single_factor_one, mul_one, mul_one]

/-- **Compiling preserves meaning.** Every expression compiles, to an automaton with one final
state, and the paths from the start to it correspond one to one to the derivations of the
expression, with the same labels and, for probabilities, the same weight. -/
theorem Expr.compile_paths_equiv : ∃ c : Compiled L r, e.compile d = .ok c ∧
    (∀ s, c.automaton.isFinal s ↔ s = c.final) ∧
    ∃ φ : {p // c.automaton.Leads c.automaton.start p c.final} ≃ Derivation e,
      ∀ p, p.1.map (·.label) = (φ p).labels ∧
        (r = .probability → Transition.product p.1 = Derivation.weight d e (φ p)) := by
  cases r with
  | probability =>
    obtain ⟨c, hc, hfinal, hpaths⟩ :=
      paths_compile (MonoidHom.id (Weight .probability)) d e
    obtain ⟨φ, hφ⟩ := of_eq_of_iff.1 hpaths
    refine ⟨c, hc, hfinal, φ, fun p => ?_⟩
    have hp := hφ p
    rw [pathSpelling_eq] at hp
    obtain ⟨hlabels, hweight⟩ := Prod.mk.inj hp
    exact ⟨hlabels.symm, fun _ => hweight.symm⟩
  | magnitude =>
    -- products of magnitudes depend on their grouping, so the labels alone are compared
    obtain ⟨c, hc, hfinal, hpaths⟩ := paths_compile (1 : Weight .magnitude →* Unit) d e
    obtain ⟨φ, hφ⟩ := of_eq_of_iff.1 hpaths
    refine ⟨c, hc, hfinal, φ, fun p => ?_⟩
    have hp := hφ p
    rw [pathSpelling_eq] at hp
    obtain ⟨hlabels, -⟩ := Prod.mk.inj hp
    exact ⟨hlabels.symm, fun h => by cases h⟩

/-- One symbol and then any number of another. -/
def Expr.repeatedTail : Expr Letter := .concat (.symbol "a") (.kleene (.symbol "b"))

theorem Expr.compile_paths_equiv_two_passes :
    let d := LogDomain.build LogDomain.defaultPrecision
    let (again, leave) : Weight .probability × Weight .probability := decision d (.symbol "b")
    ∃ c : Compiled Letter .probability, repeatedTail.compile d = .ok c ∧
      ∃ p, c.automaton.Leads c.automaton.start p c.final ∧
        p.map (·.label) =
          [.concrete "a", .epsilon, .concrete "b", .concrete "b", .epsilon] ∧
        Transition.product p = 1 * (leave * Weight.product [again * 1, again * 1]) := by
  intro d
  obtain ⟨c, hc, -, φ, hφ⟩ := compile_paths_equiv (r := .probability) d repeatedTail
  let twoPasses : Derivation repeatedTail := ((), [(), ()])
  obtain ⟨hlabels, hweight⟩ := hφ (φ.symm twoPasses)
  rw [φ.apply_symm_apply] at hlabels hweight
  exact ⟨c, hc, _, (φ.symm twoPasses).2, hlabels, hweight rfl⟩

end WeightedAutomata
