import WeightedAutomata.Compilation.Branching
import WeightedAutomata.Proofs.Bag
import WeightedAutomata.Proofs.Probability
import Mathlib.Algebra.FreeMonoid.Basic
import Mathlib.Algebra.Group.Prod

/-!
What an expression means: its derivations.

A derivation says which side of each choice is taken and how often each loop is passed. It spells
a sequence of labels and has a weight. The bag of all derivations follows the expression: a
sequence is a product, a choice a sum, a loop a repetition.
-/

namespace WeightedAutomata

open Compilation

variable {L I O : Type}

def Derivation : Expr L → Type
  | .epsilon => Unit
  | .token _ => Unit
  | .concat first second => Derivation first × Derivation second
  | .alt first second => Derivation first ⊕ Derivation second
  | .kleene body => List (Derivation body)
  | .positive body => Derivation body × List (Derivation body)
  | .optional body => Option (Derivation body)
  | .weighted _ body => Derivation body

namespace Derivation

/-- The labels that a derivation spells. A loop that starts empty is entered by an epsilon, every
loop is left by one, and an option is passed by with one. -/
def labels [LabelOver L I O] : (e : Expr L) → Derivation e → List L
  | .epsilon, _ => [Label.epsilon]
  | .token label, _ => [label]
  | .concat first second, x => labels first x.1 ++ labels second x.2
  | .alt first second, x => Sum.elim (labels first) (labels second) x
  | .kleene body, xs =>
    Label.epsilon :: ((xs : List (Derivation body)).flatMap (labels body) ++ [Label.epsilon])
  | .positive body, x =>
    labels body x.1 ++ (x.2.flatMap (labels body) ++ [Label.epsilon])
  | .optional body, x => Option.elim x [Label.epsilon] (labels body)
  | .weighted _ body, x => labels body x

def weight {r : Range} (d : LogDomain) : (e : Expr L) → Derivation e → Weight r
  | .epsilon, _ => 1
  | .token _, _ => 1
  | .concat first second, x => weight d first x.1 * weight d second x.2
  | .alt first second, x =>
    let (w, v) := choice d first second
    Sum.elim (fun x => weight d first x * w) (fun x => weight d second x * v) x
  | .kleene body, xs =>
    let (again, leave) := decision d body
    leave * Weight.product ((xs : List (Derivation body)).map fun x => again * weight d body x)
  | .positive body, x =>
    let (again, leave) := decision d body
    weight d body x.1 * leave * Weight.product (x.2.map fun x => again * weight d body x)
  | .optional body, x =>
    let (take, skip) := decision d body
    Option.elim x skip fun x => weight d body x * take
  | .weighted _ body, x => weight d body x

lemma length_labels_pos [LabelOver L I O] (e : Expr L) (x : Derivation e) :
    0 < (labels e x).length := by
  induction e with
  | epsilon | token label => exact Nat.one_pos
  | concat first second ih₁ ih₂ =>
    rw [labels, List.length_append]
    exact Nat.add_pos_left (ih₁ x.1) _
  | alt first second ih₁ ih₂ =>
    obtain x | x := x
    · exact ih₁ x
    · exact ih₂ x
  | kleene body ih => exact Nat.succ_pos _
  | positive body ih =>
    rw [labels, List.length_append]
    exact Nat.add_pos_left (ih x.1) _
  | optional body ih =>
    obtain _ | x := x
    · exact Nat.one_pos
    · exact ih x
  | weighted w body ih => exact ih x

end Derivation

/-! ### Words with weights -/

/-- A sequence of labels, with what is kept of a weight. -/
abbrev Spelling (L K : Type) := FreeMonoid L × K

namespace Spelling

variable {r : Range} {K : Type} [CommMonoid K] (κ : Weight r →* K)

def arc (l : L) (w : Weight r) : Spelling L K := (.of l, κ w)

def factor (w : Weight r) : Spelling L K := (1, κ w)

def length (m : Spelling L K) : Nat := m.1.length

omit [CommMonoid K] in
lemma length_mul [Mul K] (m n : Spelling L K) : (m * n).length = m.length + n.length :=
  FreeMonoid.length_mul m.1 n.1

lemma arc_mul (l : L) (w c : Weight r) : arc κ l (w * c) = arc κ l w * factor κ c :=
  Prod.ext (mul_one _).symm (map_mul κ w c)

lemma factor_mul (w c : Weight r) : factor κ (w * c) = (factor κ w * factor κ c : Spelling L K) :=
  Prod.ext (mul_one _).symm (map_mul κ w c)

lemma factor_mul_comm (w : Weight r) (m : Spelling L K) : factor κ w * m = m * factor κ w :=
  Prod.ext ((one_mul _).trans (mul_one _).symm) (mul_comm _ _)

end Spelling

/-! ### The bag of all derivations -/

section Bag

open Bag WeightedAutomata.Derivation

variable [LabelOver L I O] {r : Range} {K : Type} [CommMonoid K] (κ : Weight r →* K) (d : LogDomain)

def Derivation.spelling (e : Expr L) (x : Derivation e) : Spelling L K :=
  (.ofList (labels e x), κ (weight d e x))

def derivations (e : Expr L) : Bag (Spelling L K) := .of (Derivation.spelling κ d e)

lemma derivations_epsilon :
    derivations κ d (.epsilon : Expr L) = single (Spelling.arc κ Label.epsilon 1) := rfl

lemma derivations_token (l : L) : derivations κ d (.token l) = single (Spelling.arc κ l 1) := rfl

lemma derivations_weighted (w : Float) (e : Expr L) :
    derivations κ d (.weighted w e) = derivations κ d e := rfl

lemma derivations_concat (e e' : Expr L) :
    derivations κ d (.concat e e') = derivations κ d e * derivations κ d e' :=
  of_congr (Equiv.refl _) fun _ => Prod.ext rfl (map_mul κ _ _).symm

lemma derivations_alt (e e' : Expr L) : derivations κ d (.alt e e') =
    derivations κ d e * single (Spelling.factor κ (choice d e e').1) +
      derivations κ d e' * single (Spelling.factor κ (choice d e e').2) := by
  refine of_congr (Equiv.sumCongr (Equiv.prodPUnit _).symm (Equiv.prodPUnit _).symm) ?_
  rintro (x | x)
  · exact Prod.ext (mul_one _) (map_mul κ _ _).symm
  · exact Prod.ext (mul_one _) (map_mul κ _ _).symm

lemma derivations_optional (e : Expr L) : derivations κ d (.optional e) =
    derivations κ d e * single (Spelling.factor κ (decision d e).1) +
      single (Spelling.arc κ Label.epsilon (decision d e).2) := by
  refine of_congr ((Equiv.optionEquivSumPUnit _).trans
    (Equiv.sumCongr (Equiv.prodPUnit _).symm (Equiv.refl _))) ?_
  rintro (_ | x)
  · rfl
  · exact Prod.ext (mul_one _) (map_mul κ _ _).symm

def pass (e : Expr L) (x : Derivation e) : Spelling L K :=
  Spelling.factor κ (decision d e).1 * Derivation.spelling κ d e x

lemma prod_pass (e : Expr L) (xs : List (Derivation e)) : (xs.map (pass κ d e)).prod =
    (.ofList (xs.flatMap (labels e)),
      κ (Weight.product (xs.map fun x => (decision d e).1 * weight d e x))) := by
  rw [Weight.map_product]
  induction xs with
  | nil => rfl
  | cons x xs ih =>
    rw [List.map_cons, List.prod_cons, ih]
    refine Prod.ext ?_ ?_
    · exact congrArg (· * _) (one_mul _)
    · rw [List.map_cons, List.map_cons, List.prod_cons, map_mul]
      rfl

lemma derivations_kleene (e : Expr L) : derivations κ d (.kleene e) =
    single (Spelling.arc κ Label.epsilon 1) *
      (repeated (pass κ d e) * single (Spelling.arc κ Label.epsilon (decision d e).2)) := by
  have hspelling : ∀ xs : List (Derivation e), Spelling.arc κ Label.epsilon 1 *
      ((xs.map (pass κ d e)).prod * Spelling.arc κ Label.epsilon (decision d e).2) =
      (.ofList (Label.epsilon :: (xs.flatMap (labels e) ++ [Label.epsilon])),
        κ ((decision d e).2 *
          Weight.product (xs.map fun x => (decision d e).1 * weight d e x))) := by
    -- one arc into the hub, the passes through the body, one arc out of it
    intro xs
    rw [prod_pass, map_mul, mul_comm (κ _)]
    refine Prod.ext rfl ?_
    change κ 1 * _ = _
    rw [map_one, one_mul]
    rfl
  exact of_congr ((Equiv.prodPUnit _).symm.trans (Equiv.punitProd _).symm) hspelling

lemma derivations_positive (e : Expr L) : derivations κ d (.positive e) =
    derivations κ d e *
      (repeated (pass κ d e) * single (Spelling.arc κ Label.epsilon (decision d e).2)) := by
  have hspelling : ∀ x : Derivation e × List (Derivation e), spelling κ d e x.1 *
      ((x.2.map (pass κ d e)).prod * Spelling.arc κ Label.epsilon (decision d e).2) =
      (.ofList (labels e x.1 ++ (x.2.flatMap (labels e) ++ [Label.epsilon])),
        κ (weight d e x.1 * (decision d e).2 *
          Weight.product (x.2.map fun x => (decision d e).1 * weight d e x))) := by
    -- the first pass has no way around it, so no factor of its own
    intro x
    rw [prod_pass, map_mul, map_mul, mul_assoc, mul_comm (κ (decision d e).2)]
    rfl
  exact of_congr (Equiv.prodCongr (Equiv.refl _) (Equiv.prodPUnit _).symm) hspelling

end Bag

end WeightedAutomata
