import WeightedAutomata.Expr
import WeightedAutomata.Weight

/-!
The weights at which an expression branches.

A loop or option is taken with the weight stated on its body and left with the rest to one. The
sides of a choice get the weights stated on them; a side without one gets the rest. Choices within
choices are spread out into one list of branches, each with the product of the weights on the way
down to it.
-/

namespace WeightedAutomata.Compilation

variable {L : Type} {r : Range} (d : LogDomain)

/-- The weight of a loop, an option or a side of a choice when none is stated. -/
def defaultBranchWeight : Float := 0.5

/-- The weights of taking a body and of leaving it. -/
def decision (body : Expr L) : Weight r × Weight r :=
  let w := body.branchWeight?.getD defaultBranchWeight
  (.ofFloat d w, .ofFloat d (1 - w))

/-- The weights of the two sides of a choice, as stated. -/
def shares (first second : Expr L) : Float × Float :=
  match first.branchWeight?, second.branchWeight? with
  | some w, some v => (w, v)
  | some w, none => (w, 1 - w)
  | none, some v => (1 - v, v)
  | none, none => (defaultBranchWeight, defaultBranchWeight)

def choice (first second : Expr L) : Weight r × Weight r :=
  let (w, v) := shares first second
  (.ofFloat d w, .ofFloat d v)

/-- One way to go at a choice, with the weight of going there. -/
structure Branch (L : Type) (r : Range) where
  expr : Expr L
  factor : Weight r

end WeightedAutomata.Compilation

namespace WeightedAutomata.Expr

/-- A measure of the work of compiling an expression: a positive closure compiles its body twice.
-/
def work {L : Type} : Expr L → Nat
  | epsilon => 1
  | token _ => 1
  | concat a b => a.work + b.work + 1
  | alt a b => a.work + b.work + 1
  | kleene e => e.work + 1
  | positive e => 2 * e.work + 1
  | optional e => e.work + 1
  | weighted _ e => e.work + 1

theorem work_pos {L : Type} (e : Expr L) : 0 < e.work := by cases e <;> simp [work]

theorem work_withoutWeight_le {L : Type} (e : Expr L) : e.withoutWeight.work ≤ e.work := by
  induction e with
  | weighted w e ih => rw [withoutWeight, work]; omega
  | _ => exact Nat.le_refl _

def totalWork {L : Type} (es : List (Expr L)) : Nat := es.foldr (fun e total => e.work + total) 0

@[simp] theorem totalWork_nil {L : Type} : totalWork ([] : List (Expr L)) = 0 := rfl

@[simp] theorem totalWork_cons {L : Type} (e : Expr L) (es : List (Expr L)) :
    totalWork (e :: es) = e.work + totalWork es := rfl

@[simp] theorem totalWork_append {L : Type} (es fs : List (Expr L)) :
    totalWork (es ++ fs) = totalWork es + totalWork fs := by
  induction es with
  | nil => simp
  | cons e es ih => rw [List.cons_append, totalWork_cons, totalWork_cons, ih, Nat.add_assoc]

theorem work_le_totalWork {L : Type} {e : Expr L} {es : List (Expr L)} (he : e ∈ es) :
    e.work ≤ totalWork es := by
  obtain ⟨before, after, rfl⟩ := List.append_of_mem he
  rw [totalWork_append, totalWork_cons]
  omega

end WeightedAutomata.Expr

namespace WeightedAutomata.Compilation

variable {L : Type} {r : Range} (d : LogDomain)

/-- Takes pending branches apart from left to right: a choice makes room for its two sides, anything
else is one more branch found. A stated weight does not hide a choice below it. -/
def spread : List (Branch L r) → Array (Branch L r) → Array (Branch L r)
  | [], found => found
  | b :: pending, found =>
    match _h : b.expr.withoutWeight with
    | .alt first second =>
      let (w, v) := choice d first second
      spread (⟨first, b.factor * w⟩ :: ⟨second, b.factor * v⟩ :: pending) found
    | _ => spread pending (found.push b)
termination_by pending => Expr.totalWork (pending.map Branch.expr)
decreasing_by
  · have := b.expr.work_withoutWeight_le
    simp only [_h, Expr.work] at this
    simp only [List.map_cons, Expr.totalWork_cons]
    omega
  · have := b.expr.work_pos
    simp only [List.map_cons, Expr.totalWork_cons]
    omega

/-- All branches of a choice from left to right. What is no choice is its own and only branch. -/
def alternatives (e : Expr L) : List (Branch L r) := (spread d [⟨e, 1⟩] #[]).toList

theorem alternatives_alt (first second : Expr L) :
    alternatives (r := r) d (.alt first second) =
      (spread d [⟨first, 1 * (choice d first second).1⟩,
        ⟨second, 1 * (choice d first second).2⟩] #[]).toList := by
  rw [alternatives, spread]
  rfl

theorem totalWork_spread (pending : List (Branch L r)) (found : Array (Branch L r)) :
    Expr.totalWork ((spread d pending found).toList.map Branch.expr) ≤
      Expr.totalWork (pending.map Branch.expr) + Expr.totalWork (found.toList.map Branch.expr) := by
  fun_induction spread d pending found with
  | case1 found => simp
  -- a choice is itself one unit of work, so its two operands have less
  | case2 b pending found first second h w v hc ih =>
    have := b.expr.work_withoutWeight_le
    simp only [h, Expr.work] at this
    simp only [List.map_cons, Expr.totalWork_cons] at ih ⊢
    omega
  | case3 b pending found h ih =>
    simp only [Array.toList_push, List.map_append, Expr.totalWork_append, List.map_cons,
      List.map_nil, Expr.totalWork_cons, Expr.totalWork_nil] at ih ⊢
    omega

/-- Branches are parts of the choice, so together they are less work than it. -/
theorem totalWork_alternatives (first second : Expr L) :
    Expr.totalWork ((alternatives (r := r) d (.alt first second)).map Branch.expr) ≤
      first.work + second.work := by
  have := totalWork_spread d [⟨first, 1 * (choice (r := r) d first second).1⟩,
    ⟨second, 1 * (choice (r := r) d first second).2⟩] #[]
  simp only [List.map_cons, List.map_nil, Expr.totalWork_cons, Expr.totalWork_nil] at this
  rw [alternatives_alt]
  exact this

end WeightedAutomata.Compilation
