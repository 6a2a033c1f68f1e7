import WeightedAutomata.Compilation.Basic
import Mathlib.Tactic.Common

/-!
The stack of tasks, one frame at a time.

A combining task finds on top of the finished fragments those that it was put on the stack for, and
leaves one in their place.
-/

namespace WeightedAutomata.Compilation

variable {L I O : Type} {r : Range} [LabelOver L I O] [Alphabet I] [Alphabet O] (d : LogDomain)

/-! ### Choices by their branches -/

lemma work_lt_of_mem_alternatives {e e' : Expr L} {b : Branch L r}
    (hb : b ∈ alternatives d (.alt e e')) : b.expr.work < (Expr.alt e e').work := by
  have htotal := totalWork_alternatives (r := r) d e e'
  have hle : b.expr.work ≤
      Expr.totalWork ((alternatives (r := r) d (.alt e e')).map Branch.expr) :=
    Expr.work_le_totalWork (List.mem_map_of_mem hb)
  rw [Expr.work]
  omega

/-- What holds of an expression whenever it holds of its parts, and of a choice whenever it holds of
its branches, holds of all expressions. -/
@[elab_as_elim]
theorem branch_induction {motive : Expr L → Prop} (r : Range) (epsilon : motive .epsilon)
    (token : ∀ l, motive (.token l)) (weighted : ∀ w e, motive e → motive (.weighted w e))
    (concat : ∀ e e', motive e → motive e' → motive (.concat e e'))
    (alt : ∀ e e', (∀ b ∈ alternatives (r := r) d (.alt e e'), motive b.expr) →
      motive (.alt e e'))
    (kleene : ∀ e, motive e → motive (.kleene e))
    (positive : ∀ e, motive e → motive (.positive e))
    (optional : ∀ e, motive e → motive (.optional e)) (e : Expr L) : motive e := by
  -- by the work left in an expression, which the branches of a choice have less of
  induction hwork : e.work using Nat.strongRecOn generalizing e with
  | _ n ih =>
  subst hwork
  have part : ∀ e', e'.work < e.work → motive e' := fun e' h => ih _ h e' rfl
  cases e with
  | epsilon => exact epsilon
  | token l => exact token l
  | weighted w e => exact weighted w e (part e (by rw [Expr.work]; omega))
  | concat e e' =>
    exact concat e e' (part e (by rw [Expr.work]; omega)) (part e' (by rw [Expr.work]; omega))
  | alt e e' => exact alt e e' fun b hb => part b.expr (work_lt_of_mem_alternatives d hb)
  | kleene e => exact kleene e (part e (by rw [Expr.work]; omega))
  | positive e => exact positive e (part e (by rw [Expr.work]; omega))
  | optional e => exact optional e (part e (by rw [Expr.work]; omega))

/-! ### Finished fragments -/

variable (done : Array (Fragment L r)) (f g : Fragment L r)

@[simp] lemma operand_push : operand (done.push f) = (f, done) := by
  simp [operand]

lemma lastOnes_append (fs : Array (Fragment L r)) : lastOnes fs.size (done ++ fs) = fs := by
  simp [lastOnes]

lemma take_append (fs : Array (Fragment L r)) :
    (done ++ fs).take ((done ++ fs).size - fs.size) = done := by
  simp

/-! ### Tasks that find their operands -/

lemma perform_concat : Task.concat.perform d ((done.push f).push g) = (do
    return ([], done.push (← f.concat g))) := by
  simp [Task.perform]

lemma perform_merge {fs : List (Fragment L r)} {factors : List (Weight r)}
    (h : fs.length = factors.length) :
    (Task.merge factors).perform d (done ++ fs.toArray) =
      return ([], done.push (mergeScaled fs factors)) := by
  have hsize : factors.length = fs.toArray.size := by rw [← h, List.size_toArray]
  simp only [Task.perform]
  rw [hsize, lastOnes_append, take_append]

lemma perform_closure (again leave : Weight r) :
    (Task.closure again leave).perform d (done.push f) = (do
      return ([], done.push (← f.closure again leave))) := by
  simp [Task.perform]

lemma perform_positive (again leave : Weight r) :
    (Task.positive again leave).perform d ((done.push f).push g) = (do
      return ([], done.push (← f.positiveClosure g again leave))) := by
  simp [Task.perform]

lemma perform_optional (take skip : Weight r) :
    (Task.optional take skip).perform d (done.push f) =
      return ([], done.push (f.optional take skip)) := by
  simp [Task.perform]

end WeightedAutomata.Compilation
