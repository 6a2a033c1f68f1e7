import WeightedAutomata.Proofs.Compilation.Flattening
import WeightedAutomata.Proofs.Compilation.TaskStack

/-!
Fragments of expressions from the fragments of their parts.

Whatever tasks are pending and whatever is finished, a visit of an expression comes to one more
finished fragment. So the fragment of an expression is told by equations, one for each kind of
expression. They hold in either range, where the branches of a choice are merged as they have been
spread out.
-/

namespace WeightedAutomata

open Fragment

namespace Compilation

variable {L I O : Type} {r : Range} [LabelOver L I O] [Alphabet I] [Alphabet O] {d : LogDomain}

/-- To visit an expression is to do what `m` does and to finish the fragment that it gives, before
the tasks that were pending. -/
def Finishes (d : LogDomain) (e : Expr L) (m : Edit L r (Fragment L r)) : Prop :=
  ∀ tasks done, performAll d (.visit e :: tasks) done = (do
    let f ← m
    performAll d tasks (done.push f))

/-- Builds the branches of a choice from left to right and merges them, each multiplied by its
factor. -/
def mergeBranches (d : LogDomain) (bs : List (Branch L r)) : Edit L r (Fragment L r) := do
  let fs ← bs.mapM fun b => b.expr.fragment d
  return mergeScaled fs (bs.map Branch.factor)

lemma mergeBranches_append (bs cs : List (Branch L r)) :
    mergeBranches d (bs ++ cs) = do
      let f ← mergeBranches d bs
      let g ← mergeBranches d cs
      return f.merge g := by
  unfold mergeBranches
  rw [mapM_mergeScaled_append]
  simp only [bind_assoc, pure_bind]

lemma mergeBranches_singleton (b : Branch L r) :
    mergeBranches d [b] = do
      let f ← b.expr.fragment d
      return f.scale b.factor := by
  simp [mergeBranches, mergeScaled_singleton]

namespace Finishes

variable {e e' : Expr L} {m n : Edit L r (Fragment L r)}

lemma fragment_eq (h : Finishes d e m) : e.fragment d = m := by
  unfold Expr.fragment
  simp only [h [] #[], performAll, bind_assoc, pure_bind, operand_push]
  exact bind_pure _

lemma fragment (h : Finishes d e m) :
    Finishes d e (e.fragment d : Edit L r (Fragment L r)) := by
  rw [h.fragment_eq]
  exact h

lemma epsilon : Finishes d .epsilon
    (return Fragment.edge Label.epsilon 1 : Edit L r (Fragment L r)) :=
  fun _ _ => performAll_cons _ _ _ _

lemma token (l : L) :
    Finishes d (.token l) (return Fragment.edge l 1 : Edit L r (Fragment L r)) :=
  fun _ _ => performAll_cons _ _ _ _

lemma weighted (w : Float) (h : Finishes d e m) : Finishes d (.weighted w e) m :=
  fun tasks done => (performAll_cons _ _ _ _).trans (h tasks done)

/-- A visit that puts off one part and a task that takes its fragment. -/
lemma of_part {whole : Expr L} {t : Task L r} {join : Fragment L r → Edit L r (Fragment L r)}
    (hvisit : ∀ done, (Task.visit whole).perform d done = return ([.visit e, t], done))
    (ht : ∀ (done : Array (Fragment L r)) f,
      t.perform d (done.push f) = do return ([], done.push (← join f)))
    (h : Finishes d e m) : Finishes d whole (m >>= join) := by
  intro tasks done
  calc performAll d (.visit whole :: tasks) done
    _ = performAll d (.visit e :: t :: tasks) done := by
      rw [performAll_cons, hvisit]
      rfl
    _ = _ := by simp only [h _ _, performAll_cons d t, ht, bind_assoc, pure_bind, List.nil_append]

/-- A visit that puts off two parts and a task that takes their fragments: the second part is
visited when the first one is finished. -/
lemma of_parts {whole : Expr L} {t : Task L r}
    {join : Fragment L r → Fragment L r → Edit L r (Fragment L r)}
    (hvisit : ∀ done, (Task.visit whole).perform d done = return ([.visit e, .visit e', t], done))
    (ht : ∀ (done : Array (Fragment L r)) f g,
      t.perform d ((done.push f).push g) = do return ([], done.push (← join f g)))
    (h : Finishes d e m) (h' : Finishes d e' n) :
    Finishes d whole (do
      let f ← m
      let g ← n
      join f g) := by
  intro tasks done
  calc performAll d (.visit whole :: tasks) done
    _ = performAll d (.visit e :: .visit e' :: t :: tasks) done := by
      rw [performAll_cons, hvisit]
      rfl
    _ = _ := by
      simp only [h _ _, h' _ _, performAll_cons d t, ht, bind_assoc, pure_bind, List.nil_append]

lemma concat (h : Finishes d e m) (h' : Finishes d e' n) :
    Finishes d (.concat e e') (do
      let f ← m
      let g ← n
      f.concat g) :=
  of_parts (fun _ => rfl) (perform_concat d) h h'

lemma branches {bs : List (Branch L r)}
    (h : ∀ b ∈ bs, Finishes d b.expr (b.expr.fragment d : Edit L r (Fragment L r)))
    (tasks : List (Task L r)) (done : Array (Fragment L r)) :
    performAll d (bs.map (.visit ·.expr) ++ tasks) done = (do
      let fs ← bs.mapM fun b => b.expr.fragment d
      performAll d tasks (done ++ fs.toArray)) := by
  -- the branches are visited in order, and their fragments stand in that order on the stack
  induction bs generalizing done with
  | nil => simp
  | cons b bs ih =>
    have hrest := ih fun b' hb' => h b' (List.mem_cons_of_mem _ hb')
    have hb := h b List.mem_cons_self
    rw [List.map_cons, List.cons_append, hb]
    simp [hrest]

lemma alt (h : ∀ b ∈ alternatives (r := r) d (.alt e e'),
      Finishes d b.expr (b.expr.fragment d : Edit L r (Fragment L r))) :
    Finishes d (.alt e e') (mergeBranches (r := r) d (alternatives d (.alt e e'))) := by
  intro tasks done
  set bs := alternatives (r := r) d (.alt e e')
  calc performAll d (.visit (.alt e e') :: tasks) done
    _ = performAll d (bs.map (.visit ·.expr) ++ (.merge (bs.map Branch.factor) :: tasks)) done := by
      rw [performAll_cons, ← List.singleton_append, ← List.append_assoc]
      rfl
    _ = _ := by
      rw [branches h, mergeBranches]
      simp only [bind_assoc, pure_bind]
      refine mapM_bind_congr fun fs hfs => ?_
      -- the combinator takes as many fragments as there are branches
      rw [performAll_cons, perform_merge d done (by rw [hfs, List.length_map])]
      rfl

lemma kleene (h : Finishes d e m) :
    Finishes d (.kleene e) (do
      let f ← m
      f.closure (decision d e).1 (decision d e).2) :=
  of_part (fun _ => rfl) (fun done f => perform_closure d done f _ _) h

/-- The body is visited twice, for the pass that must be made and for those that may. -/
lemma positive (h : Finishes d e m) :
    Finishes d (.positive e) (do
      let f ← m
      let g ← m
      f.positiveClosure g (decision d e).1 (decision d e).2) :=
  of_parts (fun _ => rfl) (fun done f g => perform_positive d done f g _ _) h h

lemma optional (h : Finishes d e m) :
    Finishes d (.optional e) (do
      let f ← m
      return f.optional (decision d e).1 (decision d e).2) :=
  of_part (fun _ => rfl) (fun done f => perform_optional d done f _ _) h

end Finishes

variable (d)

/-- **A visit of an expression finishes its fragment**, whatever is pending and finished. -/
lemma finishes_fragment (e : Expr L) :
    Finishes d e (e.fragment d : Edit L r (Fragment L r)) := by
  induction e using branch_induction d r with
  | epsilon => exact Finishes.epsilon.fragment
  | token l => exact (Finishes.token l).fragment
  | weighted w e ih => exact (ih.weighted w).fragment
  | concat e e' ih ih' => exact (ih.concat ih').fragment
  | alt e e' ih => exact (Finishes.alt ih).fragment
  | kleene e ih => exact ih.kleene.fragment
  | positive e ih => exact ih.positive.fragment
  | optional e ih => exact ih.optional.fragment

end Compilation

open Compilation

namespace Expr

variable {L I O : Type} {r : Range} [LabelOver L I O] [Alphabet I] [Alphabet O] (d : LogDomain)

/-! ### One equation for each kind of expression -/

lemma fragment_epsilon : (epsilon : Expr L).fragment d =
    (return edge Label.epsilon 1 : Edit L r (Fragment L r)) :=
  Finishes.epsilon.fragment_eq

lemma fragment_token (l : L) : (token l).fragment d =
    (return edge l 1 : Edit L r (Fragment L r)) :=
  (Finishes.token l).fragment_eq

lemma fragment_weighted (w : Float) (e : Expr L) :
    (weighted w e).fragment d = (e.fragment d : Edit L r (Fragment L r)) :=
  ((finishes_fragment d e).weighted w).fragment_eq

lemma fragment_concat (e e' : Expr L) :
    (concat e e').fragment d = (do
      let f ← e.fragment d
      let g ← e'.fragment d
      f.concat g : Edit L r (Fragment L r)) :=
  ((finishes_fragment d e).concat (finishes_fragment d e')).fragment_eq

lemma fragment_alt (e e' : Expr L) :
    (alt e e').fragment d = mergeBranches (r := r) d (alternatives d (alt e e')) :=
  (Finishes.alt fun b _ => finishes_fragment d b.expr).fragment_eq

lemma fragment_kleene (e : Expr L) :
    (kleene e).fragment d = (do
      let f ← e.fragment d
      f.closure (decision d e).1 (decision d e).2 : Edit L r (Fragment L r)) :=
  (finishes_fragment d e).kleene.fragment_eq

lemma fragment_positive (e : Expr L) :
    (positive e).fragment d = (do
      let f ← e.fragment d
      let g ← e.fragment d
      f.positiveClosure g (decision d e).1 (decision d e).2 : Edit L r (Fragment L r)) :=
  (finishes_fragment d e).positive.fragment_eq

lemma fragment_optional (e : Expr L) :
    (optional e).fragment d = (do
      let f ← e.fragment d
      return f.optional (decision d e).1 (decision d e).2 : Edit L r (Fragment L r)) :=
  (finishes_fragment d e).optional.fragment_eq

/-! ### Any expression by its branches -/

lemma fragment_withoutWeight (e : Expr L) :
    e.withoutWeight.fragment d = (e.fragment d : Edit L r (Fragment L r)) := by
  induction e with
  | weighted w e ih => rw [fragment_weighted]; exact ih
  | _ => rfl

/-- An expression is built as the merger of the leaves of its tree of choices. One that is no choice
is its own and only leaf. -/
lemma fragment_leaves (e : Expr L) :
    e.fragment d = mergeBranches (r := r) d (leaves d e 1) := by
  -- only a choice is spread out; anything else is its own single branch
  by_cases hchoice : ∃ first second, e.withoutWeight = alt first second
  · obtain ⟨first, second, h⟩ := hchoice
    have htop : (alt first second).withoutWeight = alt first second := rfl
    rw [← fragment_withoutWeight, h, fragment_alt, alternatives_eq_leaves, leaves_of_alt d htop,
      leaves_of_alt d h]
  · have hleaf : ∀ first second, e.withoutWeight ≠ alt first second := fun first second h =>
      hchoice ⟨first, second, h⟩
    rw [leaves_of_not_alt d hleaf, mergeBranches_singleton]
    simp [scale_one]

end Expr

end WeightedAutomata
