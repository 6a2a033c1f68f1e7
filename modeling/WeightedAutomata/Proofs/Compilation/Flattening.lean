import WeightedAutomata.Compilation.Structural
import WeightedAutomata.Proofs.Probability

/-!
Choices within choices, spread out.

A tree of choices is built side by side: each side is scaled by its share and the two are merged.
Spread out, every leaf of the tree is scaled once, by the product of the shares on the way down to
it. Probabilities may be multiplied in any order, so both give the same fragment; the leaves are
built from left to right in either case, so both do the same to the automaton.
-/

namespace WeightedAutomata

/-! ### Scaling and merging -/

namespace Fragment

variable {L : Type} {r : Range}

lemma empty_merge (f : Fragment L r) : empty.merge f = f := by
  simp [merge, empty]

lemma merge_assoc (f g h : Fragment L r) : (f.merge g).merge h = f.merge (g.merge h) := by
  simp [merge]

lemma scale_merge (f g : Fragment L r) (w : Weight r) :
    (f.merge g).scale w = (f.scale w).merge (g.scale w) := by
  simp [merge, scale]

lemma scale_one (f : Fragment L r) : f.scale 1 = f := by
  simp [scale]

lemma scale_scale (f : Fragment L .probability) (w v : Weight .probability) :
    (f.scale w).scale v = f.scale (w * v) := by
  simp [scale, mul_assoc]

end Fragment

namespace Compilation

open Fragment

section Merging

variable {L : Type} {r : Range}

lemma foldl_merge (ps : List (Fragment L r × Weight r)) (f : Fragment L r) :
    ps.foldl (fun merged (g, factor) => merged.merge (g.scale factor)) f =
      f.merge (ps.foldl (fun merged (g, factor) => merged.merge (g.scale factor)) .empty) := by
  induction ps generalizing f with
  | nil => simp [merge, empty]
  | cons p ps ih =>
    rw [List.foldl_cons, List.foldl_cons, ih, ih (empty.merge _), empty_merge, merge_assoc]

lemma mergeScaled_singleton (f : Fragment L r) (w : Weight r) :
    mergeScaled [f] [w] = f.scale w := empty_merge _

lemma mergeScaled_append {fs gs : List (Fragment L r)} {ws vs : List (Weight r)}
    (h : fs.length = ws.length) : mergeScaled (fs ++ gs) (ws ++ vs) =
      (mergeScaled fs ws).merge (mergeScaled gs vs) := by
  unfold mergeScaled
  rw [List.zip_append h, List.foldl_append, foldl_merge]

lemma mergeScaled_cons (f : Fragment L r) (fs : List (Fragment L r)) (w : Weight r)
    (ws : List (Weight r)) :
    mergeScaled (f :: fs) (w :: ws) = (f.scale w).merge (mergeScaled fs ws) := by
  have hlength : [f].length = [w].length := rfl
  rw [← mergeScaled_singleton f w, ← mergeScaled_append hlength, List.singleton_append,
    List.singleton_append]

end Merging

/-! ### The leaves of a tree of choices -/

variable {L : Type} (d : LogDomain)

/-- The leaves of a tree of choices from left to right, each with the product of the shares on the
way down to it. -/
def leaves {r : Range} (e : Expr L) (w : Weight r) : List (Branch L r) :=
  match _h : e.withoutWeight with
  | .alt first second =>
    leaves first (w * (choice d first second).1) ++ leaves second (w * (choice d first second).2)
  | _ => [⟨e, w⟩]
termination_by e.work
decreasing_by
  all_goals
    have := e.work_withoutWeight_le
    simp only [_h, Expr.work] at this
    omega

lemma leaves_of_alt {r : Range} {e first second : Expr L} (h : e.withoutWeight = .alt first second)
    (w : Weight r) : leaves d e w =
      leaves d first (w * (choice d first second).1) ++
        leaves d second (w * (choice d first second).2) := by
  rw [leaves, h]

lemma leaves_of_not_alt {r : Range} {e : Expr L}
    (h : ∀ first second, e.withoutWeight ≠ .alt first second) (w : Weight r) :
    leaves d e w = [⟨e, w⟩] := by
  rw [leaves]
  split
  next first second halt => exact absurd halt (h first second)
  next => rfl

lemma toList_spread {r : Range} (pending : List (Branch L r)) (found : Array (Branch L r)) :
    (spread d pending found).toList =
      found.toList ++ pending.flatMap fun b => leaves d b.expr b.factor := by
  -- as the loop goes: a choice puts its operands back in front, anything else is a branch found
  fun_induction spread d pending found with
  | case1 found => simp
  | case2 b pending found first second h w v hc ih =>
    have hb : leaves d b.expr b.factor =
        leaves d first (b.factor * w) ++ leaves d second (b.factor * v) := by
      rw [leaves_of_alt d h, hc]
    rw [ih]
    simp [hb]
  | case3 b pending found h ih =>
    have hb : leaves d b.expr b.factor = [b] := leaves_of_not_alt d h b.factor
    rw [ih]
    simp [hb]

lemma alternatives_eq_leaves {r : Range} (e : Expr L) :
    alternatives (r := r) d e = leaves d e 1 := by
  simp [alternatives, toList_spread]

/-! ### Building the leaves -/

variable {I O : Type} [LabelOver L I O] [Alphabet I] [Alphabet O]

lemma mapM_congr {α β : Type} {r : Range} {xs : List α} {f g : α → Edit L r β}
    (h : ∀ x ∈ xs, f x = g x) : xs.mapM f = xs.mapM g := by
  induction xs with
  | nil => rfl
  | cons x xs ih =>
    rw [List.mapM_cons, List.mapM_cons, h x List.mem_cons_self,
      ih fun y hy => h y (List.mem_cons_of_mem _ hy)]

lemma mapM_bind_congr {α β γ : Type} {r : Range} {xs : List α} {g : α → Edit L r β}
    {k k' : List β → Edit L r γ} (h : ∀ ys, ys.length = xs.length → k ys = k' ys) :
    xs.mapM g >>= k = xs.mapM g >>= k' := by
  induction xs generalizing k k' with
  | nil => simpa using h [] rfl
  | cons x xs ih =>
    simp only [List.mapM_cons, bind_assoc, pure_bind]
    refine bind_congr fun y => ih fun ys hys => h (y :: ys) ?_
    rw [List.length_cons, List.length_cons, hys]

lemma mapM_mergeScaled_append {r : Range} (g : Branch L r → Edit L r (Fragment L r))
    (bs cs : List (Branch L r)) :
    (do
      let fs ← (bs ++ cs).mapM g
      return mergeScaled fs ((bs ++ cs).map Branch.factor)) = (do
      let fs ← bs.mapM g
      let f := mergeScaled fs (bs.map Branch.factor)
      let gs ← cs.mapM g
      return f.merge (mergeScaled gs (cs.map Branch.factor))) := by
  simp only [List.mapM_append, List.map_append, bind_assoc, pure_bind]
  refine mapM_bind_congr fun fs hfs => bind_congr fun gs => ?_
  rw [mergeScaled_append (by rw [hfs, List.length_map])]

/-- Builds branches from left to right and merges them, each multiplied by its factor. -/
def buildMerged {r : Range} (bs : List (Branch L r)) : Edit L r (Fragment L r) := do
  let fs ← bs.mapM fun b => b.expr.build d
  return mergeScaled fs (bs.map Branch.factor)

lemma buildMerged_append {r : Range} (bs cs : List (Branch L r)) :
    buildMerged d (bs ++ cs) = do
      let f ← buildMerged d bs
      let g ← buildMerged d cs
      return f.merge g := by
  unfold buildMerged
  rw [mapM_mergeScaled_append]
  simp only [bind_assoc, pure_bind]

lemma build_withoutWeight {r : Range} (e : Expr L) :
    (e.withoutWeight.build d : Edit L r (Fragment L r)) = e.build d := by
  induction e with
  | weighted w e ih => exact ih
  | _ => rfl

/-- **Merged, the leaves of a tree of choices are what the tree builds**, scaled by the weight it
came with. -/
lemma buildMerged_leaves (e : Expr L) (w : Weight .probability) :
    buildMerged d (leaves d e w) = do
      let f ← e.build d
      return f.scale w := by
  -- a choice shares its weight out, and shares of shares are products
  fun_induction leaves d e w with
  | case1 e w first second h ih₁ ih₂ =>
    rw [buildMerged_append, ih₁, ih₂, ← build_withoutWeight d e, h, Expr.build]
    simp only [bind_assoc, pure_bind, scale_merge, scale_scale, mul_comm w]
  | case2 e w h =>
    simp [buildMerged, mergeScaled_singleton]

lemma buildMerged_alternatives (e : Expr L) :
    buildMerged d (alternatives d e) =
      (e.build d : Edit L .probability (Fragment L .probability)) := by
  rw [alternatives_eq_leaves, buildMerged_leaves]
  simp [scale_one]

end Compilation

end WeightedAutomata
