import WeightedAutomata.Proofs.Automaton.Chronicle
import WeightedAutomata.Proofs.Compilation.Assembly

/-!
The stack of tasks compiles as plain recursion does.

A visit of an expression finishes what the recursion builds, and changes the automaton as the
recursion does. How many fragments are finished after a number of tasks depends on the tasks alone,
so it can be told beforehand that each of them finds its operands.
-/

namespace WeightedAutomata

open Fragment

namespace Compilation

variable {L I O : Type} {r : Range} [LabelOver L I O] [Alphabet I] [Alphabet O]

/-! ### The moments of the loop -/

/-- The number of fragments that a task takes: a merger takes one for each of its factors. -/
def Task.arity : Task L r → Nat
  | visit _ => 0
  | concat => 2
  | merge factors => factors.length
  | closure _ _ => 1
  | positive _ _ => 2
  | optional _ _ => 1

/-- The next task finds as many finished fragments as it takes; when no task is left, there is one
fragment. -/
def Supplied : List (Task L r) → Array (Fragment L r) → Prop
  | [], done => done.size = 1
  | t :: _, done => (lastOnes t.arity done).size = t.arity

/-- The pending tasks, the finished fragments and the automaton that the loop comes to, once it has
been started with a visit of `e`. -/
inductive Reached (d : LogDomain) (e : Expr L) (a : Automaton L r I O) :
    List (Task L r) → Array (Fragment L r) → Automaton L r I O → Prop
  | start : Reached d e a [.visit e] #[] a
  | perform {t tasks more done done' b c} : Reached d e a (t :: tasks) done b →
      t.perform d done b = .ok (more, done') c → Reached d e a (more ++ tasks) done' c

/-- The number of finished fragments after all tasks, if none of them finds too few. -/
def height : Nat → List (Task L r) → Option Nat
  | n, [] => some n
  | n, t :: tasks => if t.arity ≤ n then height (n - t.arity + 1) tasks else none

lemma height_cons_iff {t : Task L r} {tasks : List (Task L r)} {n k : Nat} :
    height n (t :: tasks) = some k ↔ t.arity ≤ n ∧ height (n - t.arity + 1) tasks = some k := by
  rw [height]
  split
  next h => exact (and_iff_right h).symm
  next h => exact ⟨by rintro ⟨⟩, fun hc => absurd hc.1 h⟩

lemma height_visits (bs : List (Branch L r)) (n : Nat) (tasks : List (Task L r)) :
    height n (bs.map (.visit ·.expr) ++ tasks) = height (n + bs.length) tasks := by
  induction bs generalizing n with
  | nil => rfl
  | cons b bs ih =>
    have harity : (Task.visit b.expr : Task L r).arity ≤ n := Nat.zero_le n
    rw [List.map_cons, List.cons_append, height, if_pos harity, ih, List.length_cons]
    exact congrArg (height · tasks) (by rw [Task.arity]; omega)

lemma supplied_of_height {tasks : List (Task L r)} {done : Array (Fragment L r)}
    (h : height done.size tasks = some 1) : Supplied tasks done := by
  cases tasks with
  | nil => exact Option.some.inj h
  | cons t tasks =>
    have harity := (height_cons_iff.1 h).1
    simp only [Supplied, lastOnes, Array.size_extract]
    omega

variable {d : LogDomain}

/-- **One turn of the loop** does not change how many fragments there will be in the end. -/
lemma height_perform {t : Task L r} {tasks more : List (Task L r)}
    {done done' : Array (Fragment L r)} {a b : Automaton L r I O}
    (hperform : t.perform d done a = .ok (more, done') b)
    (h : height done.size (t :: tasks) = some 1) : height done'.size (more ++ tasks) = some 1 := by
  obtain ⟨harity, hrest⟩ := height_cons_iff.1 h
  cases t with
  | visit e =>
    cases e with
    -- a choice leaves as many visits as its combinator takes fragments
    | alt first second =>
      cases hperform
      rw [List.append_assoc, height_visits]
      simpa [height, Task.arity] using hrest
    | _ =>
      cases hperform
      simpa [height, Task.arity] using hrest
  -- the combinators take what they need and leave one fragment
  | concat =>
    obtain ⟨rfl, hsize⟩ := of_finish hperform
    rwa [hsize, Array.size_pop, Array.size_pop, Nat.sub_sub]
  | merge factors =>
    cases hperform
    simpa [Task.arity] using hrest
  | closure again leave =>
    obtain ⟨rfl, hsize⟩ := of_finish hperform
    rwa [hsize, Array.size_pop]
  | positive again leave =>
    obtain ⟨rfl, hsize⟩ := of_finish hperform
    rwa [hsize, Array.size_pop, Array.size_pop, Nat.sub_sub]
  | optional take skip =>
    cases hperform
    rwa [Array.size_push, Array.size_pop]

/-- **The whole loop**: at every moment the tasks account for the fragments. -/
lemma Reached.height {e : Expr L} {a b : Automaton L r I O} {tasks : List (Task L r)}
    {done : Array (Fragment L r)} (h : Reached d e a tasks done b) :
    height done.size tasks = some 1 := by
  induction h with
  | start => rfl
  | perform _ hperform ih => exact height_perform hperform ih

/-- From every moment on the loop comes to what it comes to from the start. -/
lemma Reached.performAll_eq {e : Expr L} {a b : Automaton L r I O}
    {tasks : List (Task L r)} {done : Array (Fragment L r)}
    (h : Reached d e a tasks done b) :
    performAll d tasks done b = performAll d [.visit e] #[] a := by
  induction h with
  | start => rfl
  | perform _ hperform ih =>
    rw [← ih, performAll_cons, Edit.bind_ok hperform]

end Compilation

/-! ### What the tasks build -/

open Compilation

variable {L I O : Type} [LabelOver L I O] [Alphabet I] [Alphabet O]

lemma mergeBranches_eq {d : LogDomain} {bs : List (Branch L .probability)}
    (h : ∀ b ∈ bs, (b.expr.fragment d : Edit L .probability (Fragment L .probability)) =
      b.expr.build d) : mergeBranches d bs = buildMerged d bs := by
  unfold mergeBranches buildMerged
  rw [mapM_congr h]

/-- What a visit of an expression finishes is what the recursion builds. -/
lemma Expr.fragment_eq (d : LogDomain) (e : Expr L) :
    (e.fragment d : Edit L .probability (Fragment L .probability)) = e.build d := by
  -- by the tasks' own order: the branches of a choice are smaller, its operands are met below them
  induction e using branch_induction d .probability with
  | epsilon => rw [fragment_epsilon, build]
  | token l => rw [fragment_token, build]
  | weighted w e ih => rw [fragment_weighted, ih, build]
  | concat e e' ih ih' => rw [fragment_concat, ih, ih', build]
  | alt e e' ih => rw [fragment_alt, mergeBranches_eq ih, buildMerged_alternatives]
  | kleene e ih => rw [fragment_kleene, ih, build]
  | positive e ih => rw [fragment_positive, ih, build]
  | optional e ih => rw [fragment_optional, ih, build]

/-- **The stack of tasks compiles probabilities as plain recursion does**, whatever automaton it
adds to: it gives the same fragment or the same error and leaves the same automaton. It gives a
fragment wherever operations have led to. At every moment of the loop the next task finds all the
fragments it takes, and in the end there is one. -/
theorem Expr.fragment_eq_build (d : LogDomain) (e : Expr L) (a : Automaton L .probability I O) :
    e.fragment d a = e.build d a ∧
      (∀ ops, a = Automaton.reach ops → ∃ f b, e.fragment d a = .ok f b) ∧
      ∀ tasks done b, Reached d e a tasks done b →
        performAll d tasks done b = performAll d [.visit e] #[] a ∧ Supplied tasks done := by
  refine ⟨by rw [fragment_eq], ?_, fun tasks done b h => ⟨h.performAll_eq, ?_⟩⟩
  · rintro ops rfl
    obtain ⟨f, b, hf, -⟩ := exists_fragment d e (Automaton.consistent_reach ops)
    exact ⟨f, b, hf⟩
  · exact supplied_of_height h.height

end WeightedAutomata
