import WeightedAutomata.Proofs.Compilation.Regrouping
import WeightedAutomata.Proofs.Walk.Image

/-!
Sequences within expressions.

A sequence that stands anywhere in an expression may be bracketed in any way: under loops, options
and choices, next to other expressions or below a weight. The states of the compiled automaton come
under other names, and nothing else changes, so a walker finds the same paths in the same order.
-/

namespace WeightedAutomata

open Automaton Compilation

variable {L I O : Type} {r : Range} [LabelOver L I O] [Alphabet I] [Alphabet O]

/-! ### Expressions with an open place -/

/-- An expression with one place left open. -/
inductive Context (L : Type) where
  | here
  | concatLeft (k : Context L) (second : Expr L)
  | concatRight (first : Expr L) (k : Context L)
  | altLeft (k : Context L) (second : Expr L)
  | altRight (first : Expr L) (k : Context L)
  | kleene (k : Context L)
  | positive (k : Context L)
  | optional (k : Context L)
  | weighted (weight : Float) (k : Context L)

namespace Context

def plug : Context L → Expr L → Expr L
  | here, e => e
  | concatLeft k second, e => .concat (k.plug e) second
  | concatRight first k, e => .concat first (k.plug e)
  | altLeft k second, e => .alt (k.plug e) second
  | altRight first k, e => .alt first (k.plug e)
  | kleene k, e => .kleene (k.plug e)
  | positive k, e => .positive (k.plug e)
  | optional k, e => .optional (k.plug e)
  | weighted w k, e => .weighted w (k.plug e)

/-- The whole, with an open place inside the open place. -/
def comp : Context L → Context L → Context L
  | here, inner => inner
  | concatLeft k second, inner => concatLeft (k.comp inner) second
  | concatRight first k, inner => concatRight first (k.comp inner)
  | altLeft k second, inner => altLeft (k.comp inner) second
  | altRight first k, inner => altRight first (k.comp inner)
  | kleene k, inner => kleene (k.comp inner)
  | positive k, inner => positive (k.comp inner)
  | optional k, inner => optional (k.comp inner)
  | weighted w k, inner => weighted w (k.comp inner)

lemma plug_comp (k inner : Context L) (e : Expr L) :
    (k.comp inner).plug e = k.plug (inner.plug e) := by
  induction k with
  | here => rfl
  | concatLeft k second ih | altLeft k second ih => rw [comp, plug, plug, ih]
  | concatRight first k ih | altRight first k ih => rw [comp, plug, plug, ih]
  | kleene k ih | positive k ih | optional k ih => rw [comp, plug, plug, ih]
  | weighted w k ih => rw [comp, plug, plug, ih]

lemma branchWeight?_plug {e e' : Expr L} (h : e.branchWeight? = e'.branchWeight?) (k : Context L) :
    (k.plug e).branchWeight? = (k.plug e').branchWeight? := by
  cases k with
  | here => exact h
  | _ => rfl

end Context

section Weights

variable {d : LogDomain} {e e' e₁ e₁' e₂ e₂' : Expr L}

lemma Compilation.decision_congr (h : e.branchWeight? = e'.branchWeight?) :
    decision (r := r) d e = decision d e' := by
  rw [decision, decision, h]

lemma Compilation.choice_congr (h₁ : e₁.branchWeight? = e₁'.branchWeight?)
    (h₂ : e₂.branchWeight? = e₂'.branchWeight?) :
    choice (r := r) d e₁ e₂ = choice d e₁' e₂' := by
  rw [choice, choice, shares, shares, h₁, h₂]

/-- Expressions that are alike and state the same weight are alike in every context. -/
lemma Alike.plug {R : Correspondence → Automaton L r I O → Automaton L r I O → Prop}
    (hlock : Lockstep Eq R) (h : Alike Eq R d d e e')
    (hweight : e.branchWeight? = e'.branchWeight?) (k : Context L) :
    Alike Eq R d d (k.plug e) (k.plug e') := by
  have hself : ∀ e : Expr L, Alike Eq R d d e e := Alike.refl hlock fun _ => rfl
  have hwhole : ∀ k : Context L, (k.plug e).branchWeight? = (k.plug e').branchWeight? :=
    Context.branchWeight?_plug hweight
  have hdecision : ∀ k : Context L, decision (r := r) d (k.plug e) = decision d (k.plug e') :=
    fun k => decision_congr (hwhole k)
  induction k with
  | here => exact h
  | concatLeft k second ih => exact .concat hlock ih (hself second)
  | concatRight first k ih => exact .concat hlock (hself first) ih
  | altLeft k second ih =>
    have hchoice := choice_congr (r := r) (d := d) (hwhole k) (Eq.refl second.branchWeight?)
    exact .alt hlock ⟨by rw [hchoice], by rw [hchoice]⟩ ih (hself second)
  | altRight first k ih =>
    have hchoice := choice_congr (r := r) (d := d) (Eq.refl first.branchWeight?) (hwhole k)
    exact .alt hlock ⟨by rw [hchoice], by rw [hchoice]⟩ (hself first) ih
  | kleene k ih => exact .kleene hlock ⟨by rw [hdecision], by rw [hdecision]⟩ ih
  | positive k ih => exact .positive hlock ⟨by rw [hdecision], by rw [hdecision]⟩ ih
  | optional k ih => exact .optional hlock ⟨by rw [hdecision], by rw [hdecision]⟩ ih
  | weighted w k ih => exact .weighted_left w (.weighted_right w ih)

end Weights

/-! ### Compiled to the same but for names -/

variable (r) (d : LogDomain)

/-- Both expressions compile. Under other names the states of one automaton are those of the other,
and so is the state in which it ends. Whatever the limits, every call of a walker gives the same. -/
def CompiledAlike (e e' : Expr L) : Prop :=
  ∃ (c c' : Compiled L r) (σ : StateId → StateId), e.compile d = .ok c ∧ e'.compile d = .ok c' ∧
    Renaming σ c.automaton c'.automaton ∧ σ c.final = c'.final ∧
    ∀ limits n, Walk.result c'.automaton.machine limits n (.begin c'.automaton.machine) =
      Walk.result c.automaton.machine limits n (.begin c.automaton.machine)

variable {r d}

namespace CompiledAlike

variable {e e' e'' : Expr L}

lemma of_alike (h : Alike Eq (Renamed (r := r)) d d e e') : CompiledAlike r d e e' := by
  have hnew : Consistent (new : Automaton L r I O) [] := consistent_new
  have hstart : Renamed (fun s s' => s = ⟨0, 0⟩ ∧ s' = ⟨0, 0⟩) (new : Automaton L r I O) new := by
    refine ⟨⟨[], hnew⟩, ⟨[], hnew⟩, id, .refl _, ?_⟩
    rintro s s' ⟨rfl, rfl⟩
    exact ⟨hnew.start, rfl⟩
  obtain ⟨P, c, final, b, -, hc, hb, hR, hfinal⟩ :=
    h.exists_compile lockstep_renamed hstart ⟨rfl, rfl⟩
  obtain ⟨ts, hconsistent⟩ := hR.left
  obtain ⟨σ, hσ, hnames⟩ := hR.names
  exact ⟨c, ⟨b, final⟩, σ, hc, compile_of_compileFrom d hb, hσ, (hnames _ _ hfinal).2,
    fun limits n => (Walk.calls_image (hσ.image hconsistent) limits n).1⟩

lemma refl (e : Expr L) : CompiledAlike r d e e :=
  of_alike (.refl lockstep_renamed (fun _ => rfl) e)

lemma symm (h : CompiledAlike r d e e') : CompiledAlike r d e' e := by
  obtain ⟨c, c', σ, hc, hc', hσ, hfinal, hwalks⟩ := h
  obtain ⟨c₁, f, N, arcs, hc₁, -, hattached⟩ := exists_attached (r := r) d e
  rw [hc] at hc₁
  cases hc₁
  obtain ⟨ts, hconsistent⟩ := hattached.consistent
  obtain ⟨τ, hτ, hback⟩ := hσ.exists_symm hconsistent
  have hcontains : c.automaton.contains c.final := (hattached.contains _).2 (by simp)
  refine ⟨c', c, τ, hc', hc, hτ, ?_, fun limits n => (hwalks limits n).symm⟩
  rw [← hfinal, hback _ hcontains]

lemma trans (h : CompiledAlike r d e e') (h' : CompiledAlike r d e' e'') :
    CompiledAlike r d e e'' := by
  obtain ⟨c, c', σ, hc, hc', hσ, hfinal, hwalks⟩ := h
  obtain ⟨c₁', c'', τ, hc₁', hc'', hτ, hfinal', hwalks'⟩ := h'
  rw [hc'] at hc₁'
  cases hc₁'
  refine ⟨c, c'', τ ∘ σ, hc, hc'', hσ.trans hτ, ?_, fun limits n => ?_⟩
  · rw [Function.comp_apply, hfinal, hfinal']
  · rw [hwalks', hwalks]

end CompiledAlike

variable (r d)

/-- In every context both expressions compile to the same but for names. -/
def Interchangeable (e e' : Expr L) : Prop :=
  ∀ k : Context L, CompiledAlike r d (k.plug e) (k.plug e')

variable {r d}

namespace Interchangeable

variable {e e' e'' f f' : Expr L}

lemma refl (e : Expr L) : Interchangeable r d e e := fun k => .refl (k.plug e)

lemma symm (h : Interchangeable r d e e') : Interchangeable r d e' e := fun k => (h k).symm

lemma trans (h : Interchangeable r d e e') (h' : Interchangeable r d e' e'') :
    Interchangeable r d e e'' := fun k => (h k).trans (h' k)

lemma concat (h : Interchangeable r d e e') (h' : Interchangeable r d f f') :
    Interchangeable r d (.concat e f) (.concat e' f') := by
  intro k
  have hleft := h (k.comp (.concatLeft .here f))
  have hright := h' (k.comp (.concatRight e' .here))
  rw [Context.plug_comp, Context.plug_comp] at hleft hright
  exact hleft.trans hright

lemma concat_concat (e₁ e₂ e₃ : Expr L) :
    Interchangeable r d (.concat (.concat e₁ e₂) e₃) (.concat e₁ (.concat e₂ e₃)) := fun k =>
  .of_alike ((alike_regrouped d e₁ e₂ e₃).plug lockstep_renamed rfl k)

end Interchangeable

/-! ### Bracketings -/

/-- An expression puts certain items in a row, two parts at a time. -/
inductive Bracketing : List (Expr L) → Expr L → Prop
  | item (e : Expr L) : Bracketing [e] e
  | concat {items items' e e'} (h : Bracketing items e) (h' : Bracketing items' e') :
      Bracketing (items ++ items') (.concat e e')

lemma Bracketing.ne_nil {items : List (Expr L)} {e : Expr L} (h : Bracketing items e) :
    items ≠ [] := by
  induction h with
  | item e => exact List.cons_ne_nil _ _
  | concat h h' ih ih' => exact List.append_ne_nil_of_left_ne_nil ih _

lemma Expr.sequence_concat {items : List (Expr L)} (h : items ≠ []) (e : Expr L) :
    sequence (items ++ [e]) = .concat (sequence items) e := by
  obtain ⟨first, rest, rfl⟩ := List.exists_cons_of_ne_nil h
  rw [List.cons_append, sequence, sequence, List.foldl_append]
  rfl

lemma Interchangeable.sequence_append {items items' : List (Expr L)} (h : items ≠ [])
    (h' : items' ≠ []) : Interchangeable r d (.concat (.sequence items) (.sequence items'))
      (.sequence (items ++ items')) := by
  -- the second sequence hands its items to the first one by one, the last one last
  induction items' using List.reverseRecOn with
  | nil => exact absurd rfl h'
  | append_singleton rest e ih =>
    by_cases hrest : rest = []
    · subst hrest
      rw [List.nil_append, Expr.sequence_concat h]
      exact .refl _
    · have happend : items ++ rest ≠ [] := List.append_ne_nil_of_left_ne_nil h _
      rw [Expr.sequence_concat hrest, ← List.append_assoc, Expr.sequence_concat happend]
      exact (concat_concat _ _ _).symm.trans ((ih hrest).concat (.refl e))

/-- Every bracketing may be put for the sequence. -/
lemma Bracketing.interchangeable {items : List (Expr L)} {e : Expr L} (h : Bracketing items e) :
    Interchangeable r d (.sequence items) e := by
  induction h with
  | item e => exact .refl e
  | concat h h' ih ih' =>
    exact (Interchangeable.sequence_append h.ne_nil h'.ne_nil).symm.trans (ih.concat ih')

/-- **Concatenation is associative in every context**, up to the names of states. In either range,
wherever a sequence stands in an expression, all its bracketings compile to the same automaton under
other names, with the arcs of every state in the same order, and walkers find the same paths. -/
theorem Expr.compile_bracketings (r : Range) (d : LogDomain) (k : Context L) :
    (∀ e₁ e₂ e₃, CompiledAlike r d (k.plug (.concat (.concat e₁ e₂) e₃))
      (k.plug (.concat e₁ (.concat e₂ e₃)))) ∧
    ∀ items e, Bracketing items e → CompiledAlike r d (k.plug (.sequence items)) (k.plug e) ∧
      ∀ e', Bracketing items e' → CompiledAlike r d (k.plug e) (k.plug e') := by
  refine ⟨fun e₁ e₂ e₃ => Interchangeable.concat_concat e₁ e₂ e₃ k, fun items e h => ?_⟩
  exact ⟨h.interchangeable k, fun e' h' => (h.interchangeable.symm.trans h'.interchangeable) k⟩

/-- One side of a choice, to be read again and again. -/
def Context.repeatedSide : Context Letter :=
  .altRight (.weighted 0.25 (.symbol "x")) (.positive .here)

theorem Expr.compile_bracketings_repeatedSide :
    let d := LogDomain.build LogDomain.defaultPrecision
    let items : List (Expr Letter) := [.symbol "a", .kleene (.symbol "b"), .epsilon, .symbol "c"]
    let paired : Expr Letter :=
      .concat (.concat (.symbol "a") (.kleene (.symbol "b"))) (.concat .epsilon (.symbol "c"))
    let nested : Expr Letter :=
      .concat (.symbol "a") (.concat (.concat (.kleene (.symbol "b")) .epsilon) (.symbol "c"))
    Bracketing items paired ∧ Bracketing items nested ∧
      CompiledAlike .magnitude d (Context.repeatedSide.plug (.sequence items))
        (Context.repeatedSide.plug nested) ∧
      CompiledAlike .magnitude d (Context.repeatedSide.plug paired)
        (Context.repeatedSide.plug nested) := by
  intro d items paired nested
  have hpaired : Bracketing items paired :=
    .concat (.concat (.item _) (.item _)) (.concat (.item _) (.item _))
  have hnested : Bracketing items nested :=
    .concat (.item _) (.concat (.concat (.item _) (.item _)) (.item _))
  have hall := (compile_bracketings .magnitude d .repeatedSide).2 items
  exact ⟨hpaired, hnested, (hall nested hnested).1, (hall paired hpaired).2 nested hnested⟩

end WeightedAutomata
