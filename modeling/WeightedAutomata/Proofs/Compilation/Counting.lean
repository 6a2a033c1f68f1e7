import WeightedAutomata.Proofs.Arena.Ledger
import WeightedAutomata.Proofs.Compilation.Assembly

/-!
No edge is lost.

Transitions and open edges are counted together: a splice ties open edges, and each becomes one
transition. So joining parts changes their number only by the edges that are added for it, and it
adds a state exactly where it ties ends. Over a whole expression the numbers add up, however its
choices are spread out.
-/

namespace WeightedAutomata

open Automaton Compilation Fragment

variable {L I O : Type} {r : Range} [LabelOver L I O] [Alphabet I] [Alphabet O]

/-- The states inside the automaton of an expression: one where two parts meet, one for each loop.
A positive closure has its body twice. -/
def Expr.junctions : Expr L → Nat
  | .epsilon => 0
  | .token _ => 0
  | .concat first second => first.junctions + second.junctions + 1
  | .alt first second => first.junctions + second.junctions
  | .kleene body => body.junctions + 1
  | .positive body => 2 * body.junctions + 1
  | .optional body => body.junctions
  | .weighted _ body => body.junctions

/-- The transitions of the automaton of an expression: its labels, and the epsilons by which loops
and options are entered, left and passed by. -/
def Expr.edges : Expr L → Nat
  | .epsilon => 1
  | .token _ => 1
  | .concat first second => first.edges + second.edges
  | .alt first second => first.edges + second.edges
  | .kleene body => body.edges + 2
  | .positive body => 2 * body.edges + 1
  | .optional body => body.edges + 1
  | .weighted _ body => body.edges

/-! ### Open edges -/

def Fragment.size (f : Fragment L r) : Nat := f.passages.size + f.entries.size + f.exits.size

lemma size_scale (f : Fragment L r) (w : Weight r) : (f.scale w).size = f.size := by
  simp [Fragment.size, Fragment.scale]

lemma size_merge (f g : Fragment L r) : (f.merge g).size = f.size + g.size := by
  simp only [Fragment.size, Fragment.merge, Array.size_append]
  omega

omit [Alphabet I] [Alphabet O] in
lemma size_optional (f : Fragment L r) (take skip : Weight r) :
    (f.optional take skip).size = f.size + 1 := by
  rw [← size_scale f take]
  simp only [Fragment.optional, Fragment.addPassage, Fragment.size, Array.size_push]
  omega

/-! ### What an edit adds -/

/-- An edit that succeeds has added this many states and transitions. -/
def Edit.Adds {α : Type} (m : Edit L r α) (states transitions : Nat) : Prop :=
  ∀ a x b, m a = .ok x b →
    b.stateCount = a.stateCount + states ∧ b.transitionCount = a.transitionCount + transitions

namespace Edit

variable {α β : Type} {m : Edit L r α} {f : α → Edit L r β} {n n' k k' : Nat}

lemma adds_pure (x : α) : (pure x : Edit L r α).Adds 0 0 := by
  rintro a y b ⟨⟩
  exact ⟨rfl, rfl⟩

lemma Adds.bind (hm : m.Adds n k) (hf : ∀ x, (f x).Adds n' k') :
    (m >>= f).Adds (n + n') (k + k') := by
  intro a y c h
  obtain ⟨x, b, hx, hy⟩ := exists_of_bind_eq_ok h
  obtain ⟨hstates, htransitions⟩ := hm a x b hx
  obtain ⟨hstates', htransitions'⟩ := hf x b y c hy
  omega

lemma Adds.forM {g : α → Edit L r PUnit} (hg : ∀ x, (g x).Adds 0 1) (xs : Array α) :
    (xs.forM g).Adds 0 xs.size := by
  unfold Array.forM
  rw [← Array.foldlM_toList, ← Array.length_toList]
  induction xs.toList with
  | nil => exact adds_pure _
  | cons x l ih =>
    rw [List.foldlM_cons, List.length_cons, Nat.add_comm]
    exact (hg x).bind fun _ => ih

lemma adds_addState (isFinal : Bool) : (addState isFinal : Edit L r StateId).Adds 1 0 := by
  rintro a s b ⟨⟩
  exact ⟨Arena.size_insert _ _, rfl⟩

lemma adds_addTransition (source target : StateId) (label : L) (weight : Weight r) :
    (addTransition source target label weight : Edit L r TransitionId).Adds 0 1 := by
  intro a t b h
  unfold addTransition at h
  split at h
  · -- a transition with a missing end is an error, so there is nothing to count
    cases h
  · split at h
    · cases h
    · cases h
      refine ⟨?_, Arena.size_insert _ _⟩
      unfold stateCount link
      dsimp only
      split <;> rfl

lemma adds_discard_addTransition (source target : StateId) (label : L) (weight : Weight r) :
    (discard (addTransition source target label weight) : Edit L r PUnit).Adds 0 1 :=
  (adds_addTransition source target label weight).bind fun _ => adds_pure _

lemma adds_closeExits (xs : Array (Exit L r)) (target : StateId) :
    (closeExits xs target).Adds 0 xs.size :=
  Adds.forM (fun _ => adds_discard_addTransition _ _ _ _) xs

lemma adds_closeEntries (es : Array (Entry L r)) (source : StateId) :
    (closeEntries es source).Adds 0 es.size :=
  Adds.forM (fun _ => adds_discard_addTransition _ _ _ _) es

lemma adds_closePassages (ps : Array (Passage L r)) (source target : StateId) :
    (closePassages ps source target).Adds 0 ps.size :=
  Adds.forM (fun _ => adds_discard_addTransition _ _ _ _) ps

lemma adds_closeOn (f : Fragment L r) (hub : StateId) (again : Weight r) :
    (f.closeOn hub again).Adds 0 f.size := by
  have hall := (adds_closePassages (f.scale again).passages hub hub).bind fun _ =>
    (adds_closeEntries (f.scale again).entries hub).bind fun _ =>
      adds_closeExits (f.scale again).exits hub
  rw [← size_scale f again]
  unfold Fragment.size
  rw [add_assoc]
  exact hall

end Edit

/-! ### Splices keep the account -/

variable {a b : Automaton L r I O}

/-- States have been added, and the transitions together with the open edges, `before` at first and
`after` in the end, have become more by a number of edges. -/
structure Balance (a b : Automaton L r I O) (states edges before after : Nat) : Prop where
  states : b.stateCount = a.stateCount + states
  edges : b.transitionCount + after = a.transitionCount + before + edges

section Splices

open Edit

variable {f g h : Fragment L r}

lemma balance_concat (hrun : f.concat g a = .ok h b) :
    Balance a b 1 0 (f.size + g.size) h.size := by
  obtain ⟨junction, a₁, h₁, hrun⟩ := exists_of_bind_eq_ok hrun
  obtain ⟨_, a₂, h₂, hrun⟩ := exists_of_bind_eq_ok hrun
  obtain ⟨_, a₃, h₃, hrun⟩ := exists_of_bind_eq_ok hrun
  cases hrun
  have hstate := adds_addState false a _ a₁ h₁
  have hexits := adds_closeExits f.exits junction a₁ _ a₂ h₂
  have hentries := adds_closeEntries g.entries junction a₂ _ b h₃
  constructor
  · omega
  · simp only [Fragment.size, Array.size_append, Array.size_map, List.size_toArray, List.length_nil]
    omega

lemma balance_closure {again leave : Weight r} (hrun : f.closure again leave a = .ok h b) :
    Balance a b 1 2 f.size h.size := by
  obtain ⟨hub, a₁, h₁, hrun⟩ := exists_of_bind_eq_ok hrun
  obtain ⟨_, a₂, h₂, hrun⟩ := exists_of_bind_eq_ok hrun
  cases hrun
  have hstate := adds_addState false a _ a₁ h₁
  have hclose := adds_closeOn f hub again a₁ _ b h₂
  constructor
  · omega
  · change _ + 2 = _
    omega

lemma balance_positiveClosure {again leave : Weight r}
    (hrun : f.positiveClosure g again leave a = .ok h b) :
    Balance a b 1 1 (f.size + g.size) h.size := by
  obtain ⟨hub, a₁, h₁, hrun⟩ := exists_of_bind_eq_ok hrun
  obtain ⟨_, a₂, h₂, hrun⟩ := exists_of_bind_eq_ok hrun
  obtain ⟨_, a₃, h₃, hrun⟩ := exists_of_bind_eq_ok hrun
  cases hrun
  have hstate := adds_addState false a _ a₁ h₁
  have hexits := adds_closeExits f.exits hub a₁ _ a₂ h₂
  have hclose := adds_closeOn g hub again a₂ _ b h₃
  constructor
  · omega
  · unfold Fragment.size at *
    simp only [Array.size_append, Array.size_map, List.size_toArray, List.length_nil,
      List.length_singleton]
    omega

/-- A piece with a right end is attached with a final state of its own, and all its open edges
become transitions. -/
lemma balance_attach {start final : StateId} (hends : f.passages ≠ #[] ∨ f.exits ≠ #[])
    (hrun : f.attach start a = .ok final b) : Balance a b 1 0 f.size 0 := by
  unfold Fragment.attach at hrun
  obtain ⟨_, a₁, hget, hrun⟩ := exists_of_bind_eq_ok hrun
  cases hget
  by_cases hguard : !a.contains start
  · rw [if_pos hguard] at hrun
    obtain ⟨_, a₂, hthrow, -⟩ := exists_of_bind_eq_ok hrun
    cases hthrow
  rw [if_neg hguard] at hrun
  beta_reduce at hrun
  split at hrun
  · -- nothing runs through: the exits lead to a final state made after the entries are closed
    next hp =>
    have hpassages : f.passages = #[] := Array.isEmpty_iff.1 hp
    obtain ⟨_, a₂, h₂, hrun⟩ := exists_of_bind_eq_ok hrun
    split at hrun
    · next hx => exact absurd (Array.isEmpty_iff.1 hx) (hends.resolve_left (not_not.2 hpassages))
    obtain ⟨_, a₃, h₃, hrun⟩ := exists_of_bind_eq_ok hrun
    obtain ⟨_, a₄, h₄, hrun⟩ := exists_of_bind_eq_ok hrun
    cases hrun
    have hentries := adds_closeEntries f.entries start a _ a₂ h₂
    have hstate := adds_addState true a₂ _ a₃ h₃
    have hexits := adds_closeExits f.exits final a₃ _ b h₄
    constructor
    · omega
    · rw [Fragment.size, hpassages, List.size_toArray, List.length_nil]
      omega
  · -- something runs through: the final state is made first
    obtain ⟨_, a₂, h₂, hrun⟩ := exists_of_bind_eq_ok hrun
    obtain ⟨_, a₃, h₃, hrun⟩ := exists_of_bind_eq_ok hrun
    obtain ⟨_, a₄, h₄, hrun⟩ := exists_of_bind_eq_ok hrun
    obtain ⟨_, a₅, h₅, hrun⟩ := exists_of_bind_eq_ok hrun
    cases hrun
    have hstate := adds_addState true a _ a₂ h₂
    have hpassages := adds_closePassages f.passages start final a₂ _ a₃ h₃
    have hentries := adds_closeEntries f.entries start a₃ _ a₄ h₄
    have hexits := adds_closeExits f.exits final a₄ _ b h₅
    constructor
    · omega
    · rw [Fragment.size]
      omega

end Splices

/-! ### What is built keeps the account -/

lemma junctions_withoutWeight (e : Expr L) : e.withoutWeight.junctions = e.junctions := by
  induction e with
  | weighted v e ih => exact ih
  | _ => rfl

lemma edges_withoutWeight (e : Expr L) : e.withoutWeight.edges = e.edges := by
  induction e with
  | weighted v e ih => exact ih
  | _ => rfl

/-- What an expression is built as accounts for its junctions and edges. -/
def Balanced (e : Expr L) (m : Edit L r (Fragment L r)) : Prop :=
  ∀ {a f b}, m a = .ok f b → Balance a b e.junctions e.edges 0 f.size

lemma balanced_edge {e : Expr L} (hjunctions : e.junctions = 0) (hedges : e.edges = 1) (l : L) :
    Balanced e (return Fragment.edge l 1 : Edit L r (Fragment L r)) := by
  rintro a _ _ ⟨⟩
  rw [hjunctions, hedges]
  exact ⟨rfl, rfl⟩

variable (d : LogDomain)

lemma balanced_leaves {e : Expr L} {w : Weight r}
    (h : ∀ b ∈ leaves d e w, Balanced b.expr (b.expr.fragment d : Edit L r (Fragment L r))) :
    Balanced e (mergeBranches d (leaves d e w)) := by
  fun_induction leaves d e w with
  | case1 e w first second he ih₁ ih₂ =>
    intro a f c hrun
    rw [mergeBranches_append] at hrun
    obtain ⟨f₁, a₁, hf₁, hrun⟩ := Edit.exists_of_bind_eq_ok hrun
    obtain ⟨f₂, a₂, hf₂, hrun⟩ := Edit.exists_of_bind_eq_ok hrun
    cases hrun
    obtain ⟨hstates, hedges⟩ := ih₁ (fun b hb => h b (List.mem_append_left _ hb)) hf₁
    obtain ⟨hstates', hedges'⟩ := ih₂ (fun b hb => h b (List.mem_append_right _ hb)) hf₂
    rw [← junctions_withoutWeight, ← edges_withoutWeight, he, size_merge]
    constructor
    · rw [Expr.junctions]
      omega
    · rw [Expr.edges]
      omega
  | case2 e w he =>
    intro a f c hrun
    rw [mergeBranches_singleton] at hrun
    obtain ⟨f₁, a₁, hf₁, hrun⟩ := Edit.exists_of_bind_eq_ok hrun
    cases hrun
    rw [size_scale]
    exact h _ List.mem_cons_self hf₁

/-- **The fragment of an expression accounts for its junctions and edges.** -/
lemma balanced_fragment (e : Expr L) : Balanced e (e.fragment d : Edit L r (Fragment L r)) := by
  induction e using branch_induction d r with
  | epsilon =>
    rw [Expr.fragment_epsilon]
    exact balanced_edge rfl rfl _
  | token l =>
    rw [Expr.fragment_token]
    exact balanced_edge rfl rfl l
  | weighted v e ih =>
    rw [Expr.fragment_weighted]
    exact ih
  | concat e e' ih ih' =>
    intro a h c hrun
    rw [Expr.fragment_concat] at hrun
    obtain ⟨f, a₁, hf, hrun⟩ := Edit.exists_of_bind_eq_ok hrun
    obtain ⟨g, a₂, hg, hrun⟩ := Edit.exists_of_bind_eq_ok hrun
    obtain ⟨hstates, hedges⟩ := ih hf
    obtain ⟨hstates', hedges'⟩ := ih' hg
    obtain ⟨hjunction, hjoined⟩ := balance_concat hrun
    constructor
    · rw [Expr.junctions]
      omega
    · rw [Expr.edges]
      omega
  | alt e e' ih =>
    rw [alternatives_eq_leaves] at ih
    rw [Expr.fragment_alt, alternatives_eq_leaves]
    exact balanced_leaves d ih
  | kleene e ih =>
    intro a h c hrun
    rw [Expr.fragment_kleene] at hrun
    obtain ⟨f, a₁, hf, hrun⟩ := Edit.exists_of_bind_eq_ok hrun
    obtain ⟨hstates, hedges⟩ := ih hf
    obtain ⟨hhub, hclosed⟩ := balance_closure hrun
    constructor
    · rw [Expr.junctions]
      omega
    · rw [Expr.edges]
      omega
  | positive e ih =>
    intro a h c hrun
    rw [Expr.fragment_positive] at hrun
    obtain ⟨f, a₁, hf, hrun⟩ := Edit.exists_of_bind_eq_ok hrun
    obtain ⟨g, a₂, hg, hrun⟩ := Edit.exists_of_bind_eq_ok hrun
    obtain ⟨hstates, hedges⟩ := ih hf
    obtain ⟨hstates', hedges'⟩ := ih hg
    obtain ⟨hhub, hclosed⟩ := balance_positiveClosure hrun
    constructor
    · rw [Expr.junctions]
      omega
    · rw [Expr.edges]
      omega
  | optional e ih =>
    intro a h c hrun
    rw [Expr.fragment_optional] at hrun
    obtain ⟨f, a₁, hf, hrun⟩ := Edit.exists_of_bind_eq_ok hrun
    cases hrun
    obtain ⟨hstates, hedges⟩ := ih hf
    rw [size_optional]
    constructor
    · exact hstates
    · rw [Expr.edges]
      omega

/-- **No edge is lost.** A compiled expression has a state at each end and one for each junction,
and a transition for each edge. -/
lemma counts_of_compile {d : LogDomain} {e : Expr L} {c : Compiled L r}
    (hc : e.compile d = .ok c) : c.automaton.stateCount = 2 + e.junctions ∧
      c.automaton.transitionCount = e.edges := by
  obtain ⟨f, a, hf, hattach⟩ := (compile_eq_ok_iff d).1 hc
  obtain ⟨f', a', hfragment, N, arcs, -, hlayout⟩ :=
    exists_fragment d e ⟨[], (consistent_new : Consistent (new : Automaton L r I O) [])⟩
  rw [hf] at hfragment
  cases hfragment
  obtain ⟨hbuilt, hbuilt'⟩ := balanced_fragment d e hf
  obtain ⟨hattached, hattached'⟩ := balance_attach hlayout.ends hattach
  have hstates : (new : Automaton L r I O).stateCount = 1 := rfl
  have htransitions : (new : Automaton L r I O).transitionCount = 0 := rfl
  omega

end WeightedAutomata
