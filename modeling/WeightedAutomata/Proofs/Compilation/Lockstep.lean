import WeightedAutomata.Proofs.Compilation.Assembly
import WeightedAutomata.Proofs.Compilation.Equations
import Mathlib.Data.List.Forall2

/-!
Two compilations side by side.

Expressions of one shape make the same edits in two automata, though perhaps not between states of
the same names and not with the same weights. Which states correspond is a relation that grows as
states are added. A relation between two automata that is kept when both get a state, and when both
get a transition between states that correspond, is kept by all that expressions do to them.
-/

namespace WeightedAutomata

open Automaton Compilation Fragment

/-- Which states of two automata correspond. -/
abbrev Correspondence := StateId → StateId → Prop

variable {L I O : Type} {r r' : Range} [LabelOver L I O] [Alphabet I] [Alphabet O]

/-! ### Edits in two automata -/

/-- A relation between two automata, told by the states that correspond, which is kept when both
automata get the same, up to weights that `ω` relates. -/
structure Lockstep (ω : Weight r → Weight r' → Prop)
    (R : Correspondence → Automaton L r I O → Automaton L r' I O → Prop) : Prop where
  one : ω 1 1
  mul : ∀ {w w' v v'}, ω w w' → ω v v' → ω (w * v) (w' * v')
  contains : ∀ {P a b s s'}, R P a b → P s s' → a.contains s ∧ b.contains s'
  grow : ∀ {P a b}, R P a b → ∀ isFinal, ∃ P', P ≤ P' ∧ P' a.nextState b.nextState ∧
    R P' (a.grow isFinal) (b.grow isFinal)
  link : ∀ {P a b s s' t t' w w'}, R P a b → P s s' → P t t' → ω w w' → ∀ label,
    R P (a.link s t label w) (b.link s' t' label w')

/-- In related automata both edits succeed. They leave related automata, in which no fewer states
correspond, and give values that correspond. -/
def Tracks (R : Correspondence → Automaton L r I O → Automaton L r' I O → Prop) (P : Correspondence)
    {α β : Type} (m : Edit L r α) (n : Edit L r' β) (V : Correspondence → α → β → Prop) : Prop :=
  ∀ ⦃P₁ a b⦄, P ≤ P₁ → R P₁ a b → ∃ P₂ x y a' b', P₁ ≤ P₂ ∧ m a = .ok x a' ∧ n b = .ok y b' ∧
    R P₂ a' b' ∧ V P₂ x y

namespace Tracks

variable {R : Correspondence → Automaton L r I O → Automaton L r' I O → Prop} {P : Correspondence}
  {α β γ δ : Type} {V : Correspondence → α → β → Prop} {W : Correspondence → γ → δ → Prop}

lemma pure {x : α} {y : β} (h : ∀ P₁, P ≤ P₁ → V P₁ x y) : Tracks R P (pure x) (pure y) V :=
  fun P₁ a b hP hR => ⟨P₁, x, y, a, b, le_rfl, rfl, rfl, hR, h P₁ hP⟩

lemma bind {m : Edit L r α} {n : Edit L r' β} {f : α → Edit L r γ} {g : β → Edit L r' δ}
    (hm : Tracks R P m n V) (hf : ∀ P₁, P ≤ P₁ → ∀ x y, V P₁ x y → Tracks R P₁ (f x) (g y) W) :
    Tracks R P (m >>= f) (n >>= g) W := by
  intro P₁ a b hP hR
  obtain ⟨P₂, x, y, a', b', hP₂, hx, hy, hR', hV⟩ := hm hP hR
  obtain ⟨P₃, z, u, a'', b'', hP₃, hz, hu, hR'', hW⟩ := hf P₂ (hP.trans hP₂) x y hV le_rfl hR'
  refine ⟨P₃, z, u, a'', b'', hP₂.trans hP₃, ?_, ?_, hR'', hW⟩
  · rw [Edit.bind_ok hx, hz]
  · rw [Edit.bind_ok hy, hu]

lemma mono {m : Edit L r α} {n : Edit L r' β} {P' : Correspondence} (h : Tracks R P m n V)
    (hP : P ≤ P') : Tracks R P' m n V := fun _ _ _ hP₁ hR => h (hP.trans hP₁) hR

lemma seq {m : Edit L r PUnit} {n : Edit L r' PUnit} {f : Edit L r γ} {g : Edit L r' δ}
    (hm : Tracks R P m n fun _ _ _ => True) (hf : Tracks R P f g W) :
    Tracks R P (do m; f) (do n; g) W :=
  hm.bind fun _ hP _ _ _ => hf.mono hP

lemma forM {A : α → β → Prop} {f : α → Edit L r PUnit} {g : β → Edit L r' PUnit} {xs : Array α}
    {ys : Array β} (hxs : List.Forall₂ A xs.toList ys.toList)
    (hf : ∀ x y, A x y → Tracks R P (f x) (g y) fun _ _ _ => True) :
    Tracks R P (xs.forM f) (ys.forM g) fun _ _ _ => True := by
  unfold Array.forM
  rw [← Array.foldlM_toList, ← Array.foldlM_toList]
  generalize xs.toList = l, ys.toList = l' at hxs
  induction hxs with
  | nil => exact .pure fun _ _ => trivial
  | cons hxy hrest ih =>
    rw [List.foldlM_cons, List.foldlM_cons]
    exact (hf _ _ hxy).seq ih

lemma mapM {A : α → β → Prop} {f : α → Edit L r γ} {g : β → Edit L r' δ} {xs : List α}
    {ys : List β} (hxs : List.Forall₂ A xs ys) (hf : ∀ x y, A x y → Tracks R P (f x) (g y) W)
    (hW : ∀ P₁ P₂, P₁ ≤ P₂ → ∀ x y, W P₁ x y → W P₂ x y) :
    Tracks R P (xs.mapM f) (ys.mapM g) fun P₁ => List.Forall₂ (W P₁) := by
  induction hxs generalizing P with
  | nil => exact .pure fun _ _ => .nil
  | cons hxy hrest ih =>
    rw [List.mapM_cons, List.mapM_cons]
    refine (hf _ _ hxy).bind fun P₁ hP₁ x y hW₁ =>
      (ih fun x y hxy => (hf x y hxy).mono hP₁).bind fun P₂ hP₂ xs ys hW₂ => .pure fun P₃ hP₃ => ?_
    exact .cons (hW _ _ (hP₂.trans hP₃) _ _ hW₁) (hW₂.imp (hW _ _ hP₃))

end Tracks

/-! ### Fragments of two automata -/

section Like

variable (ω : Weight r → Weight r' → Prop) (P : Correspondence)

def Passage.Like (p : Passage L r) (q : Passage L r') : Prop :=
  p.label = q.label ∧ ω p.weight q.weight

def Entry.Like (e : Entry L r) (e' : Entry L r') : Prop :=
  e.label = e'.label ∧ ω e.weight e'.weight ∧ P e.target e'.target

def Exit.Like (x : Exit L r) (x' : Exit L r') : Prop :=
  x.label = x'.label ∧ ω x.weight x'.weight ∧ P x.source x'.source

/-- The same open edges in the same order, at states that correspond and with weights that `ω`
relates. -/
structure Fragment.Like (f : Fragment L r) (g : Fragment L r') : Prop where
  passages : List.Forall₂ (Passage.Like ω) f.passages.toList g.passages.toList
  entries : List.Forall₂ (Entry.Like ω P) f.entries.toList g.entries.toList
  exits : List.Forall₂ (Exit.Like ω P) f.exits.toList g.exits.toList

end Like

namespace Fragment.Like

variable {ω : Weight r → Weight r' → Prop} {P P' : Correspondence} {f₁ f₂ : Fragment L r}
  {g₁ g₂ : Fragment L r'}

lemma mono (h : Like ω P f₁ g₁) (hP : P ≤ P') : Like ω P' f₁ g₁ where
  passages := h.passages
  entries := h.entries.imp fun _ _ he => ⟨he.1, he.2.1, hP _ _ he.2.2⟩
  exits := h.exits.imp fun _ _ hx => ⟨hx.1, hx.2.1, hP _ _ hx.2.2⟩

lemma empty : Like ω P (empty : Fragment L r) (empty : Fragment L r') := ⟨.nil, .nil, .nil⟩

lemma edge (label : L) {w : Weight r} {w' : Weight r'} (hw : ω w w') :
    Like ω P (edge label w) (edge label w') :=
  ⟨.cons ⟨rfl, hw⟩ .nil, .nil, .nil⟩

lemma merge (h : Like ω P f₁ g₁) (h' : Like ω P f₂ g₂) : Like ω P (f₁.merge f₂) (g₁.merge g₂) := by
  constructor
  · simpa only [Fragment.merge, Array.toList_append] using List.rel_append h.passages h'.passages
  · simpa only [Fragment.merge, Array.toList_append] using List.rel_append h.entries h'.entries
  · simpa only [Fragment.merge, Array.toList_append] using List.rel_append h.exits h'.exits

lemma scale (hmul : ∀ {w w' v v'}, ω w w' → ω v v' → ω (w * v) (w' * v')) (h : Like ω P f₁ g₁)
    {w : Weight r} {w' : Weight r'} (hw : ω w w') : Like ω P (f₁.scale w) (g₁.scale w') where
  passages := by
    simp only [Fragment.scale, Array.toList_map, List.forall₂_map_left_iff,
      List.forall₂_map_right_iff]
    exact h.passages.imp fun p q hp => ⟨hp.1, hmul hp.2 hw⟩
  entries := by
    simp only [Fragment.scale, Array.toList_map, List.forall₂_map_left_iff,
      List.forall₂_map_right_iff]
    exact h.entries.imp fun e e' he => ⟨he.1, hmul he.2.1 hw, he.2.2⟩
  exits := h.exits

lemma mergeScaled (hmul : ∀ {w w' v v'}, ω w w' → ω v v' → ω (w * v) (w' * v'))
    {fs : List (Fragment L r)} {gs : List (Fragment L r')} {ws : List (Weight r)}
    {vs : List (Weight r')} (h : List.Forall₂ (Like ω P) fs gs) (hw : List.Forall₂ ω ws vs) :
    Like ω P (mergeScaled fs ws) (mergeScaled gs vs) := by
  induction h generalizing ws vs with
  | nil => exact empty
  | cons hfirst hrest ih =>
    cases hw with
    | nil => exact empty
    | cons hv hvs =>
      rw [mergeScaled_cons, mergeScaled_cons]
      exact (hfirst.scale hmul hv).merge (ih hvs)

lemma through (h : Like ω P f₁ g₁) (h' : Like ω P f₂ g₂) {s s' : StateId} (hs : P s s') :
    Like ω P (f₁.through f₂ s) (g₁.through g₂ s') where
  passages := .nil
  entries := by
    simp only [Fragment.through, Array.toList_append, Array.toList_map]
    refine List.rel_append h.entries ?_
    simp only [List.forall₂_map_left_iff, List.forall₂_map_right_iff]
    exact h.passages.imp fun p q hp => ⟨hp.1, hp.2, hs⟩
  exits := by
    simp only [Fragment.through, Array.toList_append, Array.toList_map]
    refine List.rel_append h'.exits ?_
    simp only [List.forall₂_map_left_iff, List.forall₂_map_right_iff]
    exact h'.passages.imp fun p q hp => ⟨hp.1, hp.2, hs⟩

omit [Alphabet I] [Alphabet O] in
lemma around (hone : ω 1 1) {s s' : StateId} (hs : P s s') {w : Weight r} {w' : Weight r'}
    (hw : ω w w') : Like ω P (around s w : Fragment L r) (Fragment.around s' w') :=
  ⟨.nil, .cons ⟨rfl, hone, hs⟩ .nil, .cons ⟨rfl, hw, hs⟩ .nil⟩

omit [Alphabet I] [Alphabet O] in
lemma onto (h : Like ω P f₁ g₁) {s s' : StateId} (hs : P s s') {w : Weight r} {w' : Weight r'}
    (hw : ω w w') : Like ω P (f₁.onto s w) (g₁.onto s' w') :=
  ⟨.nil, (h.through h hs).entries, .cons ⟨rfl, hw, hs⟩ .nil⟩

omit [Alphabet I] [Alphabet O] in
lemma optional (hmul : ∀ {w w' v v'}, ω w w' → ω v v' → ω (w * v) (w' * v')) (h : Like ω P f₁ g₁)
    {take skip : Weight r} {take' skip' : Weight r'} (htake : ω take take') (hskip : ω skip skip') :
    Like ω P (f₁.optional take skip) (g₁.optional take' skip') where
  passages := by
    simp only [Fragment.optional, addPassage, Array.toList_push]
    exact List.rel_append (h.scale hmul htake).passages (.cons ⟨rfl, hskip⟩ .nil)
  entries := (h.scale hmul htake).entries
  exits := h.exits

lemma passages_eq_nil_iff (h : Like ω P f₁ g₁) : f₁.passages = #[] ↔ g₁.passages = #[] := by
  rw [← Array.toList_eq_nil_iff, ← Array.toList_eq_nil_iff, ← List.length_eq_zero_iff,
    ← List.length_eq_zero_iff, h.passages.length_eq]

lemma exits_eq_nil_iff (h : Like ω P f₁ g₁) : f₁.exits = #[] ↔ g₁.exits = #[] := by
  rw [← Array.toList_eq_nil_iff, ← Array.toList_eq_nil_iff, ← List.length_eq_zero_iff,
    ← List.length_eq_zero_iff, h.exits.length_eq]

end Fragment.Like

/-! ### Attaching -/

namespace Fragment

variable {b : Automaton L r I O} {f : Fragment L r} {start : StateId}

lemma attach_of_passages (hstart : b.contains start) (hp : f.passages ≠ #[]) :
    f.attach start b = (do
      let final ← addState true
      closePassages f.passages start final
      closeEntries f.entries start
      closeExits f.exits final
      return final) b := by
  unfold attach
  rw [Edit.get_bind, if_neg (by simp [hstart]), if_neg (by simpa using hp)]

lemma attach_of_exits (hstart : b.contains start) (hp : f.passages = #[]) (hx : f.exits ≠ #[]) :
    f.attach start b = (do
      closeEntries f.entries start
      let final ← addState true
      closeExits f.exits final
      return final) b := by
  unfold attach
  rw [Edit.get_bind, if_neg (by simp [hstart]), if_pos (by simp [hp]),
    if_neg (by simpa using hx)]

end Fragment

/-! ### Splices in two automata -/

namespace Lockstep

variable {ω : Weight r → Weight r' → Prop}
  {R : Correspondence → Automaton L r I O → Automaton L r' I O → Prop} {P : Correspondence}
  {f f₁ f₂ : Fragment L r} {g g₁ g₂ : Fragment L r'} {s t : StateId} {s' t' : StateId}
  {w again leave : Weight r} {w' again' leave' : Weight r'}

lemma addState (h : Lockstep ω R) (isFinal : Bool) :
    Tracks R P (addState isFinal) (addState isFinal) fun P₁ => P₁ := by
  intro P₁ a b hP hR
  obtain ⟨P₂, hP₂, hnext, hR'⟩ := h.grow hR isFinal
  exact ⟨P₂, _, _, _, _, hP₂, rfl, rfl, hR', hnext⟩

lemma addTransition (h : Lockstep ω R) (hs : P s s') (ht : P t t') (hw : ω w w') (label : L) :
    Tracks R P (discard (addTransition s t label w)) (discard (addTransition s' t' label w'))
      fun _ _ _ => True := by
  intro P₁ a b hP hR
  obtain ⟨hsa, hsb⟩ := h.contains hR (hP _ _ hs)
  obtain ⟨hta, htb⟩ := h.contains hR (hP _ _ ht)
  exact ⟨P₁, _, _, _, _, le_rfl, Edit.discard_ok (addTransition_of_contains hsa hta label w),
    Edit.discard_ok (addTransition_of_contains hsb htb label w'),
    h.link hR (hP _ _ hs) (hP _ _ ht) hw label, trivial⟩

lemma closeExits (h : Lockstep ω R) {xs : Array (Exit L r)} {ys : Array (Exit L r')}
    (hxs : List.Forall₂ (Exit.Like ω P) xs.toList ys.toList) (ht : P t t') :
    Tracks R P (closeExits xs t) (Fragment.closeExits ys t') fun _ _ _ => True :=
  .forM hxs fun x y hxy => by
    rw [hxy.1]
    exact h.addTransition hxy.2.2 ht hxy.2.1 _

lemma closeEntries (h : Lockstep ω R) {es : Array (Entry L r)} {es' : Array (Entry L r')}
    (hes : List.Forall₂ (Entry.Like ω P) es.toList es'.toList) (hs : P s s') :
    Tracks R P (closeEntries es s) (Fragment.closeEntries es' s') fun _ _ _ => True :=
  .forM hes fun e e' he => by
    rw [he.1]
    exact h.addTransition hs he.2.2 he.2.1 _

lemma closePassages (h : Lockstep ω R) {ps : Array (Passage L r)} {qs : Array (Passage L r')}
    (hps : List.Forall₂ (Passage.Like ω) ps.toList qs.toList) (hs : P s s') (ht : P t t') :
    Tracks R P (closePassages ps s t) (Fragment.closePassages qs s' t') fun _ _ _ => True :=
  .forM hps fun p q hpq => by
    rw [hpq.1]
    exact h.addTransition hs ht hpq.2 _

lemma closeOn (h : Lockstep ω R) (hfg : f.Like ω P g) (hs : P s s') (hagain : ω again again') :
    Tracks R P (f.closeOn s again) (g.closeOn s' again') fun _ _ _ => True := by
  have hscaled := hfg.scale h.mul hagain
  exact (h.closePassages hscaled.passages hs hs).seq
    ((h.closeEntries hscaled.entries hs).seq (h.closeExits hscaled.exits hs))

lemma concat (h : Lockstep ω R) (h₁ : f₁.Like ω P g₁) (h₂ : f₂.Like ω P g₂) :
    Tracks R P (f₁.concat f₂) (g₁.concat g₂) (Fragment.Like ω) := by
  refine (h.addState false).bind fun P₁ hP s s' hs => ?_
  have h₁ := h₁.mono hP
  have h₂ := h₂.mono hP
  refine (h.closeExits h₁.exits hs).seq
    ((h.closeEntries h₂.entries hs).seq (.pure fun P₂ hP₂ => ?_))
  exact (h₁.through h₂ hs).mono hP₂

lemma closure (h : Lockstep ω R) (hfg : f.Like ω P g) (hagain : ω again again')
    (hleave : ω leave leave') :
    Tracks R P (f.closure again leave) (g.closure again' leave') (Fragment.Like ω) := by
  refine (h.addState false).bind fun P₁ hP s s' hs => ?_
  refine (h.closeOn (hfg.mono hP) hs hagain).seq (.pure fun P₂ hP₂ => ?_)
  exact (Like.around h.one hs hleave).mono hP₂

lemma positiveClosure (h : Lockstep ω R) (h₁ : f₁.Like ω P g₁) (h₂ : f₂.Like ω P g₂)
    (hagain : ω again again') (hleave : ω leave leave') :
    Tracks R P (f₁.positiveClosure f₂ again leave) (g₁.positiveClosure g₂ again' leave')
      (Fragment.Like ω) := by
  refine (h.addState false).bind fun P₁ hP s s' hs => ?_
  have h₁ := h₁.mono hP
  refine (h.closeExits h₁.exits hs).seq
    ((h.closeOn (h₂.mono hP) hs hagain).seq (.pure fun P₂ hP₂ => ?_))
  exact (h₁.onto hs hleave).mono hP₂

lemma attach (h : Lockstep ω R) (hfg : f.Like ω P g)
    (hends : f.passages ≠ #[] ∨ f.exits ≠ #[]) (hs : P s s') :
    Tracks R P (f.attach s) (g.attach s') fun P₁ => P₁ := by
  intro P₁ a b hP hR
  obtain ⟨hsa, hsb⟩ := h.contains hR (hP _ _ hs)
  -- like fragments have passages on both sides or on neither, so both take the same branch
  by_cases hp : f.passages = #[]
  · have hx : f.exits ≠ #[] := hends.resolve_left (not_not.2 hp)
    have hq : g.passages = #[] := hfg.passages_eq_nil_iff.1 hp
    have hy : g.exits ≠ #[] := mt hfg.exits_eq_nil_iff.2 hx
    have hattach : Tracks R P
        (do
          Fragment.closeEntries f.entries s
          let final ← Automaton.addState true
          Fragment.closeExits f.exits final
          return final)
        (do
          Fragment.closeEntries g.entries s'
          let final ← Automaton.addState true
          Fragment.closeExits g.exits final
          return final) fun P₁ => P₁ :=
      (h.closeEntries hfg.entries hs).seq ((h.addState true).bind fun P₂ hP₂ final final' hfinal =>
        (h.closeExits (hfg.mono hP₂).exits hfinal).seq (.pure fun P₃ hP₃ => hP₃ _ _ hfinal))
    rw [attach_of_exits hsa hp hx, attach_of_exits hsb hq hy]
    exact hattach hP hR
  · have hq : g.passages ≠ #[] := mt hfg.passages_eq_nil_iff.2 hp
    have hattach : Tracks R P
        (do
          let final ← Automaton.addState true
          Fragment.closePassages f.passages s final
          Fragment.closeEntries f.entries s
          Fragment.closeExits f.exits final
          return final)
        (do
          let final ← Automaton.addState true
          Fragment.closePassages g.passages s' final
          Fragment.closeEntries g.entries s'
          Fragment.closeExits g.exits final
          return final) fun P₁ => P₁ :=
      (h.addState true).bind fun P₂ hP₂ final final' hfinal =>
        (h.closePassages hfg.passages (hP₂ _ _ hs) hfinal).seq
          ((h.closeEntries (hfg.mono hP₂).entries (hP₂ _ _ hs)).seq
            ((h.closeExits (hfg.mono hP₂).exits hfinal).seq (.pure fun P₃ hP₃ => hP₃ _ _ hfinal)))
    rw [attach_of_passages hsa hp, attach_of_passages hsb hq]
    exact hattach hP hR

end Lockstep

/-! ### Expressions of one shape -/

section Alike

variable (ω : Weight r → Weight r' → Prop)
  (R : Correspondence → Automaton L r I O → Automaton L r' I O → Prop) (d d' : LogDomain)

/-- In related automata both expressions are built, as fragments with the same open edges. -/
def BuiltAlike (e e' : Expr L) : Prop :=
  ∀ P, Tracks R P (e.fragment d) (e'.fragment d') (Fragment.Like ω)

/-- Two branches with related factors, which are built alike. -/
def Compilation.Branch.Alike (b : Branch L r) (b' : Branch L r') : Prop :=
  ω b.factor b'.factor ∧ BuiltAlike ω R d d' b.expr b'.expr

/-- Whatever weights they come with, the leaves of two trees of choices are alike, from left to
right. -/
def Alike (e e' : Expr L) : Prop :=
  ∀ w w', ω w w' → List.Forall₂ (Branch.Alike ω R d d') (leaves d e w) (leaves d' e' w')

end Alike

namespace Alike

variable {ω : Weight r → Weight r' → Prop}
  {R : Correspondence → Automaton L r I O → Automaton L r' I O → Prop} {d d' : LogDomain}
  {e e' e₁ e₂ e₁' e₂' : Expr L}

lemma exists_alt_or_not (e : Expr L) : (∃ first second, e.withoutWeight = .alt first second) ∨
    ∀ first second, e.withoutWeight ≠ .alt first second := by
  by_cases h : ∃ first second, e.withoutWeight = .alt first second
  · exact Or.inl h
  · exact Or.inr fun first second halt => h ⟨first, second, halt⟩

lemma of_builtAlike (he : ∀ first second, e.withoutWeight ≠ .alt first second)
    (he' : ∀ first second, e'.withoutWeight ≠ .alt first second)
    (h : BuiltAlike ω R d d' e e') : Alike ω R d d' e e' := by
  intro w w' hw
  rw [leaves_of_not_alt d he, leaves_of_not_alt d' he']
  exact .cons ⟨hw, h⟩ .nil

lemma mergeBranches (hlock : Lockstep ω R) {bs : List (Branch L r)} {bs' : List (Branch L r')}
    (h : List.Forall₂ (Branch.Alike ω R d d') bs bs') (P : Correspondence) :
    Tracks R P (mergeBranches d bs) (Compilation.mergeBranches d' bs') (Fragment.Like ω) := by
  have hfactors : List.Forall₂ ω (bs.map Branch.factor) (bs'.map Branch.factor) := by
    rw [List.forall₂_map_left_iff, List.forall₂_map_right_iff]
    exact h.imp fun b b' hb => hb.1
  refine (Tracks.mapM h (fun b b' hb => hb.2 P) fun P₁ P₂ hP f g hfg => hfg.mono hP).bind
    fun P₁ hP₁ fs gs hfs => .pure fun P₂ hP₂ => ?_
  exact Like.mergeScaled hlock.mul (hfs.imp fun f g hfg => hfg.mono hP₂) hfactors

lemma builtAlike (hlock : Lockstep ω R) (h : Alike ω R d d' e e') : BuiltAlike ω R d d' e e' := by
  intro P
  rw [Expr.fragment_leaves d e, Expr.fragment_leaves d' e']
  exact mergeBranches hlock (h 1 1 hlock.one) P

lemma epsilon (hlock : Lockstep ω R) : Alike ω R d d' .epsilon .epsilon := by
  refine of_builtAlike (by simp [Expr.withoutWeight]) (by simp [Expr.withoutWeight]) fun P => ?_
  rw [Expr.fragment_epsilon, Expr.fragment_epsilon]
  exact .pure fun P₁ _ => Like.edge _ hlock.one

lemma token (hlock : Lockstep ω R) (l : L) : Alike ω R d d' (.token l) (.token l) := by
  refine of_builtAlike (by simp [Expr.withoutWeight]) (by simp [Expr.withoutWeight]) fun P => ?_
  rw [Expr.fragment_token, Expr.fragment_token]
  exact .pure fun P₁ _ => Like.edge _ hlock.one

/-- A weight that is stated on top of an expression makes no difference to what it is like. -/
lemma weighted_left (v : Float) (h : Alike ω R d d' e e') : Alike ω R d d' (.weighted v e) e' := by
  intro w w' hw
  have hleaves := h w w' hw
  rcases exists_alt_or_not e with ⟨first, second, halt⟩ | hleaf
  · -- a weight on a choice is not looked at, so the leaves are those of the choice
    have htop : (Expr.weighted v e).withoutWeight = .alt first second := halt
    rwa [leaves_of_alt d htop, ← leaves_of_alt d halt]
  · -- otherwise the expression is one leaf, and its fragment does not depend on the weight
    have htop : ∀ first second, (Expr.weighted v e).withoutWeight ≠ .alt first second := hleaf
    rw [leaves_of_not_alt d hleaf] at hleaves
    rw [leaves_of_not_alt d htop]
    obtain ⟨b', bs', hb, hbs, hbranches⟩ := List.forall₂_cons_left_iff.1 hleaves
    rw [hbranches]
    refine .cons ⟨hb.1, fun P => ?_⟩ hbs
    rw [Expr.fragment_weighted]
    exact hb.2 P

lemma weighted_right (v : Float) (h : Alike ω R d d' e e') :
    Alike ω R d d' e (.weighted v e') := by
  intro w w' hw
  have hleaves := h w w' hw
  rcases exists_alt_or_not e' with ⟨first, second, halt⟩ | hleaf
  · have htop : (Expr.weighted v e').withoutWeight = .alt first second := halt
    rwa [leaves_of_alt d' htop, ← leaves_of_alt d' halt]
  · have htop : ∀ first second, (Expr.weighted v e').withoutWeight ≠ .alt first second := hleaf
    rw [leaves_of_not_alt d' hleaf] at hleaves
    rw [leaves_of_not_alt d' htop]
    obtain ⟨b, bs, hb, hbs, hbranches⟩ := List.forall₂_cons_right_iff.1 hleaves
    rw [hbranches]
    refine .cons ⟨hb.1, fun P => ?_⟩ hbs
    rw [Expr.fragment_weighted]
    exact hb.2 P

lemma concat (hlock : Lockstep ω R) (h₁ : Alike ω R d d' e₁ e₁') (h₂ : Alike ω R d d' e₂ e₂') :
    Alike ω R d d' (.concat e₁ e₂) (.concat e₁' e₂') := by
  refine of_builtAlike (by simp [Expr.withoutWeight]) (by simp [Expr.withoutWeight]) fun P => ?_
  rw [Expr.fragment_concat, Expr.fragment_concat]
  refine (h₁.builtAlike hlock P).bind fun P₁ _ f g hfg => ?_
  exact (h₂.builtAlike hlock P₁).bind fun P₂ hP₂ f' g' hfg' => hlock.concat (hfg.mono hP₂) hfg'

lemma alt (hlock : Lockstep ω R)
    (hw : ω (choice d e₁ e₂).1 (choice d' e₁' e₂').1 ∧ ω (choice d e₁ e₂).2 (choice d' e₁' e₂').2)
    (h₁ : Alike ω R d d' e₁ e₁') (h₂ : Alike ω R d d' e₂ e₂') :
    Alike ω R d d' (.alt e₁ e₂) (.alt e₁' e₂') := by
  intro w w' hww'
  have htop : (Expr.alt e₁ e₂).withoutWeight = .alt e₁ e₂ := rfl
  have htop' : (Expr.alt e₁' e₂').withoutWeight = .alt e₁' e₂' := rfl
  rw [leaves_of_alt d htop, leaves_of_alt d' htop']
  exact List.rel_append (h₁ _ _ (hlock.mul hww' hw.1)) (h₂ _ _ (hlock.mul hww' hw.2))

lemma kleene (hlock : Lockstep ω R)
    (hw : ω (decision d e).1 (decision d' e').1 ∧ ω (decision d e).2 (decision d' e').2)
    (h : Alike ω R d d' e e') : Alike ω R d d' (.kleene e) (.kleene e') := by
  refine of_builtAlike (by simp [Expr.withoutWeight]) (by simp [Expr.withoutWeight]) fun P => ?_
  rw [Expr.fragment_kleene, Expr.fragment_kleene]
  exact (h.builtAlike hlock P).bind fun P₁ _ f g hfg => hlock.closure hfg hw.1 hw.2

lemma positive (hlock : Lockstep ω R)
    (hw : ω (decision d e).1 (decision d' e').1 ∧ ω (decision d e).2 (decision d' e').2)
    (h : Alike ω R d d' e e') : Alike ω R d d' (.positive e) (.positive e') := by
  refine of_builtAlike (by simp [Expr.withoutWeight]) (by simp [Expr.withoutWeight]) fun P => ?_
  rw [Expr.fragment_positive, Expr.fragment_positive]
  refine (h.builtAlike hlock P).bind fun P₁ _ f g hfg => ?_
  exact (h.builtAlike hlock P₁).bind fun P₂ hP₂ f' g' hfg' =>
    hlock.positiveClosure (hfg.mono hP₂) hfg' hw.1 hw.2

lemma optional (hlock : Lockstep ω R)
    (hw : ω (decision d e).1 (decision d' e').1 ∧ ω (decision d e).2 (decision d' e').2)
    (h : Alike ω R d d' e e') : Alike ω R d d' (.optional e) (.optional e') := by
  refine of_builtAlike (by simp [Expr.withoutWeight]) (by simp [Expr.withoutWeight]) fun P => ?_
  rw [Expr.fragment_optional, Expr.fragment_optional]
  exact (h.builtAlike hlock P).bind fun P₁ _ f g hfg =>
    .pure fun P₂ hP₂ => (hfg.mono hP₂).optional hlock.mul hw.1 hw.2

lemma refl {ω : Weight r → Weight r → Prop}
    {R : Correspondence → Automaton L r I O → Automaton L r I O → Prop} (hlock : Lockstep ω R)
    (hω : ∀ w, ω w w) (e : Expr L) : Alike ω R d d e e := by
  induction e with
  | epsilon => exact epsilon hlock
  | token l => exact token hlock l
  | concat e₁ e₂ ih₁ ih₂ => exact concat hlock ih₁ ih₂
  | alt e₁ e₂ ih₁ ih₂ => exact alt hlock ⟨hω _, hω _⟩ ih₁ ih₂
  | kleene e ih => exact kleene hlock ⟨hω _, hω _⟩ ih
  | positive e ih => exact positive hlock ⟨hω _, hω _⟩ ih
  | optional e ih => exact optional hlock ⟨hω _, hω _⟩ ih
  | weighted v e ih => exact weighted_left v (weighted_right v ih)

/-- **Expressions that are alike compile alike**: one alone, the other from any state that
corresponds to the start. -/
lemma exists_compile (hlock : Lockstep ω R) (h : Alike ω R d d' e e') {P : Correspondence}
    {b : Automaton L r' I O} {s : StateId} (hR : R P new b)
    (hs : P (new : Automaton L r I O).start s) :
    ∃ P' c final b', P ≤ P' ∧ e.compile d = .ok c ∧ e'.compileFrom d' s b = .ok final b' ∧
      R P' c.automaton b' ∧ P' c.final final := by
  obtain ⟨f, a, hf, _, _, -, hlayout⟩ := exists_fragment (r := r) d e ⟨[], consistent_new⟩
  obtain ⟨P₁, f', g, a', b₁, hP₁, hf', hg, hR₁, hfg⟩ := h.builtAlike hlock P le_rfl hR
  rw [hf] at hf'
  cases hf'
  obtain ⟨P₂, final, final', c, b₂, hP₂, hattach, hattach', hR₂, hfinal⟩ :=
    hlock.attach hfg hlayout.ends (hP₁ _ _ hs) le_rfl hR₁
  refine ⟨P₂, ⟨c, final⟩, final', b₂, hP₁.trans hP₂, (compile_eq_ok_iff d).2 ⟨f, a, hf, hattach⟩,
    ?_, hR₂, hfinal⟩
  rw [compileFrom_of_contains d' (hlock.contains hR hs).2, Edit.bind_ok hg]
  exact hattach'

end Alike

end WeightedAutomata
