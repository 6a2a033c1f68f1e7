import WeightedAutomata.Proofs.Compilation.Renaming
import WeightedAutomata.Proofs.Splice.Plan

/-!
What is added to an automaton.

An expression adds states and transitions and leaves what is there alone. What it adds is the same
wherever it is built, under other names, since it ties no state that it has not added itself.
-/

namespace WeightedAutomata

open Automaton Compilation Fragment

variable {L I O : Type} {r : Range} [LabelOver L I O] [Alphabet I] [Alphabet O]

def renameEdge (σ : StateId → StateId) (e : StateId × Arc StateId L r) :
    StateId × Arc StateId L r :=
  (σ e.1, e.2.map σ)

/-! ### Fragments under other names -/

def Entry.rename (σ : StateId → StateId) (e : Entry L r) : Entry L r :=
  { e with target := σ e.target }

def Exit.rename (σ : StateId → StateId) (x : Exit L r) : Exit L r :=
  { x with source := σ x.source }

def Fragment.rename (σ : StateId → StateId) (f : Fragment L r) : Fragment L r where
  passages := f.passages
  entries := f.entries.map (Entry.rename σ)
  exits := f.exits.map (Exit.rename σ)

/-- The open edges of a piece name certain states only. -/
structure Fragment.Within (f : Fragment L r) (N : Set StateId) : Prop where
  entries : ∀ e ∈ f.entries, e.target ∈ N
  exits : ∀ x ∈ f.exits, x.source ∈ N

namespace Fragment.Within

variable {f g : Fragment L r} {N N' : Set StateId} {σ : StateId → StateId}

lemma mono (h : f.Within N) (hN : N ⊆ N') : f.Within N' :=
  ⟨fun e he => hN (h.entries e he), fun x hx => hN (h.exits x hx)⟩

lemma through (hf : f.Within N) (hg : g.Within N) {s : StateId} (hs : s ∈ N) :
    (f.through g s).Within N where
  entries e he := by
    rcases Array.mem_append.1 he with he | he
    · exact hf.entries e he
    · obtain ⟨p, -, rfl⟩ := Array.mem_map.1 he
      exact hs
  exits x hx := by
    rcases Array.mem_append.1 hx with hx | hx
    · exact hg.exits x hx
    · obtain ⟨p, -, rfl⟩ := Array.mem_map.1 hx
      exact hs

lemma rename (h : f.Within N) (hσ : Set.MapsTo σ N N') : (f.rename σ).Within N' where
  entries e he := by
    obtain ⟨e', he', rfl⟩ := Array.mem_map.1 he
    exact hσ (h.entries e' he')
  exits x hx := by
    obtain ⟨x', hx', rfl⟩ := Array.mem_map.1 hx
    exact hσ (h.exits x' hx')

end Fragment.Within

lemma eq_map_of_forall₂ {α β : Type} {A : α → β → Prop} {Q : α → Prop} {φ : α → β} {xs : List α}
    {ys : List β} (hxs : List.Forall₂ A xs ys) (h : ∀ x y, A x y → Q x ∧ y = φ x) :
    (∀ x ∈ xs, Q x) ∧ ys = xs.map φ := by
  induction hxs with
  | nil => exact ⟨by simp, rfl⟩
  | cons hxy hrest ih =>
    obtain ⟨hx, rfl⟩ := h _ _ hxy
    exact ⟨List.forall_mem_cons.2 ⟨hx, ih.1⟩, by rw [List.map_cons, ih.2]⟩

/-- Fragments with the same open edges at states that correspond under a renaming. -/
lemma Fragment.Like.within_and_eq_rename {P : Correspondence} {f g : Fragment L r}
    (h : Like Eq P f g) {N : Set StateId} {σ : StateId → StateId}
    (hP : ∀ s s', P s s' → s ∈ N ∧ σ s = s') : f.Within N ∧ g = f.rename σ := by
  have hpassage : ∀ p q : Passage L r, p.Like Eq q → True ∧ q = id p := by
    rintro ⟨l, w⟩ ⟨_, _⟩ ⟨rfl, rfl⟩
    exact ⟨trivial, rfl⟩
  have hentry : ∀ e e' : Entry L r, e.Like Eq P e' → e.target ∈ N ∧ e' = e.rename σ := by
    rintro ⟨l, w, s⟩ ⟨_, _, s'⟩ ⟨rfl, rfl, hs⟩
    obtain ⟨hN, rfl⟩ := hP s s' hs
    exact ⟨hN, rfl⟩
  have hexit : ∀ x x' : Exit L r, x.Like Eq P x' → x.source ∈ N ∧ x' = x.rename σ := by
    rintro ⟨s, l, w⟩ ⟨s', _, _⟩ ⟨rfl, rfl, hs⟩
    obtain ⟨hN, rfl⟩ := hP s s' hs
    exact ⟨hN, rfl⟩
  obtain ⟨-, hpassages⟩ := eq_map_of_forall₂ h.passages hpassage
  obtain ⟨hentries, hentries'⟩ := eq_map_of_forall₂ h.entries hentry
  obtain ⟨hexits, hexits'⟩ := eq_map_of_forall₂ h.exits hexit
  refine ⟨⟨by simpa using hentries, by simpa using hexits⟩, ?_⟩
  rw [List.map_id] at hpassages
  rw [← Array.toList_map] at hentries' hexits'
  obtain ⟨ps, es, xs⟩ := g
  rw [rename, Fragment.mk.injEq]
  exact ⟨Array.toList_inj.1 hpassages, Array.toList_inj.1 hentries', Array.toList_inj.1 hexits'⟩

/-! ### What has been added -/

/-- States have been added, and transitions behind those that were there. -/
structure Appends (a : Automaton L r I O) (ts : List (Transition L r)) (b : Automaton L r I O)
    (N : Set StateId) (added : List (Transition L r)) : Prop where
  consistent : Consistent b (ts ++ added)
  contains : ∀ s, b.contains s ↔ a.contains s ∨ s ∈ N
  fresh : ∀ s ∈ N, ¬ a.contains s

namespace Appends

variable {a b c : Automaton L r I O} {ts added added' : List (Transition L r)} {N N' : Set StateId}

lemma refl (ha : Consistent a ts) : Appends a ts a ∅ [] where
  consistent := by rwa [List.append_nil]
  contains s := by rw [Set.mem_empty_iff_false, or_false]
  fresh _ hs := hs.elim

lemma trans (h : Appends a ts b N added) (h' : Appends b (ts ++ added) c N' added') :
    Appends a ts c (N ∪ N') (added ++ added') where
  consistent := by
    rw [← List.append_assoc]
    exact h'.consistent
  contains s := by rw [h'.contains, h.contains, Set.mem_union, or_assoc]
  fresh s hs := by
    rcases hs with hs | hs
    · exact h.fresh s hs
    · exact fun hc => h'.fresh s hs ((h.contains s).2 (Or.inl hc))

lemma subset (h : Appends a ts b N added) : {s | a.contains s} ∪ N ⊆ {s | b.contains s} :=
  fun s => (h.contains s).2

lemma within (h : Appends a ts b N added) {f : Fragment L r} (hf : f.Within {s | a.contains s}) :
    f.Within {s | b.contains s} := hf.mono fun _ hs => h.subset (Or.inl hs)

lemma within_added (h : Appends a ts b N added) {f : Fragment L r} (hf : f.Within N) :
    f.Within {s | b.contains s} := hf.mono fun _ hs => h.subset (Or.inr hs)

lemma next_notMem (h : Appends a ts b N added) : b.nextState ∉ {s | a.contains s} ∪ N := fun hs =>
  h.consistent.not_contains_nextState (h.subset hs)

lemma disjoint (h : Appends a ts b N added) : Disjoint {s | a.contains s} N :=
  Set.disjoint_right.2 h.fresh

lemma grow (h : Appends a ts b N added) (isFinal : Bool) :
    Appends a ts (b.grow isFinal) (insert b.nextState N) added where
  consistent := h.consistent.grow isFinal
  contains s := by
    rw [contains_grow h.consistent.states, h.contains, Set.mem_insert_iff, or_assoc,
      or_comm (a := s ∈ N)]
  fresh s hs := by
    rcases hs with rfl | hs
    · exact fun hc => h.consistent.not_contains_nextState ((h.contains _).2 (Or.inl hc))
    · exact h.fresh s hs

lemma link (h : Appends a ts b N added) {source target : StateId} (hs : b.contains source)
    (ht : b.contains target) (label : L) (weight : Weight r) :
    Appends a ts (b.link source target label weight) N
      (added ++ [⟨b.nextTransition, source, target, label, weight⟩]) where
  consistent := by
    rw [← List.append_assoc]
    exact h.consistent.link hs ht label weight
  contains s := by
    rw [contains_eq, finality?_link, ← contains_eq]
    exact h.contains s
  fresh := h.fresh

lemma linkAll (h : Appends a ts b N added) {es : List (StateId × Arc StateId L r)}
    (hes : ∀ e ∈ es, b.joins e) :
    ∃ more, more.map Transition.edge = es ∧ Appends a ts (b.linkAll es) N (added ++ more) := by
  obtain ⟨more, hmore, hedges⟩ := h.consistent.linkAll hes
  refine ⟨more, hedges, ?_, fun s => ?_, h.fresh⟩
  · rwa [← List.append_assoc]
  · rw [contains_linkAll]
    exact h.contains s

lemma concat {f g : Fragment L r} (ha : Consistent a ts) (hf : f.Within {s | a.contains s})
    (hg : g.Within {s | a.contains s}) :
    ∃ b added, f.concat g a = .ok (f.through g a.nextState) b ∧
      Appends a ts b {a.nextState} added ∧
      added.map Transition.edge = f.exitTies a.nextState ++ g.entryTies a.nextState := by
  have hgrown := (refl ha).grow false
  rw [insert_empty_eq] at hgrown
  have hold : ∀ {s}, a.contains s → (a.grow false).contains s := fun hs =>
    (hgrown.contains _).2 (Or.inl hs)
  have hnew : (a.grow false).contains a.nextState := (hgrown.contains _).2 (Or.inr rfl)
  -- every tie ends in the junction or starts from it, and its other end is an open edge
  have hjoins : ∀ e ∈ f.exitTies a.nextState ++ g.entryTies a.nextState,
      (a.grow false).joins e := by
    intro e he
    rcases List.mem_append.1 he with he | he
    · obtain ⟨x, hx, rfl⟩ := List.mem_map.1 he
      exact joins_iff.2 ⟨hold (hf.exits x (Array.mem_toList_iff.1 hx)), hnew⟩
    · obtain ⟨y, hy, rfl⟩ := List.mem_map.1 he
      exact joins_iff.2 ⟨hnew, hold (hg.entries y (Array.mem_toList_iff.1 hy))⟩
  obtain ⟨added, hedges, happends⟩ := hgrown.linkAll hjoins
  refine ⟨_, added, ?_, happends, hedges⟩
  have hstate : addState false a = .ok a.nextState (a.grow false) := rfl
  have htied := tieAll_of_joins hjoins
  rw [tieAll_append] at htied
  unfold Fragment.concat
  rw [Edit.bind_ok hstate, Splice.closeExits_eq, Splice.closeEntries_eq, ← bind_assoc,
    Edit.bind_ok htied]
  rfl

end Appends

/-! ### The same in two places -/

/-- The same has been added in two places, but for names: transitions between states that have been
added as well. -/
structure AddedAlike (σ : StateId → StateId) (N N' : Set StateId)
    (added added' : List (Transition L r)) : Prop where
  states : Set.BijOn σ N N'
  edges : added'.map Transition.edge = (added.map Transition.edge).map (renameEdge σ)
  source : ∀ t ∈ added, t.source ∈ N
  target : ∀ t ∈ added, t.target ∈ N

/-- The same has been added to two automata, and the states that correspond are among those that
have been added. -/
def Alongside (a : Automaton L r I O) (ts : List (Transition L r)) (a' : Automaton L r I O)
    (ts' : List (Transition L r)) (P : Correspondence) (b b' : Automaton L r I O) : Prop :=
  ∃ σ N N' added added', Appends a ts b N added ∧ Appends a' ts' b' N' added' ∧
    AddedAlike σ N N' added added' ∧ ∀ s s', P s s' → s ∈ N ∧ σ s = s'

namespace AddedAlike

variable {σ : StateId → StateId} {N N' : Set StateId} {added added' : List (Transition L r)}

lemma congr {τ : StateId → StateId} (h : AddedAlike σ N N' added added') (hτ : ∀ u ∈ N, τ u = σ u) :
    AddedAlike τ N N' added added' := by
  refine ⟨h.states.congr fun u hu => (hτ u hu).symm, ?_, h.source, h.target⟩
  rw [h.edges, List.map_map, List.map_map]
  refine List.map_congr_left fun t ht => ?_
  simp only [Function.comp_apply, renameEdge, Transition.edge, Transition.arc, Arc.map,
    hτ _ (h.source t ht), hτ _ (h.target t ht)]

lemma source_right (h : AddedAlike σ N N' added added') :
    ∀ e ∈ added'.map Transition.edge, e.1 ∈ N' := by
  intro e he
  rw [h.edges] at he
  obtain ⟨e', he', rfl⟩ := List.mem_map.1 he
  obtain ⟨t, ht, rfl⟩ := List.mem_map.1 he'
  exact h.states.mapsTo (h.source t ht)

lemma insert (h : AddedAlike σ N N' added added') {s s' : StateId} (hs : s ∉ N) (hs' : s' ∉ N') :
    AddedAlike (Function.update σ s s') (insert s N) (insert s' N') added added' := by
  have hold : ∀ u ∈ N, Function.update σ s s' u = σ u := fun u hu =>
    have hne : u ≠ s := fun heq => hs (heq ▸ hu)
    Function.update_of_ne hne _ _
  have hrenamed := h.congr hold
  have hlast : Function.update σ s s' s ∉ N' := by rwa [Function.update_self]
  have hstates := hrenamed.states.insert hlast
  rw [Function.update_self] at hstates
  exact ⟨hstates, hrenamed.edges, fun t ht => Or.inr (h.source t ht),
    fun t ht => Or.inr (h.target t ht)⟩

lemma snoc (h : AddedAlike σ N N' added added') {t t' : Transition L r} (hs : t.source ∈ N)
    (ht : t.target ∈ N) (hedge : t'.edge = renameEdge σ t.edge) :
    AddedAlike σ N N' (added ++ [t]) (added' ++ [t']) where
  states := h.states
  edges := by
    rw [List.map_append, List.map_append, List.map_append, h.edges, List.map_singleton,
      List.map_singleton, List.map_singleton, hedge]
  source u hu := by
    rcases List.mem_append.1 hu with hu | hu
    · exact h.source u hu
    · rw [List.mem_singleton.1 hu]
      exact hs
  target u hu := by
    rcases List.mem_append.1 hu with hu | hu
    · exact h.target u hu
    · rw [List.mem_singleton.1 hu]
      exact ht

end AddedAlike

variable {a a' : Automaton L r I O} {ts ts' : List (Transition L r)}

/-- Edits among states that have been added add the same in both places. -/
lemma lockstep_alongside : Lockstep Eq (Alongside a ts a' ts') where
  one := rfl
  mul := by
    rintro w _ v _ rfl rfl
    rfl
  contains := by
    rintro P b b' s s' ⟨σ, N, N', added, added', h, h', halike, hnames⟩ hs
    obtain ⟨hN, rfl⟩ := hnames s s' hs
    exact ⟨(h.contains s).2 (Or.inr hN), (h'.contains _).2 (Or.inr (halike.states.mapsTo hN))⟩
  grow := by
    rintro P b b' ⟨σ, N, N', added, added', h, h', halike, hnames⟩ isFinal
    have hnew : b.nextState ∉ N := fun hs => h.next_notMem (Or.inr hs)
    have hnew' : b'.nextState ∉ N' := fun hs => h'.next_notMem (Or.inr hs)
    refine ⟨fun s s' => P s s' ∨ s = b.nextState ∧ s' = b'.nextState, fun _ _ => Or.inl,
      Or.inr ⟨rfl, rfl⟩, _, _, _, _, _, h.grow isFinal, h'.grow isFinal,
      halike.insert hnew hnew', ?_⟩
    rintro s s' (hs | ⟨rfl, rfl⟩)
    · -- an old name is read as before, since the new state is not one of the states named
      obtain ⟨hN, rfl⟩ := hnames s s' hs
      have hne : s ≠ b.nextState := fun heq => hnew (heq ▸ hN)
      exact ⟨Or.inr hN, Function.update_of_ne hne _ _⟩
    · exact ⟨Or.inl rfl, Function.update_self _ _ _⟩
  link := by
    rintro P b b' s s' t t' w _ ⟨σ, N, N', added, added', h, h', halike, hnames⟩ hs ht rfl label
    obtain ⟨hsN, rfl⟩ := hnames s s' hs
    obtain ⟨htN, rfl⟩ := hnames t t' ht
    have hb : ∀ u ∈ N, b.contains u := fun u hu => (h.contains u).2 (Or.inr hu)
    have hb' : ∀ u ∈ N, b'.contains (σ u) := fun u hu =>
      (h'.contains _).2 (Or.inr (halike.states.mapsTo hu))
    exact ⟨σ, N, N', _, _, h.link (hb s hsN) (hb t htN) label w,
      h'.link (hb' s hsN) (hb' t htN) label w, halike.snoc hsN htN rfl, hnames⟩

/-- **What an expression adds is the same in any two places**, but for names. -/
lemma exists_added (d : LogDomain) (e : Expr L) (ha : Consistent a ts) (ha' : Consistent a' ts') :
    ∃ f b b' σ N N' added added', e.fragment d a = .ok f b ∧
      e.fragment d a' = .ok (f.rename σ) b' ∧ f.Within N ∧ Appends a ts b N added ∧
      Appends a' ts' b' N' added' ∧ AddedAlike σ N N' added added' := by
  have hlock : Lockstep Eq (Alongside a ts a' ts') := lockstep_alongside
  have hstart : Alongside a ts a' ts' ⊥ a a' :=
    ⟨id, ∅, ∅, [], [], .refl ha, .refl ha', ⟨Set.bijOn_empty _, rfl, by simp, by simp⟩,
      fun _ _ hs => hs.elim⟩
  have halike := (Alike.refl hlock (fun _ => rfl) e).builtAlike (d := d) hlock ⊥
  obtain ⟨P, f, g, b, b', -, hf, hg, ⟨σ, N, N', added, added', h, h', hadded, hnames⟩, hlike⟩ :=
    halike le_rfl hstart
  obtain ⟨hwithin, rfl⟩ := hlike.within_and_eq_rename hnames
  exact ⟨f, b, b', σ, N, N', added, added', hf, hg, hwithin, h, h', hadded⟩

end WeightedAutomata
