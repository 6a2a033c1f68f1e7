import WeightedAutomata.Proofs.Compilation.Copying

/-!
Automata that differ in the names of their states.

A renaming keeps the start, finality and the arcs of every state in their order. Edits that are made
in both automata between states of the same name keep one a renaming of the other, where the states
that both get are named alike. Walks cannot tell such automata apart.
-/

namespace WeightedAutomata

open Automaton Compilation

variable {L I O : Type} {r : Range} [LabelOver L I O] [Alphabet I] [Alphabet O]

/-! ### The arcs of one state -/

namespace Automaton

/-- The arcs of a state in the order in which they were added. -/
def row (a : Automaton L r I O) (s : StateId) : List (Arc StateId L r) := (a.machine.arcs s).toList

variable {a : Automaton L r I O} {ts : List (Transition L r)}

namespace Consistent

lemma row_eq (h : Consistent a ts) (s : StateId) :
    a.row s = ((ts.map Transition.edge).filter (·.1 = s)).map Prod.snd := by
  have hrow : a.row s = (a.transitionsFrom s).toList.map Transition.arc := LazyList.toList_map _ _
  have hedges : ((ts.map Transition.edge).filter (·.1 = s)).map Prod.snd =
      (ts.filter (·.source = s)).map Transition.arc := by
    rw [List.filter_map, List.map_map]
    rfl
  rw [hrow, hedges]
  by_cases hs : a.contains s
  · rw [h.toList_transitionsFrom hs]
  · have hnone : ts.filter (·.source = s) = [] := by
      rw [List.filter_eq_nil_iff]
      intro t ht hsource
      exact hs (of_decide_eq_true hsource ▸ h.source t ht)
    rw [toList_transitionsFrom_of_not_contains hs, hnone]

lemma row_grow (h : Consistent a ts) (isFinal : Bool) (s : StateId) :
    (a.grow isFinal).row s = a.row s := by
  rw [h.row_eq, (h.grow isFinal).row_eq]

lemma row_link (h : Consistent a ts) {source target : StateId} (hs : a.contains source)
    (ht : a.contains target) (label : L) (weight : Weight r) (s : StateId) :
    (a.link source target label weight).row s =
      if source = s then a.row s ++ [⟨target, label, weight⟩] else a.row s := by
  rw [(h.link hs ht label weight).row_eq, h.row_eq, List.map_append, List.filter_append,
    List.map_append]
  by_cases hsource : source = s
  · rw [if_pos hsource]
    simp [Transition.edge, Transition.arc, hsource]
  · rw [if_neg hsource]
    simp [Transition.edge, hsource]

lemma target_of_mem_row (h : Consistent a ts) {s : StateId} {x : Arc StateId L r}
    (hx : x ∈ a.row s) : a.contains x.target := by
  rw [h.row_eq] at hx
  obtain ⟨e, he, rfl⟩ := List.mem_map.1 hx
  obtain ⟨t, ht, rfl⟩ := List.mem_map.1 (List.mem_of_mem_filter he)
  exact h.target t ht

end Consistent

end Automaton

/-! ### Renamings -/

/-- The states of one automaton are those of another under other names: the start is the start, the
final states are the final ones, and every state has the same arcs in the same order. -/
structure Renaming (σ : StateId → StateId) (a b : Automaton L r I O) : Prop where
  bijOn : Set.BijOn σ {s | a.contains s} {s | b.contains s}
  start : σ a.start = b.start
  isFinal : ∀ s, a.contains s → b.isFinal (σ s) = a.isFinal s
  rows : ∀ s, a.contains s → b.row (σ s) = (a.row s).map (Arc.map σ)

namespace Renaming

variable {σ σ' : StateId → StateId} {a b c : Automaton L r I O} {ts : List (Transition L r)}

omit [LabelOver L I O] in
lemma refl (a : Automaton L r I O) : Renaming id a a where
  bijOn := Set.bijOn_id _
  start := rfl
  isFinal _ _ := rfl
  rows s _ := (List.map_id (a.row s)).symm

omit [LabelOver L I O] in
lemma trans (h : Renaming σ a b) (h' : Renaming σ' b c) : Renaming (σ' ∘ σ) a c where
  bijOn := h'.bijOn.comp h.bijOn
  start := by rw [Function.comp_apply, h.start, h'.start]
  isFinal s hs := (h'.isFinal _ (h.bijOn.mapsTo hs)).trans (h.isFinal s hs)
  rows s hs := by
    rw [Function.comp_apply, h'.rows _ (h.bijOn.mapsTo hs), h.rows s hs, List.map_map]
    rfl

lemma exists_symm (h : Renaming σ a b) (ha : Consistent a ts) :
    ∃ σ', Renaming σ' b a ∧ ∀ s, a.contains s → σ' (σ s) = s := by
  have : Nonempty StateId := ⟨a.start⟩
  have hinv := h.bijOn.invOn_invFunOn
  -- on the states that are there the names can be read backwards
  set σ' := Function.invFunOn σ {s | a.contains s}
  have hback : ∀ s, a.contains s → σ' (σ s) = s := fun s hs => hinv.1 hs
  refine ⟨σ', ⟨h.bijOn.symm hinv.symm, ?_, fun t ht => ?_, fun t ht => ?_⟩, hback⟩
  · rw [← h.start, hback _ ha.start]
  · obtain ⟨s, hs, rfl⟩ := h.bijOn.surjOn ht
    rw [hback s hs, h.isFinal s hs]
  · obtain ⟨s, hs, rfl⟩ := h.bijOn.surjOn ht
    rw [hback s hs, h.rows s hs, List.map_map]
    refine ((List.map_congr_left fun x hx => ?_).trans (List.map_id _)).symm
    have htarget := hback _ (ha.target_of_mem_row hx)
    simp only [Function.comp_apply, Arc.map, htarget, id_eq]

lemma image (h : Renaming σ a b) (ha : Consistent a ts) :
    a.machine.Image b.machine σ fun s => a.contains s where
  start := h.start
  known_start := ha.start
  isFinal := h.isFinal
  arcs := h.rows
  known_target _ _ _ hx := ha.target_of_mem_row hx

/-! ### Edits under other names -/

lemma grow (h : Renaming σ a b) (ha : Consistent a ts) {us : List (Transition L r)}
    (hb : Consistent b us) (isFinal : Bool) :
    Renaming (Function.update σ a.nextState b.nextState) (a.grow isFinal) (b.grow isFinal) := by
  have hnew : ∀ {s}, a.contains s → s ≠ a.nextState := fun hs heq =>
    ha.not_contains_nextState (heq ▸ hs)
  have hnew' : ∀ {s}, b.contains s → s ≠ b.nextState := fun hs heq =>
    hb.not_contains_nextState (heq ▸ hs)
  have hold : ∀ s, a.contains s → Function.update σ a.nextState b.nextState s = σ s :=
    fun s hs => Function.update_of_ne (hnew hs) _ _
  have hgrown : ∀ {x : Automaton L r I O} {vs}, Consistent x vs →
      {s | (x.grow isFinal).contains s} = insert x.nextState {s | x.contains s} := by
    intro x vs hx
    ext s
    simp only [Set.mem_ofPred_eq, contains_grow hx.states, Set.mem_insert_iff, or_comm]
  refine ⟨?_, ?_, fun s hs => ?_, fun s hs => ?_⟩
  · rw [hgrown ha, hgrown hb]
    have hbij := h.bijOn.congr fun s hs => (hold s hs).symm
    have hlast : Function.update σ a.nextState b.nextState a.nextState ∉ {s | b.contains s} := by
      rw [Function.update_self]
      exact hb.not_contains_nextState
    have hboth := hbij.insert hlast
    rwa [Function.update_self] at hboth
  · exact (hold _ ha.start).trans h.start
  · rw [isFinal_eq, isFinal_eq, finality?_grow ha.states, finality?_grow hb.states]
    rcases (contains_grow ha.states isFinal s).1 hs with hs | rfl
    · rw [hold s hs, if_neg (hnew hs), if_neg (hnew' (h.bijOn.mapsTo hs)), ← isFinal_eq,
        ← isFinal_eq, h.isFinal s hs]
    · rw [Function.update_self, if_pos rfl, if_pos rfl]
  · -- no arc leads to the new state yet, so the old rows do not change under the longer renaming
    rw [ha.row_grow, hb.row_grow]
    have hkeep : (a.row s).map (Arc.map (Function.update σ a.nextState b.nextState)) =
        (a.row s).map (Arc.map σ) :=
      List.map_congr_left fun x hx => by rw [Arc.map, Arc.map, hold _ (ha.target_of_mem_row hx)]
    rw [hkeep]
    rcases (contains_grow ha.states isFinal s).1 hs with hs | rfl
    · rw [hold s hs, h.rows s hs]
    · have hempty : ∀ {x : Automaton L r I O}, ¬ x.contains x.nextState →
          x.row x.nextState = [] := by
        intro x hx
        have hrow : x.row x.nextState = (x.transitionsFrom x.nextState).toList.map Transition.arc :=
          LazyList.toList_map _ _
        rw [hrow, toList_transitionsFrom_of_not_contains hx, List.map_nil]
      rw [Function.update_self, hempty ha.not_contains_nextState, hempty hb.not_contains_nextState,
        List.map_nil]

lemma link (h : Renaming σ a b) (ha : Consistent a ts) {us : List (Transition L r)}
    (hb : Consistent b us) {source target : StateId} (hs : a.contains source)
    (ht : a.contains target) (label : L) (weight : Weight r) :
    Renaming σ (a.link source target label weight)
      (b.link (σ source) (σ target) label weight) := by
  have hcontains : ∀ {x : Automaton L r I O} {s t : StateId},
      {u | (x.link s t label weight).contains u} = {u | x.contains u} := by
    intro x s t
    ext u
    rw [Set.mem_ofPred_eq, Set.mem_ofPred_eq, contains_eq, finality?_link, ← contains_eq]
  have hfinal : ∀ {x : Automaton L r I O} {s t u : StateId},
      (x.link s t label weight).isFinal u = x.isFinal u := by
    intro x s t u
    rw [isFinal_eq, isFinal_eq, finality?_link]
  refine ⟨?_, h.start, fun s hs' => ?_, fun s hs' => ?_⟩
  · rw [hcontains, hcontains]
    exact h.bijOn
  · rw [hfinal, hfinal]
    exact h.isFinal s (hcontains.subset hs')
  · have hs' : a.contains s := hcontains.subset hs'
    have hsource : σ source = σ s ↔ source = s := h.bijOn.injOn.eq_iff hs hs'
    rw [ha.row_link hs ht, hb.row_link (h.bijOn.mapsTo hs) (h.bijOn.mapsTo ht), h.rows s hs']
    -- names are distinct, so the row that grows is that of the same state
    by_cases heq : source = s
    · rw [if_pos heq, if_pos (hsource.2 heq), List.map_append]
      rfl
    · rw [if_neg heq, if_neg (mt hsource.1 heq)]

end Renaming

/-- One automaton is a renaming of another, and the states that correspond are those of the same
name. -/
structure Renamed (P : Correspondence) (a b : Automaton L r I O) : Prop where
  left : ∃ ts, Consistent a ts
  right : ∃ us, Consistent b us
  names : ∃ σ, Renaming σ a b ∧ ∀ s s', P s s' → a.contains s ∧ σ s = s'

/-- Edits that are made under other names keep one automaton a renaming of the other. -/
lemma lockstep_renamed : Lockstep Eq (Renamed (L := L) (r := r)) where
  one := rfl
  mul := by
    rintro w _ v _ rfl rfl
    rfl
  contains := by
    rintro P a b s s' ⟨-, -, σ, h, hnames⟩ hs
    obtain ⟨hcontains, rfl⟩ := hnames s s' hs
    exact ⟨hcontains, h.bijOn.mapsTo hcontains⟩
  grow := by
    rintro P a b ⟨⟨ts, ha⟩, ⟨us, hb⟩, σ, h, hnames⟩ isFinal
    refine ⟨fun s s' => P s s' ∨ s = a.nextState ∧ s' = b.nextState, fun _ _ => Or.inl,
      Or.inr ⟨rfl, rfl⟩, ⟨ts, ha.grow isFinal⟩, ⟨us, hb.grow isFinal⟩, _, h.grow ha hb isFinal, ?_⟩
    rintro s s' (hs | ⟨rfl, rfl⟩)
    · obtain ⟨hcontains, rfl⟩ := hnames s s' hs
      have hnew : s ≠ a.nextState := fun heq => ha.not_contains_nextState (heq ▸ hcontains)
      exact ⟨(contains_grow ha.states isFinal s).2 (Or.inl hcontains),
        Function.update_of_ne hnew _ _⟩
    · exact ⟨(contains_grow ha.states isFinal _).2 (Or.inr rfl), Function.update_self _ _ _⟩
  link := by
    rintro P a b s s' t t' w _ ⟨⟨ts, ha⟩, ⟨us, hb⟩, σ, h, hnames⟩ hs ht rfl label
    obtain ⟨hsource, rfl⟩ := hnames s s' hs
    obtain ⟨htarget, rfl⟩ := hnames t t' ht
    refine ⟨⟨_, ha.link hsource htarget label w⟩,
      ⟨_, hb.link (h.bijOn.mapsTo hsource) (h.bijOn.mapsTo htarget) label w⟩, σ,
      h.link ha hb hsource htarget label w, fun u u' hu => ?_⟩
    rw [contains_eq, finality?_link, ← contains_eq]
    exact hnames u u' hu

end WeightedAutomata
