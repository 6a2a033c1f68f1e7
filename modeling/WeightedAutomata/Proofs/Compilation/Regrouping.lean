import WeightedAutomata.Proofs.Compilation.Alongside

/-!
A sequence may be grouped in any way.

Grouped to the left or to the right, three expressions in a row get the same states and
transitions. The two junctions are made in the other order, before or after the third expression is
built, and the ends that meet there are tied earlier or later. But edges out of one state are tied
in the same order, since what is moved past each other starts from different states.
-/

namespace WeightedAutomata

open Automaton Compilation Fragment

variable {L I O : Type} {r : Range} [LabelOver L I O] [Alphabet I] [Alphabet O]

/-! ### Edges by their sources -/

/-- The edges out of each state are the same, in the same order. -/
def SameRows (es es' : List (StateId × Arc StateId L r)) : Prop :=
  ∀ s, es.filter (·.1 = s) = es'.filter (·.1 = s)

namespace SameRows

variable {es es' more more' : List (StateId × Arc StateId L r)}

lemma refl (es : List (StateId × Arc StateId L r)) : SameRows es es := fun _ => rfl

lemma trans {es'' : List (StateId × Arc StateId L r)} (h : SameRows es es')
    (h' : SameRows es' es'') : SameRows es es'' := fun s => (h s).trans (h' s)

lemma append (h : SameRows es es') (h' : SameRows more more') :
    SameRows (es ++ more) (es' ++ more') := fun s => by
  rw [List.filter_append, List.filter_append, h s, h' s]

lemma swap (h : ∀ e ∈ es, ∀ e' ∈ es', e.1 ≠ e'.1) : SameRows (es ++ es') (es' ++ es) := by
  intro s
  rw [List.filter_append, List.filter_append]
  -- at most one of the two lists has edges at `s`
  by_cases hs : ∃ e ∈ es, e.1 = s
  · obtain ⟨e, he, rfl⟩ := hs
    have hnone : es'.filter (·.1 = e.1) = [] :=
      List.filter_eq_nil_iff.2 fun e' he' heq => h e he e' he' (of_decide_eq_true heq).symm
    rw [hnone, List.append_nil, List.nil_append]
  · have hnone : es.filter (·.1 = s) = [] :=
      List.filter_eq_nil_iff.2 fun e he heq => hs ⟨e, he, of_decide_eq_true heq⟩
    rw [hnone, List.append_nil, List.nil_append]

end SameRows

lemma filter_renameEdge {σ : StateId → StateId} {S : Set StateId} (hσ : Set.InjOn σ S)
    {es : List (StateId × Arc StateId L r)} (hes : ∀ e ∈ es, e.1 ∈ S) {s : StateId} (hs : s ∈ S) :
    (es.map (renameEdge σ)).filter (·.1 = σ s) = (es.filter (·.1 = s)).map (renameEdge σ) := by
  rw [List.filter_map]
  refine congrArg (List.map (renameEdge σ)) (List.filter_congr fun e he => ?_)
  have hiff : σ e.1 = σ s ↔ e.1 = s := hσ.eq_iff (hes e he) hs
  simp only [Function.comp_apply, renameEdge, hiff]

lemma bijOn_union_of_disjoint {α β : Type} {f : α → β} {s s' : Set α} {t t' : Set β}
    (h : Set.BijOn f s t) (h' : Set.BijOn f s' t') (ht : Disjoint t t') :
    Set.BijOn f (s ∪ s') (t ∪ t') := by
  refine h.union h' ?_
  have hapart : ∀ x ∈ s, ∀ y ∈ s', f x ≠ f y := fun x hx y hy heq =>
    Set.disjoint_left.1 ht (h.mapsTo hx) (heq ▸ h'.mapsTo hy)
  rintro x (hx | hx) y (hy | hy) heq
  · exact h.injOn hx hy heq
  · exact absurd heq (hapart x hx y hy)
  · exact absurd heq.symm (hapart y hy x hx)
  · exact h'.injOn hx hy heq

/-! ### Three pieces in a row -/

namespace Fragment

variable {f g k : Fragment L r} {σ τ : StateId → StateId} {N : Set StateId}

/-- It makes no difference which two of three pieces are put together first, except for what is tied
when. -/
lemma through_through (f g k : Fragment L r) (s t : StateId) :
    (f.through g s).through k t = f.through (g.through k t) s := by
  simp [through]

lemma rename_through (f g : Fragment L r) (s : StateId) :
    (f.through g s).rename σ = (f.rename σ).through (g.rename σ) (σ s) := by
  simp [rename, through, Function.comp_def, Passage.into, Passage.outOf, Entry.rename, Exit.rename]

lemma rename_congr (hf : f.Within N) (h : ∀ s ∈ N, σ s = τ s) : f.rename σ = f.rename τ := by
  have hentries : f.entries.map (Entry.rename σ) = f.entries.map (Entry.rename τ) :=
    Array.map_congr_left fun e he => by rw [Entry.rename, Entry.rename, h _ (hf.entries e he)]
  have hexits : f.exits.map (Exit.rename σ) = f.exits.map (Exit.rename τ) :=
    Array.map_congr_left fun x hx => by rw [Exit.rename, Exit.rename, h _ (hf.exits x hx)]
  rw [rename, rename, hentries, hexits]

lemma rename_eq_self (hf : f.Within N) (h : ∀ s ∈ N, σ s = s) : f.rename σ = f := by
  have hentry : (Entry.rename id : Entry L r → Entry L r) = id := rfl
  have hexit : (Exit.rename id : Exit L r → Exit L r) = id := rfl
  have hid : f.rename id = f := by rw [rename, hentry, hexit, Array.map_id, Array.map_id]
  rw [rename_congr hf h]
  exact hid

lemma map_exitTies (f : Fragment L r) (t : StateId) :
    (f.exitTies t).map (renameEdge σ) = (f.rename σ).exitTies (σ t) := by
  unfold exitTies rename
  rw [List.map_map, Array.toList_map, List.map_map]
  rfl

lemma map_entryTies (f : Fragment L r) (s : StateId) :
    (f.entryTies s).map (renameEdge σ) = (f.rename σ).entryTies (σ s) := by
  unfold entryTies rename
  rw [List.map_map, Array.toList_map, List.map_map]
  rfl

lemma exitTies_through (f g : Fragment L r) (s t : StateId) :
    (f.through g s).exitTies t = g.exitTies t ++ g.passageTies s t := by
  unfold exitTies passageTies through
  rw [Array.toList_append, List.map_append, Array.toList_map, List.map_map]
  rfl

lemma entryTies_through (f g : Fragment L r) (s t : StateId) :
    (f.through g t).entryTies s = f.entryTies s ++ f.passageTies s t := by
  unfold entryTies passageTies through
  rw [Array.toList_append, List.map_append, Array.toList_map, List.map_map]
  rfl

end Fragment

/-- The edges that are tied when three pieces are put together, grouped to the left and to the
right. The third piece comes with edges of its own, which are tied in between or before. -/
lemma sameRows_regrouped {f g k : Fragment L r} {es : List (StateId × Arc StateId L r)}
    {Z N N' M : Set StateId} {t t' : StateId} (hf : f.Within N) (hg : g.Within N') (hN : N ⊆ Z)
    (hN' : N' ⊆ Z) (hdisjoint : Disjoint N N') (hes : ∀ e ∈ es, e.1 ∈ M) (hM : Disjoint Z M)
    (ht : t ∉ Z) (ht' : t' ∉ Z) (ht'M : t' ∉ M) (hne : t' ≠ t) :
    SameRows
      ((f.exitTies t' ++ g.entryTies t') ++ (es ++ ((f.through g t').exitTies t ++ k.entryTies t)))
      (es ++ ((g.exitTies t ++ k.entryTies t) ++
        (f.exitTies t' ++ (g.through k t).entryTies t'))) := by
  have hfirst : ∀ e ∈ f.exitTies t' ++ g.entryTies t', e.1 ∈ N ∨ e.1 = t' := by
    intro e he
    rcases List.mem_append.1 he with he | he
    · obtain ⟨x, hx, rfl⟩ := List.mem_map.1 he
      exact Or.inl (hf.exits x (Array.mem_toList_iff.1 hx))
    · obtain ⟨y, -, rfl⟩ := List.mem_map.1 he
      exact Or.inr rfl
  have hthird : ∀ e ∈ es ++ g.exitTies t, e.1 ∈ M ∨ e.1 ∈ N' := by
    intro e he
    rcases List.mem_append.1 he with he | he
    · exact Or.inl (hes e he)
    · obtain ⟨x, hx, rfl⟩ := List.mem_map.1 he
      exact Or.inr (hg.exits x (Array.mem_toList_iff.1 hx))
  -- what is tied at the first junction moves behind the third piece and the second one's exits
  have hmoved : SameRows ((f.exitTies t' ++ g.entryTies t') ++ (es ++ g.exitTies t))
      ((es ++ g.exitTies t) ++ (f.exitTies t' ++ g.entryTies t')) := by
    refine .swap fun e he e' he' heq => ?_
    rcases hfirst e he with h | h
    · rcases hthird e' he' with h' | h'
      · exact Set.disjoint_left.1 hM (hN h) (heq ▸ h')
      · exact Set.disjoint_left.1 hdisjoint h (heq ▸ h')
    · rcases hthird e' he' with h' | h'
      · exact ht'M (h ▸ heq ▸ h')
      · exact ht' (h ▸ heq ▸ hN' h')
  -- and then behind what leads into the third piece
  have hmoved' : SameRows
      (((f.exitTies t' ++ g.entryTies t') ++ g.passageTies t' t) ++ k.entryTies t)
      (k.entryTies t ++ ((f.exitTies t' ++ g.entryTies t') ++ g.passageTies t' t)) := by
    refine .swap fun e he e' he' heq => ?_
    obtain ⟨y, -, rfl⟩ := List.mem_map.1 he'
    have hsource : e.1 = t := heq
    rcases List.mem_append.1 he with he | he
    · rcases hfirst e he with h | h
      · exact ht (hsource ▸ hN h)
      · exact hne (h.symm.trans hsource)
    · obtain ⟨p, -, rfl⟩ := List.mem_map.1 he
      exact hne hsource
  have hall := (hmoved.append (.refl (g.passageTies t' t ++ k.entryTies t))).trans (by
    rw [List.append_assoc, ← List.append_assoc _ (g.passageTies t' t)]
    exact (SameRows.refl (es ++ g.exitTies t)).append hmoved')
  rw [exitTies_through, entryTies_through]
  simpa only [List.append_assoc] using hall

/-! ### What is built behind two pieces -/

/-- Two ways of adding to one automaton come to the same, but for names, if they add as many states
and the same edges out of each. -/
lemma renaming_of_appends {σ : StateId → StateId} {a b b' : Automaton L r I O}
    {ts added added' : List (Transition L r)} {N N' : Set StateId} (ha : Consistent a ts)
    (h : Appends a ts b N added) (h' : Appends a ts b' N' added')
    (hold : ∀ s, a.contains s → σ s = s) (hN : Set.BijOn σ N N')
    (hrows : SameRows ((added.map Transition.edge).map (renameEdge σ)) (added'.map Transition.edge))
    (hfinal : ∀ s, b.isFinal s = a.isFinal s) (hfinal' : ∀ s, b'.isFinal s = a.isFinal s) :
    Renaming σ b b' := by
  have hunmarked : ∀ s, ¬ a.contains s → a.isFinal s = false := fun s hs => by
    rw [contains_eq, Option.not_isSome_iff_eq_none] at hs
    rw [isFinal_eq, hs]
    rfl
  have hstates : ∀ {x : Automaton L r I O} {M added}, Appends a ts x M added →
      {s | x.contains s} = {s | a.contains s} ∪ M := fun hx => Set.ext hx.contains
  have hbijOn : Set.BijOn σ {s | b.contains s} {s | b'.contains s} := by
    rw [hstates h, hstates h']
    have hid : Set.BijOn σ {s | a.contains s} {s | a.contains s} :=
      (Set.bijOn_id _).congr fun s hs => (hold s hs).symm
    exact bijOn_union_of_disjoint hid hN (Set.disjoint_right.2 h'.fresh)
  refine ⟨hbijOn, hold _ ha.start, fun s hs => ?_, fun s hs => ?_⟩
  · rw [hfinal, hfinal']
    rcases (h.contains s).1 hs with hs | hs
    · rw [hold s hs]
    · rw [hunmarked s (h.fresh s hs), hunmarked _ (h'.fresh _ (hN.mapsTo hs))]
  · have hkept : (ts.map Transition.edge).map (renameEdge σ) = ts.map Transition.edge := by
      rw [List.map_map]
      refine List.map_congr_left fun t ht => ?_
      simp only [Function.comp_apply, renameEdge, Transition.edge, Transition.arc, Arc.map,
        hold _ (ha.source t ht), hold _ (ha.target t ht)]
    have hsources : ∀ e ∈ (ts ++ added).map Transition.edge, b.contains e.1 := by
      intro e he
      obtain ⟨t, ht, rfl⟩ := List.mem_map.1 he
      exact h.consistent.source t ht
    have hsame : SameRows (((ts ++ added).map Transition.edge).map (renameEdge σ))
        ((ts ++ added').map Transition.edge) := by
      rw [List.map_append, List.map_append, List.map_append, hkept]
      exact (SameRows.refl _).append hrows
    rw [h'.consistent.row_eq, h.consistent.row_eq, ← hsame,
      filter_renameEdge hbijOn.injOn hsources hs, List.map_map, List.map_map]
    rfl

lemma exists_renaming_of_parts (τ : StateId → StateId) {Z M : Set StateId} (hM : Disjoint Z M)
    {s t : StateId} (hs : s ∉ Z ∪ M) (ht : t ∉ Z ∪ M) (hne : t ≠ s) (s' t' : StateId) :
    ∃ σ : StateId → StateId, (∀ u ∈ Z, σ u = u) ∧ (∀ u ∈ M, σ u = τ u) ∧ σ s = s' ∧ σ t = t' := by
  classical
  refine ⟨Function.update (Function.update (fun u => if u ∈ M then τ u else u) s s') t t',
    fun u hu => ?_, fun u hu => ?_, ?_, Function.update_self _ _ _⟩
  · have hus : u ≠ s := fun heq => hs (Or.inl (heq ▸ hu))
    have hut : u ≠ t := fun heq => ht (Or.inl (heq ▸ hu))
    rw [Function.update_of_ne hut, Function.update_of_ne hus,
      if_neg (Set.disjoint_left.1 hM hu)]
  · have hus : u ≠ s := fun heq => hs (Or.inr (heq ▸ hu))
    have hut : u ≠ t := fun heq => ht (Or.inr (heq ▸ hu))
    rw [Function.update_of_ne hut, Function.update_of_ne hus, if_pos hu]
  · rw [Function.update_of_ne hne.symm, Function.update_self]

/-- To the right of what has been added, the second piece comes before it, then the first one. -/
lemma Appends.concat_concat {a c : Automaton L r I O} {ts added : List (Transition L r)}
    {M : Set StateId} {f g k : Fragment L r} (h : Appends a ts c M added)
    (hf : f.Within {s | a.contains s}) (hg : g.Within {s | a.contains s}) (hk : k.Within M) :
    ∃ b t more, (g.concat k >>= fun h => f.concat h) c =
        .ok (f.through (g.through k c.nextState) t) b ∧
      Appends a ts b (M ∪ {c.nextState} ∪ {t}) (added ++ more) ∧
      more.map Transition.edge = (g.exitTies c.nextState ++ k.entryTies c.nextState) ++
        (f.exitTies t ++ (g.through k c.nextState).entryTies t) ∧
      t ∉ {s | a.contains s} ∪ (M ∪ {c.nextState}) := by
  obtain ⟨c', more, hrun, h', hedges⟩ := Appends.concat h.consistent (h.within hg)
    (h.within_added hk)
  have hc' := h.trans h'
  have hjoined : (g.through k c.nextState).Within {s | c'.contains s} :=
    (hc'.within hg).through (h'.within (h.within_added hk)) (h'.subset (Or.inr rfl))
  obtain ⟨b, more', hrun', h'', hedges'⟩ := Appends.concat hc'.consistent (hc'.within hf) hjoined
  refine ⟨b, c'.nextState, more ++ more', ?_, ?_, ?_, hc'.next_notMem⟩
  · rw [Edit.bind_ok hrun]
    exact hrun'
  · rw [← List.append_assoc]
    exact hc'.trans h''
  · rw [List.map_append, hedges, hedges']

/-- An expression that is built behind two pieces is built behind the first of them and the second
with it, but for names. -/
lemma exists_behind (d : LogDomain) (e : Expr L) {f g : Fragment L r} {N N' : Set StateId}
    {a : Automaton L r I O} {ts : List (Transition L r)} (ha : Consistent a ts) (hf : f.Within N)
    (hg : g.Within N') (hN : ∀ s ∈ N, a.contains s) (hN' : ∀ s ∈ N', a.contains s)
    (hdisjoint : Disjoint N N') :
    ∃ k b b' σ M M' added added',
      (f.concat g >>= fun h => e.fragment d >>= fun k => h.concat k) a = .ok k b ∧
      (e.fragment d >>= fun k => g.concat k >>= fun h => f.concat h) a = .ok (k.rename σ) b' ∧
      Appends a ts b M added ∧ Appends a ts b' M' added' ∧ (∀ s, a.contains s → σ s = s) ∧
      Set.BijOn σ M M' ∧
      SameRows ((added.map Transition.edge).map (renameEdge σ)) (added'.map Transition.edge) := by
  have hfa : f.Within {s | a.contains s} := hf.mono hN
  have hga : g.Within {s | a.contains s} := hg.mono hN'
  -- the two pieces, then the expression on both sides
  obtain ⟨b₁, added₁, hrun₁, h₁, hedges₁⟩ := Appends.concat ha hfa hga
  obtain ⟨k, b₂, c, τ, M, M', added₂, added', hrun₂, hrun', hk, h₂, h', halike⟩ :=
    exists_added d e h₁.consistent ha
  have hjunction : b₁.contains a.nextState := h₁.subset (Or.inr rfl)
  have hjoined : (f.through g a.nextState).Within {s | b₁.contains s} :=
    (h₁.within hfa).through (h₁.within hga) hjunction
  obtain ⟨b, added₃, hrun₃, h₃, hedges₃⟩ := Appends.concat h₂.consistent (h₂.within hjoined)
    (h₂.within_added hk)
  obtain ⟨b', t', more', hrun'', h'', hedges', ht'⟩ := h'.concat_concat (k := k.rename τ) hfa hga
    (hk.rename halike.states.mapsTo)
  -- the junctions change places
  have hbetween : Disjoint {s | a.contains s} M :=
    h₂.disjoint.mono_left fun s hs => h₁.subset (Or.inl hs)
  have hfirst : a.nextState ∉ {s | a.contains s} ∪ M := by
    rintro (hs | hs)
    · exact ha.not_contains_nextState hs
    · exact h₂.fresh _ hs hjunction
  have hsecond : b₂.nextState ∉ {s | a.contains s} ∪ M := fun hs =>
    h₂.next_notMem (hs.imp_left fun hs => h₁.subset (Or.inl hs))
  have hne : b₂.nextState ≠ a.nextState := fun heq => h₂.next_notMem (Or.inl (heq ▸ hjunction))
  have hne' : t' ≠ c.nextState := fun heq => ht' (Or.inr (Or.inr heq))
  obtain ⟨σ, hold, hσM, hσ₁, hσ₂⟩ := exists_renaming_of_parts τ hbetween hfirst hsecond hne
    t' c.nextState
  have hfσ : f.rename σ = f := rename_eq_self hfa hold
  have hgσ : g.rename σ = g := rename_eq_self hga hold
  have hkσ : k.rename σ = k.rename τ := rename_congr hk hσM
  have hadded := halike.congr hσM
  refine ⟨(f.through g a.nextState).through k b₂.nextState, b, b', σ, _, _, _, _, ?_, ?_,
    h₁.trans (h₂.trans h₃), h'', hold, ?_, ?_⟩
  · rw [Edit.bind_ok hrun₁, Edit.bind_ok hrun₂]
    exact hrun₃
  · rw [Edit.bind_ok hrun', hrun'', rename_through, rename_through, hσ₁, hσ₂, hfσ, hgσ, hkσ,
      through_through]
  · have hsecond' : Disjoint M' {c.nextState} :=
      Set.disjoint_singleton_right.2 fun hs => h'.next_notMem (Or.inr hs)
    have hfirst' : Disjoint (M' ∪ {c.nextState}) {t'} :=
      Set.disjoint_singleton_right.2 fun hs => ht' (Or.inr hs)
    have hall := bijOn_union_of_disjoint (bijOn_union_of_disjoint hadded.states
      (Set.bijOn_singleton.2 hσ₂) hsecond') (Set.bijOn_singleton.2 hσ₁) hfirst'
    rwa [Set.union_comm {a.nextState}]
  · simp only [List.map_append, hedges₁, hedges₃, hedges', map_exitTies, map_entryTies,
      rename_through, hfσ, hgσ, hkσ, hσ₁, hσ₂, ← hadded.edges]
    exact sameRows_regrouped hf hg hN hN' hdisjoint hadded.source_right h'.disjoint
      (fun hs => h'.next_notMem (Or.inl hs)) (fun hs => ht' (Or.inl hs))
      (fun hs => ht' (Or.inr (Or.inl hs))) hne'

/-! ### Three expressions in a row -/

/-- Wherever three expressions are built in a row, both groupings give the same but for names. What
was there before keeps its names. -/
lemma exists_regrouped (d : LogDomain) (e₁ e₂ e₃ : Expr L) {a : Automaton L r I O}
    (ha : ∃ ts, Consistent a ts) :
    ∃ f b b' σ, (Expr.concat (.concat e₁ e₂) e₃).fragment d a = .ok f b ∧
      (Expr.concat e₁ (.concat e₂ e₃)).fragment d a = .ok (f.rename σ) b' ∧ Renaming σ b b' ∧
      (∃ us, Consistent b' us) ∧ ∀ s, a.contains s → σ s = s := by
  obtain ⟨f, a₁, hf, N, _, h₁, hlayout₁⟩ := exists_fragment d e₁ ha
  obtain ⟨g, a₂, hg, N', _, h₂, hlayout₂⟩ := exists_fragment d e₂ h₁.consistent
  have h₁₂ := h₁.trans h₂
  obtain ⟨ts, ha₂⟩ := h₂.consistent
  obtain ⟨k, b, b', σ, M, M', added, added', hleft, hright, hb, hb', hold, hbijOn, hrows⟩ :=
    exists_behind d e₃ ha₂ ⟨hlayout₁.enclosed.entries, hlayout₁.enclosed.exits⟩
      ⟨hlayout₂.enclosed.entries, hlayout₂.enclosed.exits⟩
      (fun s hs => (h₁₂.contains s).2 (Or.inr (Or.inl hs)))
      (fun s hs => (h₁₂.contains s).2 (Or.inr (Or.inr hs))) (h₁.disjoint h₂)
  have hrun : (Expr.concat (.concat e₁ e₂) e₃).fragment d a = .ok k b := by
    rw [Expr.fragment_concat, Expr.fragment_concat, bind_assoc, Edit.bind_ok hf, bind_assoc,
      Edit.bind_ok hg]
    exact hleft
  have hrun' : (Expr.concat e₁ (.concat e₂ e₃)).fragment d a = .ok (k.rename σ) b' := by
    rw [Expr.fragment_concat, Expr.fragment_concat, Edit.bind_ok hf, bind_assoc, Edit.bind_ok hg]
    simp only [bind_assoc]
    exact hright
  -- neither grouping makes any state final
  have hfinal : ∀ {e : Expr L} {h : Fragment L r} {c : Automaton L r I O},
      e.fragment d a = .ok h c →
      ∀ s, c.isFinal s = a₂.isFinal s := by
    intro e h c hc s
    obtain ⟨h', c', hc', _, _, hac, -⟩ := exists_fragment d e ha
    rw [hc] at hc'
    cases hc'
    rw [hac.isFinal, h₁₂.isFinal]
  exact ⟨k, b, b', σ, hrun, hrun',
    renaming_of_appends ha₂ hb hb' hold hbijOn hrows (hfinal hrun) (hfinal hrun'),
    ⟨_, hb'.consistent⟩, fun s hs => hold s ((h₁₂.contains s).2 (Or.inl hs))⟩

/-- A fragment is like another one under other names, where those that correspond are named anew. -/
lemma Fragment.Like.rename_right {P : Correspondence} {f g : Fragment L r} (h : Like Eq P f g)
    (σ : StateId → StateId) : Like Eq (fun s t => ∃ s', P s s' ∧ σ s' = t) f (g.rename σ) where
  passages := h.passages
  entries := by
    unfold Fragment.rename
    rw [Array.toList_map, List.forall₂_map_right_iff]
    exact h.entries.imp fun x y hxy => ⟨hxy.1, hxy.2.1, y.target, hxy.2.2, rfl⟩
  exits := by
    unfold Fragment.rename
    rw [Array.toList_map, List.forall₂_map_right_iff]
    exact h.exits.imp fun x y hxy => ⟨hxy.1, hxy.2.1, y.source, hxy.2.2, rfl⟩

/-- **Three expressions in a row are alike in either grouping**, where automata may differ in the
names of their states. -/
lemma alike_regrouped (d : LogDomain) (e₁ e₂ e₃ : Expr L) :
    Alike Eq (Renamed (r := r)) d d (.concat (.concat e₁ e₂) e₃) (.concat e₁ (.concat e₂ e₃)) := by
  have hself := (Alike.refl (lockstep_renamed (r := r)) (fun _ => rfl)
    (.concat (.concat e₁ e₂) e₃)).builtAlike (d := d) lockstep_renamed
  refine .of_builtAlike (by simp [Expr.withoutWeight]) (by simp [Expr.withoutWeight]) ?_
  intro P P₁ a b hP hR
  obtain ⟨P₂, f, g, a', b', hP₂, hf, hg, hR', hlike⟩ := hself P hP hR
  obtain ⟨g', b₁, c, σ, hg', hregrouped, hσ, hc, hold⟩ := exists_regrouped d e₁ e₂ e₃ hR.right
  rw [hg] at hg'
  cases hg'
  obtain ⟨τ, hτ, hnames⟩ := hR'.names
  refine ⟨fun s t => ∃ s', P₂ s s' ∧ σ s' = t, f, _, a', c, fun s s' hs => ?_, hf, hregrouped,
    ⟨hR'.left, hc, _, hτ.trans hσ, ?_⟩, hlike.rename_right σ⟩
  · exact ⟨s', hP₂ s s' hs, hold s' (lockstep_renamed.contains hR hs).2⟩
  · rintro s t ⟨s', hs, rfl⟩
    obtain ⟨hcontains, rfl⟩ := hnames s s' hs
    exact ⟨hcontains, rfl⟩

end WeightedAutomata
