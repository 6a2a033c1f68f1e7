import WeightedAutomata.Proofs.Automaton.Agreement
import WeightedAutomata.Proofs.Compilation.OpenEdges

/-!
What a splice adds to an automaton.

A splice adds states and arcs and changes nothing else. Where all states that its operands name are
in force it succeeds, and the arcs it adds are those of the open edges that it ties.
-/

namespace WeightedAutomata

open Automaton Fragment

variable {L I O : Type} {r : Range} [LabelOver L I O] [Alphabet I] [Alphabet O]

/-- The arcs of a state, without their order. -/
def Automaton.arcs (a : Automaton L r I O) (s : StateId) : Multiset (Arc StateId L r) :=
  ↑(a.machine.arcs s).toList

/-- One automaton has a set of states and some arcs more than another. -/
structure Extends (a b : Automaton L r I O) (N : Set StateId)
    (added : StateId → Multiset (Arc StateId L r)) : Prop where
  consistent : ∃ ts, Consistent b ts
  contains : ∀ s, b.contains s ↔ a.contains s ∨ s ∈ N
  fresh : ∀ s ∈ N, ¬ a.contains s
  isFinal : ∀ s, b.isFinal s = a.isFinal s
  arcs : b.arcs = a.arcs + added

namespace Automaton

variable {a : Automaton L r I O} {ts : List (Transition L r)}

omit [LabelOver L I O] in
lemma arcs_eq (s : StateId) : a.arcs s = ↑((a.transitionsFrom s).toList.map Transition.arc) := by
  unfold arcs machine
  rw [LazyList.toList_map]

omit [LabelOver L I O] in
lemma arcs_of_not_contains {s : StateId} (hs : ¬ a.contains s) : a.arcs s = 0 := by
  rw [arcs_eq, toList_transitionsFrom_of_not_contains hs]
  rfl

namespace Consistent

lemma arcs_of_contains (h : Consistent a ts) {s : StateId} (hs : a.contains s) :
    a.arcs s = ↑((ts.filter (·.source = s)).map Transition.arc) := by
  rw [arcs_eq, h.toList_transitionsFrom hs]

lemma arcs_grow (h : Consistent a ts) (isFinal : Bool) : (a.grow isFinal).arcs = a.arcs := by
  have hget : ∀ s, (a.grow isFinal).states.get? s =
      if s = a.nextState then some (.isolated isFinal) else a.states.get? s :=
    fun s => Arena.get?_insert h.states _ s
  funext s
  by_cases hs : s = a.nextState
  · have hnew : ¬ a.contains s := hs ▸ h.not_contains_nextState
    have hisolated : ((a.grow isFinal).inSlots #[]).toList = [] := by
      unfold inSlots
      rw [LazyList.toList_filterMap, LazyList.toList_ofArray]
      rfl
    rw [arcs_of_not_contains hnew, arcs_eq, transitionsFrom, hget, if_pos hs]
    rw [Multiset.coe_eq_zero, List.map_eq_nil_iff]
    exact hisolated
  · rw [arcs_eq, arcs_eq, transitionsFrom, transitionsFrom, hget, if_neg hs]
    rfl

lemma extends_grow (h : Consistent a ts) : Extends a (a.grow false) {a.nextState} 0 where
  consistent := ⟨ts, h.grow false⟩
  contains := contains_grow h.states false
  fresh s hs := by
    rw [Set.mem_singleton_iff.1 hs]
    exact h.not_contains_nextState
  isFinal s := by
    rw [isFinal_eq, isFinal_eq, finality?_grow h.states]
    by_cases hs : s = a.nextState
    · have hnone : a.finality? a.nextState = none := by
        have := h.not_contains_nextState
        rwa [contains_eq, Option.not_isSome_iff_eq_none] at this
      rw [if_pos hs, hs, hnone]
      rfl
    · rw [if_neg hs]
  arcs := by
    rw [add_zero]
    exact h.arcs_grow false

lemma extends_link (h : Consistent a ts) {source target : StateId} (hs : a.contains source)
    (ht : a.contains target) (label : L) (weight : Weight r) :
    Extends a (a.link source target label weight) ∅
      (Pi.single source {⟨target, label, weight⟩}) where
  consistent := ⟨_, h.link hs ht label weight⟩
  contains s := by
    rw [contains_eq, contains_eq, finality?_link, Set.mem_empty_iff_false, or_false]
  fresh s hs := hs.elim
  isFinal s := by rw [isFinal_eq, isFinal_eq, finality?_link]
  arcs := by
    have hlink := h.link hs ht label weight
    funext s
    by_cases hcontains : a.contains s
    · have hcontains' : (a.link source target label weight).contains s := by
        rwa [contains_eq, finality?_link, ← contains_eq]
      rw [hlink.arcs_of_contains hcontains', Pi.add_apply, h.arcs_of_contains hcontains,
        filter_snoc]
      by_cases hsource : s = source
      · rw [if_pos hsource.symm, hsource, Pi.single_eq_same, List.map_append, ← Multiset.coe_add]
        rfl
      · rw [if_neg (Ne.symm hsource), Pi.single_eq_of_ne hsource, add_zero]
    · have hcontains' : ¬ (a.link source target label weight).contains s := by
        rwa [contains_eq, finality?_link, ← contains_eq]
      have hsource : s ≠ source := fun hc => hcontains (hc ▸ hs)
      rw [Pi.add_apply, arcs_of_not_contains hcontains, arcs_of_not_contains hcontains',
        Pi.single_eq_of_ne hsource, add_zero]

end Consistent

lemma arcs_new : (new : Automaton L r I O).arcs = 0 := by
  funext s
  by_cases hs : (new : Automaton L r I O).contains s
  · rw [consistent_new.arcs_of_contains hs]
    rfl
  · exact arcs_of_not_contains hs

end Automaton

namespace Extends

variable {a b c : Automaton L r I O} {N N' : Set StateId}
  {added added' : StateId → Multiset (Arc StateId L r)}

lemma refl {ts : List (Transition L r)} (h : Consistent a ts) : Extends a a ∅ 0 where
  consistent := ⟨ts, h⟩
  contains s := by rw [Set.mem_empty_iff_false, or_false]
  fresh _ hs := hs.elim
  isFinal _ := rfl
  arcs := (add_zero _).symm

lemma trans (hab : Extends a b N added) (hbc : Extends b c N' added') :
    Extends a c (N ∪ N') (added + added') where
  consistent := hbc.consistent
  contains s := by rw [hbc.contains, hab.contains, Set.mem_union, or_assoc]
  fresh s hs := by
    rcases hs with hs | hs
    · exact hab.fresh s hs
    · exact fun hc => hbc.fresh s hs ((hab.contains s).2 (Or.inl hc))
  isFinal s := (hbc.isFinal s).trans (hab.isFinal s)
  arcs := by rw [hbc.arcs, hab.arcs, add_assoc]

lemma disjoint (hab : Extends a b N added) (hbc : Extends b c N' added') : Disjoint N N' :=
  Set.disjoint_left.2 fun s hs hs' => hbc.fresh s hs' ((hab.contains s).2 (Or.inr hs))

end Extends

/-! ### Splices -/

section Splices

variable {a b : Automaton L r I O}

section Tied

variable {α : Type}

/-- The arcs of each state, given the source and the rest of every arc. -/
def tied (xs : List α) (source : α → StateId) (arc : α → Arc StateId L r) (s : StateId) :
    Multiset (Arc StateId L r) := ↑((xs.filter (source · = s)).map arc)

lemma tied_cons (x : α) (xs : List α) (source : α → StateId) (arc : α → Arc StateId L r) :
    tied (x :: xs) source arc = Pi.single (source x) {arc x} + tied xs source arc := by
  funext s
  rw [Pi.add_apply]
  unfold tied
  rw [List.filter_cons]
  by_cases hx : source x = s
  · rw [if_pos (decide_eq_true hx), hx, Pi.single_eq_same]
    rfl
  · rw [if_neg (mt of_decide_eq_true hx), Pi.single_eq_of_ne (Ne.symm hx), zero_add]

lemma tied_const (xs : List α) (source : StateId) (arc : α → Arc StateId L r) :
    tied xs (fun _ => source) arc = Pi.single source ↑(xs.map arc) := by
  funext s
  unfold tied
  by_cases hs : source = s
  · have hall : xs.filter (fun _ => source = s) = xs :=
      List.filter_eq_self.2 fun _ _ => decide_eq_true hs
    rw [hall, hs, Pi.single_eq_same]
  · have hnone : xs.filter (fun _ => source = s) = [] :=
      List.filter_eq_nil_iff.2 fun _ _ => mt of_decide_eq_true hs
    rw [hnone, Pi.single_eq_of_ne (Ne.symm hs)]
    rfl

end Tied

lemma extends_forM {α : Type} (h : ∃ ts, Consistent a ts) (xs : Array α) (source : α → StateId)
    (arc : α → Arc StateId L r)
    (hlive : ∀ x ∈ xs, a.contains (source x) ∧ a.contains (arc x).target) :
    ∃ b, (xs.forM fun x => discard (addTransition (source x) (arc x).target (arc x).label
        (arc x).weight) : Edit L r PUnit) a = .ok () b ∧
      Extends a b ∅ (tied xs.toList source arc) := by
  have hlist : ∀ x ∈ xs.toList, a.contains (source x) ∧ a.contains (arc x).target :=
    fun x hx => hlive x (Array.mem_toList_iff.1 hx)
  unfold Array.forM
  rw [← Array.foldlM_toList]
  clear hlive
  generalize xs.toList = l at hlist
  -- one link at a time; the ends of the later ones stay live
  induction l generalizing a with
  | nil =>
    obtain ⟨ts, h⟩ := h
    exact ⟨a, rfl, Extends.refl h⟩
  | cons x l ih =>
    obtain ⟨ts, h⟩ := h
    obtain ⟨hs, ht⟩ := hlist x List.mem_cons_self
    have hlink := h.extends_link hs ht (arc x).label (arc x).weight
    have hstep : discard (addTransition (source x) (arc x).target (arc x).label (arc x).weight) a =
        .ok () (a.link (source x) (arc x).target (arc x).label (arc x).weight) :=
      Edit.discard_ok (addTransition_of_contains hs ht (arc x).label (arc x).weight)
    have hrest : ∀ y ∈ l, _ := fun y hy => hlist y (List.mem_cons_of_mem _ hy)
    obtain ⟨b, hb, hextends⟩ := ih hlink.consistent fun y hy =>
      ⟨(hlink.contains _).2 (Or.inl (hrest y hy).1), (hlink.contains _).2 (Or.inl (hrest y hy).2)⟩
    refine ⟨b, ?_, ?_⟩
    · rw [List.foldlM_cons, Edit.bind_ok hstep]
      exact hb
    · have hboth := hlink.trans hextends
      rw [Set.union_empty] at hboth
      rw [tied_cons]
      exact hboth

lemma extends_closeExits (h : ∃ ts, Consistent a ts) {xs : Array (Exit L r)} {target : StateId}
    (ht : a.contains target) (hxs : ∀ x ∈ xs, a.contains x.source) :
    ∃ b, closeExits xs target a = .ok () b ∧ Extends a b ∅ (exitArcs xs target) :=
  extends_forM h xs Exit.source (·.arcTo target) fun x hx => ⟨hxs x hx, ht⟩

lemma extends_closeEntries (h : ∃ ts, Consistent a ts) {es : Array (Entry L r)} {source : StateId}
    (hs : a.contains source) (hes : ∀ e ∈ es, a.contains e.target) :
    ∃ b, closeEntries es source a = .ok () b ∧ Extends a b ∅ (Pi.single source (entryArcs es)) := by
  obtain ⟨b, hb, hextends⟩ := extends_forM h es (fun _ => source) Entry.arc
    fun e he => ⟨hs, hes e he⟩
  rw [tied_const] at hextends
  exact ⟨b, hb, hextends⟩

lemma extends_closePassages (h : ∃ ts, Consistent a ts) (ps : Array (Passage L r))
    {source target : StateId} (hs : a.contains source) (ht : a.contains target) :
    ∃ b, closePassages ps source target a = .ok () b ∧
      Extends a b ∅ (Pi.single source (passageArcs ps target)) := by
  obtain ⟨b, hb, hextends⟩ := extends_forM h ps (fun _ => source) (·.arcTo target)
    fun _ _ => ⟨hs, ht⟩
  rw [tied_const] at hextends
  exact ⟨b, hb, hextends⟩

lemma Extends.contains_of_contains {N : Set StateId}
    {added : StateId → Multiset (Arc StateId L r)} (h : Extends a b N added) {s : StateId}
    (hs : a.contains s) : b.contains s := (h.contains s).2 (Or.inl hs)

lemma extends_addState (h : ∃ ts, Consistent a ts) :
    ∃ b, addState false a = .ok a.nextState b ∧ Extends a b {a.nextState} 0 := by
  obtain ⟨ts, h⟩ := h
  exact ⟨a.grow false, rfl, h.extends_grow⟩

variable {f g : Fragment L r}

lemma extends_concat (h : ∃ ts, Consistent a ts) (hf : ∀ x ∈ f.exits, a.contains x.source)
    (hg : ∀ e ∈ g.entries, a.contains e.target) :
    ∃ b, f.concat g a = .ok ⟨#[], f.entries ++ f.passages.map (·.into a.nextState),
        g.exits ++ g.passages.map (·.outOf a.nextState)⟩ b ∧
      Extends a b {a.nextState}
        (exitArcs f.exits a.nextState + Pi.single a.nextState (entryArcs g.entries)) := by
  obtain ⟨b, hb, hab⟩ := extends_addState h
  have hnew : b.contains a.nextState := (hab.contains _).2 (Or.inr rfl)
  -- the open ends of `f` and `g` are live still when the junction has been made
  obtain ⟨c, hc, hbc⟩ := extends_closeExits hab.consistent hnew fun x hx =>
    hab.contains_of_contains (hf x hx)
  obtain ⟨e, he, hce⟩ := extends_closeEntries hbc.consistent (hbc.contains_of_contains hnew)
    fun x hx => hbc.contains_of_contains (hab.contains_of_contains (hg x hx))
  have hall := hab.trans (hbc.trans hce)
  rw [Set.union_empty, Set.union_empty, zero_add] at hall
  refine ⟨e, ?_, hall⟩
  unfold Fragment.concat
  rw [Edit.bind_ok hb, Edit.bind_ok hc, Edit.bind_ok he]
  rfl

lemma extends_closeOn (h : ∃ ts, Consistent a ts) (hentries : ∀ e ∈ f.entries, a.contains e.target)
    (hexits : ∀ x ∈ f.exits, a.contains x.source) {hub : StateId} (hhub : a.contains hub)
    (again : Weight r) :
    ∃ b, f.closeOn hub again a = .ok () b ∧
      Extends a b ∅ (Pi.single hub ((f.scale again).leads hub) + exitArcs f.exits hub) := by
  obtain ⟨b, hb, hab⟩ := extends_closePassages h (f.scale again).passages hhub hhub
  have hscaled : ∀ e ∈ (f.scale again).entries, a.contains e.target := by
    intro e he
    obtain ⟨e', he', rfl⟩ := Array.mem_map.1 he
    exact hentries e' he'
  obtain ⟨c, hc, hbc⟩ := extends_closeEntries hab.consistent (hab.contains_of_contains hhub)
    fun e he => hab.contains_of_contains (hscaled e he)
  obtain ⟨e, he, hce⟩ := extends_closeExits hbc.consistent
    (hbc.contains_of_contains (hab.contains_of_contains hhub))
    fun x hx => hbc.contains_of_contains (hab.contains_of_contains (hexits x hx))
  have hall := (hab.trans hbc).trans hce
  rw [Set.union_empty, Set.union_empty, ← Pi.single_add] at hall
  refine ⟨e, ?_, hall⟩
  unfold Fragment.closeOn
  rw [Edit.bind_ok hb, Edit.bind_ok hc]
  exact he

lemma extends_closure (h : ∃ ts, Consistent a ts) (hentries : ∀ e ∈ f.entries, a.contains e.target)
    (hexits : ∀ x ∈ f.exits, a.contains x.source) (again leave : Weight r) :
    ∃ b, f.closure again leave a = .ok ⟨#[], #[⟨Label.epsilon, 1, a.nextState⟩],
        #[⟨a.nextState, Label.epsilon, leave⟩]⟩ b ∧
      Extends a b {a.nextState} (Pi.single a.nextState ((f.scale again).leads a.nextState) +
        exitArcs f.exits a.nextState) := by
  obtain ⟨b, hb, hab⟩ := extends_addState h
  have hnew : b.contains a.nextState := (hab.contains _).2 (Or.inr rfl)
  obtain ⟨c, hc, hbc⟩ := extends_closeOn hab.consistent
    (fun e he => hab.contains_of_contains (hentries e he))
    (fun x hx => hab.contains_of_contains (hexits x hx)) hnew again
  have hall := hab.trans hbc
  rw [Set.union_empty, zero_add] at hall
  refine ⟨c, ?_, hall⟩
  unfold Fragment.closure
  rw [Edit.bind_ok hb, Edit.bind_ok hc]
  rfl

lemma extends_positiveClosure (h : ∃ ts, Consistent a ts)
    (hf : ∀ x ∈ f.exits, a.contains x.source) (hentries : ∀ e ∈ g.entries, a.contains e.target)
    (hexits : ∀ x ∈ g.exits, a.contains x.source) (again leave : Weight r) :
    ∃ b, f.positiveClosure g again leave a =
        .ok ⟨#[], f.entries ++ f.passages.map (·.into a.nextState),
          #[⟨a.nextState, Label.epsilon, leave⟩]⟩ b ∧
      Extends a b {a.nextState} (exitArcs f.exits a.nextState +
        (Pi.single a.nextState ((g.scale again).leads a.nextState) +
          exitArcs g.exits a.nextState)) := by
  obtain ⟨b, hb, hab⟩ := extends_addState h
  have hnew : b.contains a.nextState := (hab.contains _).2 (Or.inr rfl)
  obtain ⟨c, hc, hbc⟩ := extends_closeExits hab.consistent hnew fun x hx =>
    hab.contains_of_contains (hf x hx)
  have hac := hab.trans hbc
  obtain ⟨e, he, hce⟩ := extends_closeOn hbc.consistent
    (fun e he => hac.contains_of_contains (hentries e he))
    (fun x hx => hac.contains_of_contains (hexits x hx)) (hbc.contains_of_contains hnew) again
  have hall := hac.trans hce
  rw [Set.union_empty, Set.union_empty, zero_add] at hall
  refine ⟨e, ?_, hall⟩
  unfold Fragment.positiveClosure
  rw [Edit.bind_ok hb, Edit.bind_ok hc, Edit.bind_ok he]
  rfl

/-- A piece with a right end is attached in two steps, since its end is made only when it is first
needed: what is tied before that, and the final state with what is tied to it. -/
lemma extends_attach (h : ∃ ts, Consistent a ts) {start : StateId} (hstart : a.contains start)
    (hentries : ∀ e ∈ f.entries, a.contains e.target)
    (hexits : ∀ x ∈ f.exits, a.contains x.source) (hends : f.passages ≠ #[] ∨ f.exits ≠ #[]) :
    ∃ b c before after, f.attach start a = .ok b.nextState c ∧ Extends a b ∅ before ∧
      Extends (b.grow true) c ∅ after ∧
      before + after = Pi.single start (f.leads b.nextState) + exitArcs f.exits b.nextState := by
  have hguard : ¬ (!a.contains start) = true := by rw [hstart]; decide
  unfold Fragment.attach
  rw [Edit.get_bind, if_neg hguard]
  by_cases hp : f.passages.isEmpty
  · have hpassages : f.passages = #[] := Array.isEmpty_iff.1 hp
    -- without passages the fragment has exits, so a final state is made
    have hx : ¬ f.exits.isEmpty := fun hx =>
      hends.elim (fun h => h hpassages) (fun h => h (Array.isEmpty_iff.1 hx))
    obtain ⟨b, hb, hab⟩ := extends_closeEntries h hstart hentries
    obtain ⟨ts, hts⟩ := hab.consistent
    have hfinal : addState true b = .ok b.nextState (b.grow true) := rfl
    obtain ⟨c, hc, hbc⟩ := extends_closeExits ⟨ts, hts.grow true⟩
      ((contains_grow hts.states true _).2 (Or.inr rfl))
      fun x hx =>
        (contains_grow hts.states true _).2 (Or.inl (hab.contains_of_contains (hexits x hx)))
    refine ⟨b, c, _, _, ?_, hab, hbc, ?_⟩
    · rw [if_pos hp]
      beta_reduce
      rw [Edit.bind_ok hb, if_neg hx, Edit.bind_ok hfinal, Edit.bind_ok hc]
      rfl
    · rw [leads, hpassages]
      exact congrArg (Pi.single start · + _) (zero_add _).symm
  · obtain ⟨ts, hts⟩ := h
    have hfinal : addState true a = .ok a.nextState (a.grow true) := rfl
    have hlive : ∀ s, a.contains s → (a.grow true).contains s :=
      fun s hs => (contains_grow hts.states true s).2 (Or.inl hs)
    have hnew : (a.grow true).contains a.nextState :=
      (contains_grow hts.states true _).2 (Or.inr rfl)
    obtain ⟨b, hb, hab⟩ := extends_closePassages ⟨ts, hts.grow true⟩ f.passages
      (hlive start hstart) hnew
    obtain ⟨c, hc, hbc⟩ := extends_closeEntries hab.consistent
      (hab.contains_of_contains (hlive start hstart))
      fun e he => hab.contains_of_contains (hlive _ (hentries e he))
    have hac := hab.trans hbc
    obtain ⟨e, he, hce⟩ := extends_closeExits hbc.consistent (hac.contains_of_contains hnew)
      fun x hx => hac.contains_of_contains (hlive _ (hexits x hx))
    have hall := hac.trans hce
    rw [Set.union_empty, Set.union_empty, ← Pi.single_add] at hall
    refine ⟨a, e, 0, _, ?_, Extends.refl hts, hall, zero_add _⟩
    rw [if_neg hp]
    beta_reduce
    rw [Edit.bind_ok hfinal, Edit.bind_ok hb, Edit.bind_ok hc, Edit.bind_ok he]
    rfl

end Splices

end WeightedAutomata
