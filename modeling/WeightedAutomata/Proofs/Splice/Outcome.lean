import WeightedAutomata.Proofs.Splice.Plan

/-!
What a splice leaves, whether it succeeds or not.

A splice stops at the first edge that has an end which is not in force. What it has done by then is
to tie the edges before that one, and to make the state where open ends meet if it got as far.
-/

namespace WeightedAutomata

open Automaton

variable {L I O : Type} {r : Range} [LabelOver L I O] [Alphabet I] [Alphabet O]

namespace Splice

variable {σ : Splice L r} {a b : Automaton L r I O} {ts added : List (Transition L r)}

omit [LabelOver L I O] in
lemma Admitted.mono (h : σ.Admitted a) (hab : ∀ s, a.contains s → b.contains s) : σ.Admitted b :=
  fun f start heq => hab start (h f start heq)

/-! ### The state where the open ends meet -/

/-- The automaton once that state is there. -/
def marked (σ : Splice L r) (a : Automaton L r I O) : Automaton L r I O := a.after σ.marking

/-- What is made or marked, and how. -/
lemma marking_eq (h : σ.Admitted a) :
    σ.marking a = .ok (σ.place a.nextState) (σ.marked a) ∧
      (σ.opens = true ∧ σ.place a.nextState = a.nextState ∧ σ.marked a = a.grow σ.isFinal ∨
        σ.opens = false ∧ a.contains (σ.place a.nextState) ∧
          σ.marked a = { a with
            states := a.states.update (σ.place a.nextState).index
              fun d => { d with isFinal := σ.isFinal } }) := by
  cases σ with
  | attach f start =>
    cases hopens : (attach f start : Splice L r).opens with
    | true =>
      have hmarking : (attach f start : Splice L r).marking = addState true := if_pos hopens
      have hplace : ∀ hub, (attach f start : Splice L r).place hub = hub := fun _ => if_pos hopens
      rw [marked, hmarking, hplace]
      exact ⟨rfl, .inl ⟨rfl, rfl, rfl⟩⟩
    -- nothing to tie in the end: the start is marked final, and no state is made
    | false =>
      have hstart : a.contains start := h f start rfl
      have hplace : ∀ hub, (attach f start : Splice L r).place hub = start :=
        fun _ => if_neg (by rw [hopens]; decide)
      have hmarking : (attach f start : Splice L r).marking a = .ok start { a with
          states := a.states.update start.index fun d => { d with isFinal := true } } := by
        have hset : setFinal start true a = .ok () { a with
            states := a.states.update start.index fun d => { d with isFinal := true } } :=
          if_pos hstart
        rw [marking, hopens]
        exact Edit.bind_ok hset _
      rw [marked, Automaton.after, hmarking, hplace]
      exact ⟨rfl, .inr ⟨rfl, hstart, rfl⟩⟩
  | _ => exact ⟨rfl, .inl ⟨rfl, rfl, rfl⟩⟩

omit [LabelOver L I O] in
lemma finality?_setFinal {p : StateId} (hp : a.contains p) (isFinal : Bool) (s : StateId) :
    ({ a with states := a.states.update p.index fun d => { d with isFinal } } :
        Automaton L r I O).finality? s = if s = p then some isFinal else a.finality? s := by
  obtain ⟨d, hd⟩ := Option.isSome_iff_exists.1 hp
  have hget := Arena.get?_update_of_contains hp (fun d => { d with isFinal }) s
  unfold finality?
  rw [hget]
  by_cases hs : s = p
  · rw [if_pos hs, if_pos hs, hs, hd]
    rfl
  · rw [if_neg hs, if_neg hs]

lemma stateCount_marked (h : σ.Admitted a) :
    (σ.marked a).stateCount = a.stateCount + if σ.opens then 1 else 0 := by
  obtain ⟨-, ⟨hopens, -, hgrow⟩ | ⟨hopens, -, hset⟩⟩ := marking_eq h
  · rw [hgrow, if_pos hopens]
    exact Arena.size_insert _ _
  · rw [hset, hopens]
    rfl

lemma transitionCount_marked (h : σ.Admitted a) :
    (σ.marked a).transitionCount = a.transitionCount := by
  obtain ⟨-, ⟨-, -, hgrow⟩ | ⟨-, -, hset⟩⟩ := marking_eq h
  · rw [hgrow]
    rfl
  · rw [hset]
    rfl

lemma consistent_marked (ha : Consistent a ts) (h : σ.Admitted a) : Consistent (σ.marked a) ts := by
  obtain ⟨-, ⟨-, -, hgrow⟩ | ⟨-, -, hset⟩⟩ := marking_eq h
  · rw [hgrow]
    exact ha.grow σ.isFinal
  · rw [hset]
    exact ha.setFinal _ σ.isFinal

lemma finality?_marked (ha : Consistent a ts) (h : σ.Admitted a) (s : StateId) :
    (σ.marked a).finality? s =
      if s = σ.place a.nextState then some σ.isFinal else a.finality? s := by
  obtain ⟨-, ⟨-, hplace, hgrow⟩ | ⟨-, hlive, hset⟩⟩ := marking_eq h
  · rw [hgrow, hplace]
    exact finality?_grow ha.states σ.isFinal s
  · rw [hset]
    exact finality?_setFinal hlive σ.isFinal s

/-! ### How far a splice gets -/

/-- The automaton `b` is `a` with edges tied, and with the state made or marked where the open ends
meet if `made` says so. Nothing else has changed. -/
structure Tied (σ : Splice L r) (a b : Automaton L r I O) (made : Bool)
    (tied : List (StateId × Arc StateId L r)) (added : List (Transition L r)) : Prop where
  grown : Grown a b added
  /-- Each edge has become one transition, in their order. -/
  edges : added.map Transition.edge = tied
  finality : ∀ s, b.finality? s =
    if made ∧ s = σ.place a.nextState then some σ.isFinal else a.finality? s
  stateCount : b.stateCount = a.stateCount + if made ∧ σ.opens then 1 else 0
  transitionCount : b.transitionCount = a.transitionCount + tied.length

/-- The splice stops at the edge `e`, the first that cannot be tied, after it has tied others. -/
structure StopsAt (σ : Splice L r) (a b : Automaton L r I O) (cause : Error)
    (tied : List (StateId × Arc StateId L r)) (e : StateId × Arc StateId L r)
    (added : List (Transition L r)) : Prop where
  first : ∃ rest, σ.ties (σ.place a.nextState) = tied ++ e :: rest
  joins : ∀ t ∈ tied, b.joins t
  stops : ¬ b.joins e
  cause : cause = .unknownState (b.missing e)
  /-- The state where open ends meet is there if all early edges are tied. -/
  kept : σ.Tied a b (σ.early.length ≤ tied.length) tied added

namespace Tied

omit [LabelOver L I O]

variable {made : Bool} {tied : List (StateId × Arc StateId L r)} {e : StateId × Arc StateId L r}

lemma contains_iff (h : σ.Tied a b made tied added) (s : StateId) :
    b.contains s ↔ a.contains s ∨ made ∧ s = σ.place a.nextState := by
  rw [contains_eq, contains_eq, h.finality]
  by_cases hs : made ∧ s = σ.place a.nextState
  · simp [hs]
  · rw [if_neg hs, or_iff_left hs]

lemma contains_of_contains (h : σ.Tied a b made tied added) {s : StateId} (hs : a.contains s) :
    b.contains s := (h.contains_iff s).2 (Or.inl hs)

lemma joins_of_joins (h : σ.Tied a b made tied added) (he : a.joins e) : b.joins e := by
  obtain ⟨hsource, htarget⟩ := joins_iff.1 he
  exact joins_iff.2 ⟨h.contains_of_contains hsource, h.contains_of_contains htarget⟩

lemma contains_place (h : σ.Tied a b true tied added) : b.contains (σ.place a.nextState) :=
  (h.contains_iff _).2 (Or.inr ⟨rfl, rfl⟩)

lemma admitted (h : σ.Tied a b made tied added) (hadmitted : σ.Admitted a) : σ.Admitted b :=
  hadmitted.mono fun _ => h.contains_of_contains

end Tied

/-- The automaton once the early edges are tied and the state where open ends meet is there. -/
def midway (σ : Splice L r) (a : Automaton L r I O) : Automaton L r I O :=
  σ.marked (a.linkAll σ.early)

lemma admitted_linkAll (h : σ.Admitted a) (es : List (StateId × Arc StateId L r)) :
    σ.Admitted (a.linkAll es) :=
  h.mono fun s hs => (contains_linkAll a es s).trans hs

variable {done rest : List (StateId × Arc StateId L r)} {e : StateId × Arc StateId L r}

lemma tied_early (ha : Consistent a ts) (hdone : ∀ t ∈ done, a.joins t) :
    ∃ added, σ.Tied a (a.linkAll done) false done added := by
  obtain ⟨added, hadded, hedges⟩ := ha.linkAll hdone
  exact ⟨added, {
    grown := ha.grown hadded
    edges := hedges
    finality := fun s => by
      rw [finality?_linkAll, if_neg fun h => Bool.false_ne_true h.1]
    stateCount := by
      rw [stateCount_linkAll, if_neg fun h => Bool.false_ne_true h.1, Nat.add_zero]
    transitionCount := transitionCount_linkAll a done }⟩

lemma tied_late (ha : Consistent a ts) (h : σ.Admitted a) (hearly : ∀ t ∈ σ.early, a.joins t)
    (hdone : ∀ t ∈ done, (σ.midway a).joins t) :
    ∃ added, σ.Tied a ((σ.midway a).linkAll done) true (σ.early ++ done) added := by
  have hadmitted := admitted_linkAll h σ.early
  obtain ⟨first, hfirst, hfirstEdges⟩ := ha.linkAll hearly
  obtain ⟨second, hsecond, hsecondEdges⟩ := (consistent_marked hfirst hadmitted).linkAll hdone
  rw [List.append_assoc] at hsecond
  refine ⟨first ++ second, {
    grown := ha.grown hsecond
    edges := by rw [List.map_append, hfirstEdges, hsecondEdges]
    finality := fun s => ?_
    stateCount := ?_
    transitionCount := ?_ }⟩
  · rw [finality?_linkAll, midway, finality?_marked hfirst hadmitted, nextState_linkAll,
      finality?_linkAll]
    simp only [true_and]
  · rw [stateCount_linkAll, midway, stateCount_marked hadmitted, stateCount_linkAll]
    simp only [true_and]
  · rw [transitionCount_linkAll, midway, transitionCount_marked hadmitted, transitionCount_linkAll,
      List.length_append, Nat.add_assoc]

lemma plan_of_not_joins_early (hes : σ.early = done ++ e :: rest) (hdone : ∀ t ∈ done, a.joins t)
    (he : ¬ a.joins e) :
    σ.plan a = .error (.unknownState (a.missing e)) (a.linkAll done) :=
  Edit.bind_error (tieAll_of_not_joins hes hdone he) _

lemma plan_of_joins_early (h : σ.Admitted a) (hearly : ∀ t ∈ σ.early, a.joins t) :
    σ.plan a = (do
      tieAll (σ.late (σ.place a.nextState))
      return σ.gives (σ.place a.nextState)) (σ.midway a) := by
  have hmarking := (marking_eq (admitted_linkAll h σ.early)).1
  rw [nextState_linkAll] at hmarking
  unfold plan
  rw [Edit.bind_ok (tieAll_of_joins hearly), Edit.bind_ok hmarking]
  rfl

lemma stopsAt_early (ha : Consistent a ts) (hes : σ.early = done ++ e :: rest)
    (hdone : ∀ t ∈ done, a.joins t) (he : ¬ a.joins e) :
    ∃ added, σ.StopsAt a (a.linkAll done) (.unknownState (a.missing e)) done e added := by
  obtain ⟨added, htied⟩ := tied_early (σ := σ) ha hdone
  have hfew : ¬ σ.early.length ≤ done.length := by
    rw [hes, List.length_append, List.length_cons]
    omega
  refine ⟨added, {
    first := ⟨rest ++ σ.late (σ.place a.nextState), ?_⟩
    joins := fun t ht => htied.joins_of_joins (hdone t ht)
    stops := by rwa [joins_linkAll]
    cause := by rw [missing_linkAll]
    kept := by rwa [decide_eq_false hfew] }⟩
  rw [← early_append_late, hes, List.append_assoc, List.cons_append]

lemma stopsAt_late (ha : Consistent a ts) (h : σ.Admitted a) (hearly : ∀ t ∈ σ.early, a.joins t)
    (hes : σ.late (σ.place a.nextState) = done ++ e :: rest)
    (hdone : ∀ t ∈ done, (σ.midway a).joins t) (he : ¬ (σ.midway a).joins e) :
    ∃ added, σ.StopsAt a ((σ.midway a).linkAll done) (.unknownState ((σ.midway a).missing e))
      (σ.early ++ done) e added := by
  obtain ⟨added, htied⟩ := tied_late ha h hearly hdone
  have hmany : σ.early.length ≤ (σ.early ++ done).length := by
    rw [List.length_append]
    exact Nat.le_add_right _ _
  refine ⟨added, {
    first := ⟨rest, ?_⟩
    joins := fun t ht => ?_
    stops := by rwa [joins_linkAll]
    cause := by rw [missing_linkAll]
    kept := by rwa [decide_eq_true hmany] }⟩
  · rw [← early_append_late, hes, List.append_assoc]
  · rcases List.mem_append.1 ht with ht | ht
    · exact htied.joins_of_joins (hearly t ht)
    · exact (joins_linkAll _ _).trans (hdone t ht)

/-- **A splice ties its edges up to the first one that cannot be tied.** -/
lemma run_cases (ha : Consistent a ts) (h : σ.Admitted a) :
    (∃ b added, σ.run a = .ok (σ.gives (σ.place a.nextState)) b ∧
        (∀ t ∈ σ.ties (σ.place a.nextState), b.joins t) ∧
        σ.Tied a b true (σ.ties (σ.place a.nextState)) added) ∨
      ∃ cause b tied e added, σ.run a = .error cause b ∧ σ.StopsAt a b cause tied e added := by
  rw [run_eq h]
  rcases joins_or_first_not a σ.early with hearly | ⟨done, e, rest, hes, hdone, he⟩
  · rw [plan_of_joins_early h hearly]
    rcases joins_or_first_not (σ.midway a) (σ.late (σ.place a.nextState)) with
      hlate | ⟨done, e, rest, hes, hdone, he⟩
    · obtain ⟨added, htied⟩ := tied_late ha h hearly hlate
      rw [early_append_late] at htied
      refine .inl ⟨_, added, Edit.bind_ok (tieAll_of_joins hlate) _, fun t ht => ?_, htied⟩
      rw [← early_append_late] at ht
      -- an edge that joined before the state was made still joins
      rcases List.mem_append.1 ht with ht | ht
      · exact htied.joins_of_joins (hearly t ht)
      · exact (joins_linkAll _ _).trans (hlate t ht)
    · -- the first edge with a dead end, among those tied after the state was made
      obtain ⟨added, hstops⟩ := stopsAt_late ha h hearly hes hdone he
      have hfails := tieAll_of_not_joins hes hdone he
      exact .inr ⟨_, _, _, e, added, Edit.bind_error hfails _, hstops⟩
  · obtain ⟨added, hstops⟩ := stopsAt_early ha hes hdone he
    exact .inr ⟨_, _, _, e, added, plan_of_not_joins_early hes hdone he, hstops⟩

lemma run_attach_of_not_contains {f : Fragment L r} {start : StateId} (h : ¬ a.contains start) :
    (attach f start).run a = .error (.unknownState start) a := by
  have hfails : f.attach start a = .error (.unknownState start) a := by
    unfold Fragment.attach
    rw [Edit.get_bind, if_pos (by simpa using h)]
    rfl
  simp only [run, Functor.map, EStateM.map, hfails]

lemma admitted_of_ok {out : Fragment L r ⊕ StateId} (h : σ.run a = .ok out b) : σ.Admitted a := by
  rintro f start rfl
  by_contra hstart
  rw [run_attach_of_not_contains hstart] at h
  cases h

end Splice

end WeightedAutomata
