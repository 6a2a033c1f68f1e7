import WeightedAutomata.Proofs.Composition.Origin
import WeightedAutomata.Proofs.Probability

/-!
The composed paths are the matching pairs of paths.

Two matching paths are woven into one composed path: where one writes nothing and the other reads
nothing both move, and only what is left of the longer such run is moved alone. The filter admits
this order and no other, so every matching pair of paths is composed once.
-/

namespace WeightedAutomata.Composition

variable {A B I M O : Type} {r : Range} [LabelOver A I M] [LabelOver B M O]

/-! ### Composed paths -/

def movesAlong : ComposedState → List (Origin A B r) → List (ComposedMove r I O)
  | _, [] => []
  | s, o :: π => o.move s :: movesAlong (o.move s).target π

def outerPath (π : List (Origin A B r)) : List (Transition A r) := π.filterMap Origin.outer?

def innerPath (π : List (Origin A B r)) : List (Transition B r) := π.filterMap Origin.inner?

/-! ### Words and weights along a composed path -/

def inputs (ms : List (ComposedMove r I O)) : List I :=
  ms.filterMap fun m => m.label.input.value?

def outputs (ms : List (ComposedMove r I O)) : List O :=
  ms.filterMap fun m => m.label.output.value?

def product (ms : List (ComposedMove r I O)) : Weight r := Weight.product (ms.map (·.weight))

section Words

variable (s : ComposedState) (π : List (Origin A B r))

lemma inputs_movesAlong : inputs (movesAlong s π) = Transition.inputs (outerPath π) := by
  induction π generalizing s with
  | nil => rfl
  | cons o π ih =>
    have hrest := ih (o.move s).target
    unfold inputs Transition.inputs outerPath at hrest ⊢
    rw [movesAlong, List.filterMap_cons, hrest]
    cases o with
    | outer x | joint x y =>
      change _ = List.filterMap _ (x :: _)
      rw [List.filterMap_cons]
      rfl
    | inner y => rfl

lemma outputs_movesAlong : outputs (movesAlong s π) = Transition.outputs (innerPath π) := by
  induction π generalizing s with
  | nil => rfl
  | cons o π ih =>
    have hrest := ih (o.move s).target
    unfold outputs Transition.outputs innerPath at hrest ⊢
    rw [movesAlong, List.filterMap_cons, hrest]
    cases o with
    | inner y | joint x y =>
      change _ = List.filterMap _ (y :: _)
      rw [List.filterMap_cons]
      rfl
    | outer x => rfl

lemma product_movesAlong (s : ComposedState) (π : List (Origin A B .probability)) :
    product (movesAlong s π) =
      Transition.product (outerPath π) * Transition.product (innerPath π) := by
  unfold product Transition.product
  simp only [Weight.product_eq_prod]
  induction π generalizing s with
  | nil => exact (one_mul _).symm
  | cons o π ih =>
    rw [movesAlong, List.map_cons, List.prod_cons, ih]
    cases o with
    | outer x =>
      change x.weight * _ = (x.weight * _) * _
      exact (mul_assoc ..).symm
    | inner y =>
      change y.weight * _ = _ * (y.weight * _)
      exact mul_left_comm ..
    | joint x y =>
      change x.weight * y.weight * _ = (x.weight * _) * (y.weight * _)
      exact mul_mul_mul_comm ..

end Words

/-! ### What the filter admits -/

variable {x : Transition A r} {y : Transition B r} {p : List (Transition A r)}
  {q : List (Transition B r)}

/-- The first transition, if there is one, writes a concrete symbol. -/
def WritesFirst (p : List (Transition A r)) : Prop :=
  ∀ x ∈ p.head?, Label.output x.label ≠ .epsilon

/-- The first transition, if there is one, reads a concrete symbol. -/
def ReadsFirst (q : List (Transition B r)) : Prop :=
  ∀ y ∈ q.head?, Label.input y.label ≠ .epsilon

/-- The two paths may still be woven: who has moved alone goes on alone until both match. -/
def Admits : FilterState → List (Transition A r) → List (Transition B r) → Prop
  | .moveBoth, _, _ => True
  | .moveOuter, _, q => ReadsFirst q
  | .moveInner, p, _ => WritesFirst p
  | .invalid, _, _ => False

variable {f : FilterState}

/-- The outer side may move alone where a path that writes nothing first may be woven with one
that reads something first. -/
lemma admits_outer (hx : Label.output x.label = .epsilon) :
    Admits f (x :: p) q ∧ ReadsFirst q ↔ f.allows .outer ∧ Admits (f.step .outer) p q := by
  have hfirst : ¬ WritesFirst (x :: p) := fun h => h x rfl hx
  cases f <;> simp [Admits, FilterState.allows, FilterState.step, FilterState.isValid, hfirst]

lemma admits_inner (hy : Label.input y.label = .epsilon) :
    Admits f p (y :: q) ∧ WritesFirst p ↔ f.allows .inner ∧ Admits (f.step .inner) p q := by
  have hfirst : ¬ ReadsFirst (y :: q) := fun h => h y rfl hy
  cases f <;> simp [Admits, FilterState.allows, FilterState.step, FilterState.isValid, hfirst]

/-- Both sides may always match; they may move together without a symbol only as long as neither
has moved alone. -/
lemma admits_joint (h : Label.input y.label = Label.output x.label) :
    Admits f (x :: p) (y :: q) ↔ f.allows (jointKind x) ∧ Admits (f.step (jointKind x)) p q := by
  unfold jointKind
  -- a joint move with no output needs both sides at a silent transition
  by_cases hx : Label.output x.label = .epsilon
  · have hwrites : ¬ WritesFirst (x :: p) := fun h => h x rfl hx
    have hreads : ¬ ReadsFirst (y :: q) := fun h' => h' y rfl (h.trans hx)
    rw [if_pos (Symbol.isEpsilon_iff.2 hx)]
    cases f <;> simp [Admits, FilterState.allows, FilterState.step, FilterState.isValid, hwrites,
      hreads]
  · have hwrites : WritesFirst (x :: p) := by
      rintro x' ⟨⟩
      exact hx
    have hreads : ReadsFirst (y :: q) := by
      rintro y' ⟨⟩
      exact h ▸ hx
    rw [if_neg (mt Symbol.isEpsilon_iff.1 hx)]
    cases f <;> simp [Admits, FilterState.allows, FilterState.step, FilterState.isValid, hwrites,
      hreads]

lemma admits_nil (hf : f.isValid) :
    Admits f ([] : List (Transition A r)) ([] : List (Transition B r)) := by
  cases f with
  | moveBoth => trivial
  | moveOuter | moveInner => simp [Admits, ReadsFirst, WritesFirst]
  | invalid => cases hf

/-! ### Words of paths that can be woven -/

lemma outputs_cons_of_epsilon (hx : Label.output x.label = .epsilon) :
    Transition.outputs (x :: p) = Transition.outputs p :=
  List.filterMap_cons_none (Symbol.value?_eq_none_iff.2 hx)

lemma inputs_cons_of_epsilon (hy : Label.input y.label = .epsilon) :
    Transition.inputs (y :: q) = Transition.inputs q :=
  List.filterMap_cons_none (Symbol.value?_eq_none_iff.2 hy)

lemma outputs_cons_eq_inputs_cons (h : Label.input y.label = Label.output x.label) :
    Transition.outputs (x :: p) = Transition.inputs (y :: q) ↔
      Transition.outputs p = Transition.inputs q := by
  unfold Transition.outputs Transition.inputs
  rw [List.filterMap_cons, List.filterMap_cons, h]
  cases (Label.output x.label).value? with
  | none => rfl
  | some k => exact ⟨fun h => (List.cons.inj h).2, congrArg (k :: ·)⟩

lemma output_eq_epsilon (h : Transition.outputs (x :: p) = []) :
    Label.output x.label = .epsilon :=
  Symbol.value?_eq_none_iff.1 (List.filterMap_eq_nil_iff.1 h x List.mem_cons_self)

lemma input_eq_epsilon (h : Transition.inputs (y :: q) = []) : Label.input y.label = .epsilon :=
  Symbol.value?_eq_none_iff.1 (List.filterMap_eq_nil_iff.1 h y List.mem_cons_self)

/-- Paths with the same word that both begin with a concrete symbol begin with the same. -/
lemma input_eq_output (hx : Label.output x.label ≠ .epsilon) (hy : Label.input y.label ≠ .epsilon)
    (h : Transition.outputs (x :: p) = Transition.inputs (y :: q)) :
    Label.input y.label = Label.output x.label := by
  obtain ⟨k, hk⟩ := Option.ne_none_iff_exists'.1 (mt Symbol.value?_eq_none_iff.1 hx)
  obtain ⟨l, hl⟩ := Option.ne_none_iff_exists'.1 (mt Symbol.value?_eq_none_iff.1 hy)
  unfold Transition.outputs Transition.inputs at h
  rw [List.filterMap_cons, List.filterMap_cons, hk, hl] at h
  refine Symbol.value?_injective ?_
  rw [hk, hl, (List.cons.inj h).1]

/-! ### Weaving two paths -/

variable [Alphabet M]

/-- Two paths as one: together where both or neither touch the intermediate word, else the one
that does not touch it alone. -/
def weave : List (Transition A r) → List (Transition B r) → List (Origin A B r)
  | [], [] => []
  | x :: p, [] => .outer x :: weave p []
  | [], y :: q => .inner y :: weave [] q
  | x :: p, y :: q =>
    if Label.output x.label = .epsilon then
      if Label.input y.label = .epsilon then .joint x y :: weave p q
      else .outer x :: weave p (y :: q)
    else if Label.input y.label = .epsilon then .inner y :: weave (x :: p) q
    else .joint x y :: weave p q

lemma outerPath_weave (p : List (Transition A r)) (q : List (Transition B r)) :
    outerPath (weave p q) = p := by
  fun_induction weave p q with
  | case1 => rfl
  | case2 x p ih => exact congrArg (x :: ·) ih
  | case3 y q ih => exact ih
  | case4 x p y q hx hy ih => exact congrArg (x :: ·) ih
  | case5 x p y q hx hy ih => exact congrArg (x :: ·) ih
  | case6 x p y q hx hy ih => exact ih
  | case7 x p y q hx hy ih => exact congrArg (x :: ·) ih

lemma innerPath_weave (p : List (Transition A r)) (q : List (Transition B r)) :
    innerPath (weave p q) = q := by
  fun_induction weave p q with
  | case1 => rfl
  | case2 x p ih => exact ih
  | case3 y q ih => exact congrArg (y :: ·) ih
  | case4 x p y q hx hy ih => exact congrArg (y :: ·) ih
  | case5 x p y q hx hy ih => exact ih
  | case6 x p y q hx hy ih => exact congrArg (y :: ·) ih
  | case7 x p y q hx hy ih => exact congrArg (y :: ·) ih

lemma weave_outer (hx : Label.output x.label = .epsilon) (hq : ReadsFirst q) :
    weave (x :: p) q = .outer x :: weave p q := by
  cases q with
  | nil => rw [weave]
  | cons y q =>
    have hy : Label.input y.label ≠ .epsilon := hq y rfl
    rw [weave, if_pos hx, if_neg hy]

lemma weave_inner (hp : WritesFirst p) (hy : Label.input y.label = .epsilon) :
    weave p (y :: q) = .inner y :: weave p q := by
  cases p with
  | nil => rw [weave]
  | cons x p =>
    have hx : Label.output x.label ≠ .epsilon := hp x rfl
    rw [weave, if_neg hx, if_pos hy]

lemma weave_joint (h : Label.input y.label = Label.output x.label) :
    weave (x :: p) (y :: q) = .joint x y :: weave p q := by
  rw [weave, h]
  split <;> rfl

/-! ### Matching pairs and composed paths -/

variable [Alphabet I] [Alphabet O]

/-- The origins lead from one composed state to another. -/
def Follows (c : Composition A B r) :
    ComposedState → List (Origin A B r) → ComposedState → Prop
  | s, [], u => s = u
  | s, o :: π, u => o ∈ c.origins s ∧ c.Follows (o.move s).target π u

/-- The origins lead from the start to a final state. -/
def Accepts (c : Composition A B r) (π : List (Origin A B r)) : Prop :=
  ∃ u, c.Follows c.start π u ∧ c.isFinal u

variable {c : Composition A B r} {s : ComposedState} {o i : StateId}
  {us : List (Transition B r)}

/-- Two paths out of the sides of a composed state that write and read the same word and may be
woven. -/
structure Matching (c : Composition A B r) (s : ComposedState) (p : List (Transition A r))
    (q : List (Transition B r)) (o i : StateId) : Prop where
  outer : c.outer.Leads s.outer p o
  inner : c.inner.Leads s.inner q i
  word : Transition.outputs p = Transition.inputs q
  admits : Admits s.filter p q

lemma mem_transitionsReading (hinner : c.inner.Consistent us) {k : Symbol M} :
    y ∈ (c.inner.transitionsReading s.inner k).toList ↔
      y ∈ (c.inner.transitionsFrom s.inner).toList ∧ Label.input y.label = k := by
  rw [hinner.toList_transitionsReading, List.mem_filter, decide_eq_true_eq]

lemma matching_outer : Matching c s (x :: p) q o i ∧ Label.output x.label = .epsilon ∧
      ReadsFirst q ↔
    .outer x ∈ c.origins s ∧ Matching c (outerMove (O := O) s x).target p q o i := by
  rw [mem_origins]
  constructor
  · rintro ⟨h, hx, hq⟩
    obtain ⟨hallowed, hadmits⟩ := (admits_outer hx).1 ⟨h.admits, hq⟩
    have hword := h.word
    rw [outputs_cons_of_epsilon hx] at hword
    exact ⟨⟨h.outer.1, hx, hallowed⟩, h.outer.2, h.inner, hword, hadmits⟩
  · rintro ⟨⟨hmem, hx, hallowed⟩, h⟩
    obtain ⟨hadmits, hq⟩ := (admits_outer hx).2 ⟨hallowed, h.admits⟩
    have hword := h.word
    rw [← outputs_cons_of_epsilon hx] at hword
    exact ⟨⟨⟨hmem, h.outer⟩, h.inner, hword, hadmits⟩, hx, hq⟩

lemma matching_inner (hinner : c.inner.Consistent us) :
    Matching c s p (y :: q) o i ∧ Label.input y.label = .epsilon ∧ WritesFirst p ↔
      .inner y ∈ c.origins s ∧ Matching c (innerMove (I := I) s y).target p q o i := by
  rw [mem_origins]
  constructor
  · rintro ⟨h, hy, hp⟩
    obtain ⟨hallowed, hadmits⟩ := (admits_inner hy).1 ⟨h.admits, hp⟩
    have hword := h.word
    rw [inputs_cons_of_epsilon hy] at hword
    exact ⟨⟨(mem_transitionsReading hinner).2 ⟨h.inner.1, hy⟩, hallowed⟩, h.outer, h.inner.2, hword,
      hadmits⟩
  · rintro ⟨⟨hmem, hallowed⟩, h⟩
    obtain ⟨hmem, hy⟩ := (mem_transitionsReading hinner).1 hmem
    obtain ⟨hadmits, hp⟩ := (admits_inner hy).2 ⟨hallowed, h.admits⟩
    have hword := h.word
    rw [← inputs_cons_of_epsilon hy] at hword
    exact ⟨⟨h.outer, ⟨hmem, h.inner⟩, hword, hadmits⟩, hy, hp⟩

lemma matching_joint (hinner : c.inner.Consistent us) :
    Matching c s (x :: p) (y :: q) o i ∧ Label.input y.label = Label.output x.label ↔
      .joint x y ∈ c.origins s ∧ Matching c (jointMove s (jointKind x) x y).target p q o i := by
  rw [mem_origins]
  constructor
  · rintro ⟨h, hxy⟩
    obtain ⟨hallowed, hadmits⟩ := (admits_joint hxy).1 h.admits
    exact ⟨⟨h.outer.1, (mem_transitionsReading hinner).2 ⟨h.inner.1, hxy⟩, hallowed⟩, h.outer.2,
      h.inner.2, (outputs_cons_eq_inputs_cons hxy).1 h.word, hadmits⟩
  · rintro ⟨⟨hx, hy, hallowed⟩, h⟩
    obtain ⟨hy, hxy⟩ := (mem_transitionsReading hinner).1 hy
    exact ⟨⟨⟨hx, h.outer⟩, ⟨hy, h.inner⟩, (outputs_cons_eq_inputs_cons hxy).2 h.word,
      (admits_joint hxy).2 ⟨hallowed, h.admits⟩⟩, hxy⟩

lemma matching_of_follows (hinner : c.inner.Consistent us) {π : List (Origin A B r)}
    {u : ComposedState} (hs : s.filter.isValid) (h : c.Follows s π u) :
    Matching c s (outerPath π) (innerPath π) u.outer u.inner ∧
      weave (outerPath π) (innerPath π) = π := by
  -- the path is rebuilt from its sides: the filter leaves one order for the silent moves
  induction π generalizing s with
  | nil =>
    obtain rfl := h
    exact ⟨⟨rfl, rfl, rfl, admits_nil hs⟩, weave.eq_1⟩
  | cons o π ih =>
    obtain ⟨ho, h⟩ := h
    have hpossible := mem_origins.1 ho
    cases o with
    | outer x =>
      obtain ⟨hm, hw⟩ := ih (s := (outerMove (O := O) s x).target) hpossible.2.2 h
      obtain ⟨hm, hx, hq⟩ := matching_outer.2 ⟨ho, hm⟩
      exact ⟨hm, (weave_outer hx hq).trans (congrArg _ hw)⟩
    | inner y =>
      obtain ⟨hm, hw⟩ := ih (s := (innerMove (I := I) s y).target) hpossible.2 h
      obtain ⟨hm, hy, hp⟩ := (matching_inner hinner).2 ⟨ho, hm⟩
      exact ⟨hm, (weave_inner hp hy).trans (congrArg _ hw)⟩
    | joint x y =>
      obtain ⟨hm, hw⟩ := ih (s := (jointMove s (jointKind x) x y).target) hpossible.2.2 h
      obtain ⟨hm, hxy⟩ := (matching_joint hinner).2 ⟨ho, hm⟩
      exact ⟨hm, (weave_joint hxy).trans (congrArg _ hw)⟩

lemma follows_weave (hinner : c.inner.Consistent us) (h : Matching c s p q o i) :
    ∃ f, c.Follows s (weave p q) ⟨o, i, f⟩ := by
  fun_induction weave p q generalizing s with
  | case1 =>
    refine ⟨s.filter, ?_⟩
    obtain rfl := h.outer
    obtain rfl := h.inner
    rfl
  -- only the outer side has moves left, and they are silent
  | case2 x p ih =>
    have hx : Label.output x.label = .epsilon := output_eq_epsilon h.word
    obtain ⟨ho, h⟩ := matching_outer.1 ⟨h, hx, fun y hy => by cases hy⟩
    obtain ⟨f, hf⟩ := ih h
    exact ⟨f, ho, hf⟩
  | case3 y q ih =>
    have hy : Label.input y.label = .epsilon := input_eq_epsilon h.word.symm
    obtain ⟨ho, h⟩ := (matching_inner hinner).1 ⟨h, hy, fun x hx => by cases hx⟩
    obtain ⟨f, hf⟩ := ih h
    exact ⟨f, ho, hf⟩
  -- both sides are silent: they go together
  | case4 x p y q hx hy ih =>
    obtain ⟨ho, h⟩ := (matching_joint hinner).1 ⟨h, hy.trans hx.symm⟩
    obtain ⟨f, hf⟩ := ih h
    exact ⟨f, ho, hf⟩
  -- the outer side is silent and the inner one is not
  | case5 x p y q hx hy ih =>
    obtain ⟨ho, h⟩ := matching_outer.1 ⟨h, hx, by rintro y' ⟨⟩; exact hy⟩
    obtain ⟨f, hf⟩ := ih h
    exact ⟨f, ho, hf⟩
  | case6 x p y q hx hy ih =>
    obtain ⟨ho, h⟩ := (matching_inner hinner).1 ⟨h, hy, by rintro x' ⟨⟩; exact hx⟩
    obtain ⟨f, hf⟩ := ih h
    exact ⟨f, ho, hf⟩
  -- neither is silent, so the words begin with the same letter
  | case7 x p y q hx hy ih =>
    have hxy := input_eq_output hx hy h.word
    obtain ⟨ho, h⟩ := (matching_joint hinner).1 ⟨h, hxy⟩
    obtain ⟨f, hf⟩ := ih h
    exact ⟨f, ho, hf⟩

/-! ### Composition of reachable automata -/

lemma bijOn_paths {c : Composition A B r} (hinner : c.inner.Consistent us) :
    Set.BijOn (fun π => (outerPath π, innerPath π)) {π | c.Accepts π}
      {pq | c.outer.Accepts pq.1 ∧ c.inner.Accepts pq.2 ∧
        Transition.outputs pq.1 = Transition.inputs pq.2} := by
  refine ⟨?_, ?_, ?_⟩
  · rintro π ⟨u, hπ, hu⟩
    obtain ⟨h, -⟩ := matching_of_follows hinner rfl hπ
    rw [isFinal, Bool.and_eq_true] at hu
    exact ⟨⟨u.outer, h.outer, hu.1⟩, ⟨u.inner, h.inner, hu.2⟩, h.word⟩
  · -- a path is told from its sides, of which it is the weave
    rintro π ⟨u, hπ, -⟩ π' ⟨u', hπ', -⟩ heq
    obtain ⟨-, hw⟩ := matching_of_follows hinner rfl hπ
    obtain ⟨-, hw'⟩ := matching_of_follows hinner rfl hπ'
    obtain ⟨hp, hq⟩ := Prod.mk.inj heq
    rw [← hw, ← hw', hp, hq]
  · rintro ⟨p, q⟩ ⟨⟨o, hp, ho⟩, ⟨i, hq, hi⟩, hword⟩
    have hmatching : Matching c c.start p q o i := ⟨hp, hq, hword, trivial⟩
    obtain ⟨f, hf⟩ := follows_weave hinner hmatching
    refine ⟨weave p q, ⟨⟨o, i, f⟩, hf, ?_⟩, ?_⟩
    · rw [isFinal, Bool.and_eq_true]
      exact ⟨ho, hi⟩
    · exact Prod.ext (outerPath_weave p q) (innerPath_weave p q)

/-- **Composition pairs every matching pair of paths exactly once**, whatever operations the two
automata come from. -/
theorem pairs_paths_once (ops : List (Operation A r)) (ops' : List (Operation B r)) :
    let c : Composition A B r := ⟨.reach ops, .reach ops'⟩
    (∀ s, (c.moves s).toList = (c.origins s).map (·.move s) ∧ (c.origins s).Nodup) ∧
      Set.BijOn (fun π => (outerPath π, innerPath π)) {π | c.Accepts π}
        {pq | c.outer.Accepts pq.1 ∧ c.inner.Accepts pq.2 ∧
          Transition.outputs pq.1 = Transition.inputs pq.2} ∧
      ∀ π, c.Accepts π →
        inputs (movesAlong c.start π) = Transition.inputs (outerPath π) ∧
        outputs (movesAlong c.start π) = Transition.outputs (innerPath π) ∧
        (r = .probability → product (movesAlong c.start π) =
          Transition.product (outerPath π) * Transition.product (innerPath π)) := by
  intro c
  obtain ⟨ts, houter⟩ := Automaton.consistent_reach ops
  obtain ⟨us, hinner⟩ := Automaton.consistent_reach ops'
  refine ⟨fun s => ⟨c.toList_moves s, nodup_origins_of_consistent houter hinner⟩,
    bijOn_paths (c := c) hinner, fun π _ => ?_⟩
  refine ⟨inputs_movesAlong c.start π, outputs_movesAlong c.start π, ?_⟩
  rintro rfl
  exact product_movesAlong c.start π

def oneArc (l : Pair) : List (Operation Pair .probability) :=
  [.call (.addState true), .call (.addTransition ⟨0, 0⟩ ⟨1, 0⟩ l 1)]

lemma accepts_oneArc (l : Pair) :
    (Automaton.reach (oneArc l)).Accepts [⟨⟨0, 0⟩, ⟨0, 0⟩, ⟨1, 0⟩, l, 1⟩] := by
  have hfrom : ((Automaton.reach (oneArc l)).transitionsFrom ⟨0, 0⟩).toList =
      [⟨⟨0, 0⟩, ⟨0, 0⟩, ⟨1, 0⟩, l, 1⟩] := by
    cbv
  exact ⟨⟨1, 0⟩, ⟨hfrom ▸ List.mem_cons_self, rfl⟩, rfl⟩

theorem pairs_paths_once_of_silent :
    let c : Composition Pair Pair .probability :=
      ⟨.reach (oneArc ⟨.concrete "a", .epsilon⟩), .reach (oneArc ⟨.epsilon, .concrete "b"⟩)⟩
    let p : List (Transition Pair .probability) :=
      [⟨⟨0, 0⟩, ⟨0, 0⟩, ⟨1, 0⟩, ⟨.concrete "a", .epsilon⟩, 1⟩]
    let q : List (Transition Pair .probability) :=
      [⟨⟨0, 0⟩, ⟨0, 0⟩, ⟨1, 0⟩, ⟨.epsilon, .concrete "b"⟩, 1⟩]
    ∃ π, c.Accepts π ∧ outerPath π = p ∧ innerPath π = q ∧
      (∀ π', c.Accepts π' → outerPath π' = p → innerPath π' = q → π' = π) ∧
      inputs (movesAlong c.start π) = ["a"] ∧ outputs (movesAlong c.start π) = ["b"] ∧
      product (movesAlong c.start π) = Transition.product p * Transition.product q := by
  intro c p q
  obtain ⟨-, hpaths, hwords⟩ := pairs_paths_once (oneArc ⟨.concrete "a", .epsilon⟩)
    (oneArc ⟨.epsilon, .concrete "b"⟩)
  have hp : c.outer.Accepts p := accepts_oneArc _
  have hq : c.inner.Accepts q := accepts_oneArc _
  obtain ⟨π, hπ, hsides⟩ := hpaths.surjOn (show (p, q) ∈ _ from ⟨hp, hq, rfl⟩)
  obtain ⟨hin, hout, hproduct⟩ := hwords π hπ
  obtain ⟨hp, hq⟩ := Prod.mk.inj hsides
  have hproduct := hproduct rfl
  rw [hp] at hin hproduct
  rw [hq] at hout hproduct
  refine ⟨π, hπ, hp, hq, fun π' hπ' hp' hq' => ?_, hin, hout, hproduct⟩
  exact hpaths.injOn hπ' hπ (Prod.ext (hp'.trans hp.symm) (hq'.trans hq.symm))

end WeightedAutomata.Composition
