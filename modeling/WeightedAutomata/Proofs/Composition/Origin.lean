import WeightedAutomata.Composition.Basic
import WeightedAutomata.Proofs.Automaton.Agreement
import WeightedAutomata.Proofs.Path

/-!
Where the moves of a composition come from.

A move does not say which transitions took part in it, and two moves from parallel transitions may
look the same. An origin names the transitions; the origins of a composed state stand in the order
of its moves, and none of them occurs twice.
-/

namespace WeightedAutomata

lemma FilterState.isValid_of_allows {f : FilterState} {m : Move} (h : f.allows m) : f.isValid := by
  cases f with
  | invalid => exact h
  | moveBoth | moveOuter | moveInner => rfl

namespace Symbol

variable {α : Type} {k : Symbol α}

lemma isEpsilon_iff : k.isEpsilon = true ↔ k = .epsilon := by
  cases k <;> simp [isEpsilon]

lemma value?_eq_none_iff : k.value? = none ↔ k = .epsilon := by
  cases k <;> simp [value?]

lemma value?_injective : Function.Injective (value? : Symbol α → Option α) := by
  intro k l h
  cases k <;> cases l <;> simp_all [value?]

end Symbol

namespace Composition

variable {A B I M O : Type} {r : Range} [LabelOver A I M] [LabelOver B M O]
  [Alphabet I] [Alphabet M] [Alphabet O]

/-- The transitions that take part in a move. -/
inductive Origin (A B : Type) (r : Range) where
  | outer (x : Transition A r)
  | inner (y : Transition B r)
  | joint (x : Transition A r) (y : Transition B r)

/-- Both sides match on a concrete symbol, or advance together without one. -/
def jointKind (x : Transition A r) : Move :=
  if (Label.output x.label).isEpsilon then .epsilons else .both

namespace Origin

def outer? : Origin A B r → Option (Transition A r)
  | outer x => some x
  | inner _ => none
  | joint x _ => some x

def inner? : Origin A B r → Option (Transition B r)
  | outer _ => none
  | inner y => some y
  | joint _ y => some y

/-- The move out of a composed state. -/
def move (s : ComposedState) : Origin A B r → ComposedMove r I O
  | outer x => outerMove s x
  | inner y => innerMove s y
  | joint x y => jointMove s (jointKind x) x y

end Origin

variable (c : Composition A B r) (s : ComposedState)

/-! ### The list of origins -/

def outerOrigins (x : Transition A r) : List (Origin A B r) :=
  if (Label.output x.label).isEpsilon && s.filter.allows .outer then [.outer x] else []

def jointOrigins (x : Transition A r) : List (Origin A B r) :=
  if s.filter.allows (jointKind x) then
    (c.inner.transitionsReading s.inner (Label.output x.label)).toList.map (.joint x)
  else []

def innerOrigins : List (Origin A B r) :=
  if s.filter.allows .inner then
    (c.inner.transitionsReading s.inner .epsilon).toList.map .inner
  else []

def origins : List (Origin A B r) :=
  if s.filter.isValid then
    ((c.outer.transitionsFrom s.outer).toList.flatMap fun x =>
      outerOrigins s x ++ c.jointOrigins s x) ++ c.innerOrigins s
  else []

lemma toList_jointMoves (x : Transition A r) :
    (c.jointMoves s (jointKind x) x).toList = (c.jointOrigins s x).map (·.move s) := by
  unfold jointMoves jointOrigins
  split
  · rw [LazyList.toList_map, List.map_map]
    rfl
  · rfl

lemma toList_movesWith (x : Transition A r) :
    (c.movesWith s x).toList = (outerOrigins s x ++ c.jointOrigins s x).map (Origin.move s) := by
  have hjoint := c.toList_jointMoves s x
  rw [List.map_append, ← hjoint]
  unfold movesWith outerOrigins jointKind
  -- a move with no output may go alone, one with an output may not
  by_cases hx : (Label.output x.label).isEpsilon
  · by_cases hallowed : s.filter.allows .outer
    · simp [hx, hallowed, Origin.move]
    · simp [hx, hallowed]
  · simp [hx]

lemma toList_innerMoves : (c.innerMoves s).toList = (c.innerOrigins s).map (·.move s) := by
  unfold innerMoves innerOrigins
  split
  · rw [LazyList.toList_map, List.map_map]
    rfl
  · rfl

lemma toList_moves : (c.moves s).toList = (c.origins s).map (·.move s) := by
  unfold moves origins
  split
  · rw [LazyList.toList_append, LazyList.toList_flatMap, List.map_append, List.map_flatMap,
      toList_innerMoves]
    simp only [toList_movesWith]
  · rfl

/-! ### What the origins are -/

variable {c s}

omit [Alphabet I] [Alphabet M] in
lemma mem_outerOrigins {o : Origin A B r} {x : Transition A r} : o ∈ outerOrigins s x ↔
    o = .outer x ∧ Label.output x.label = .epsilon ∧ s.filter.allows .outer := by
  unfold outerOrigins
  rw [← Symbol.isEpsilon_iff]
  split <;> simp_all

lemma mem_jointOrigins {o : Origin A B r} {x : Transition A r} : o ∈ c.jointOrigins s x ↔
    ∃ y ∈ (c.inner.transitionsReading s.inner (Label.output x.label)).toList,
      o = .joint x y ∧ s.filter.allows (jointKind x) := by
  unfold jointOrigins
  split
  · next hallowed => simp [hallowed, eq_comm]
  · next hbarred => simp [hbarred]

lemma mem_innerOrigins {o : Origin A B r} : o ∈ c.innerOrigins s ↔
    ∃ y ∈ (c.inner.transitionsReading s.inner .epsilon).toList,
      o = .inner y ∧ s.filter.allows .inner := by
  unfold innerOrigins
  split
  · next hallowed => simp [hallowed, eq_comm]
  · next hbarred => simp [hbarred]

lemma outer?_eq {o : Origin A B r} {x : Transition A r}
    (ho : o ∈ outerOrigins s x ++ c.jointOrigins s x) : o.outer? = some x := by
  rw [List.mem_append, mem_outerOrigins, mem_jointOrigins] at ho
  obtain ⟨rfl, -⟩ | ⟨y, -, rfl, -⟩ := ho <;> rfl

/-- The transitions can move together out of a composed state. -/
def Possible (c : Composition A B r) (s : ComposedState) : Origin A B r → Prop
  | .outer x => x ∈ (c.outer.transitionsFrom s.outer).toList ∧
      Label.output x.label = .epsilon ∧ s.filter.allows .outer
  | .inner y => y ∈ (c.inner.transitionsReading s.inner .epsilon).toList ∧
      s.filter.allows .inner
  | .joint x y => x ∈ (c.outer.transitionsFrom s.outer).toList ∧
      y ∈ (c.inner.transitionsReading s.inner (Label.output x.label)).toList ∧
      s.filter.allows (jointKind x)

lemma mem_origins {o : Origin A B r} : o ∈ c.origins s ↔ c.Possible s o := by
  have hvalid : c.Possible s o → s.filter.isValid := by
    intro h
    cases o with
    | outer x => exact FilterState.isValid_of_allows h.2.2
    | inner y => exact FilterState.isValid_of_allows h.2
    | joint x y => exact FilterState.isValid_of_allows h.2.2
  unfold origins
  split
  · rw [List.mem_append, List.mem_flatMap, mem_innerOrigins]
    simp only [List.mem_append, mem_outerOrigins, mem_jointOrigins]
    cases o with
    | outer x => simp [Possible]
    | inner y => simp [Possible]
    | joint x y => simp [Possible]
  · next hinvalid => exact ⟨fun h => by simp at h, fun h => absurd (hvalid h) hinvalid⟩

lemma nodup_origins (houter : (c.outer.transitionsFrom s.outer).toList.Nodup)
    (hinner : ∀ k, (c.inner.transitionsReading s.inner k).toList.Nodup) :
    (c.origins s).Nodup := by
  have hwith : ∀ x, (outerOrigins s x ++ c.jointOrigins s x).Nodup := by
    intro x
    refine List.Nodup.append ?_ ?_ ?_
    · unfold outerOrigins
      split <;> simp
    · unfold jointOrigins
      split
      · exact (hinner _).map fun y y' h => (Origin.joint.inj h).2
      · exact List.nodup_nil
    · intro o ho ho'
      rw [mem_outerOrigins] at ho
      obtain ⟨y, -, rfl, -⟩ := mem_jointOrigins.1 ho'
      cases ho.1
  unfold origins
  split
  · refine List.Nodup.append ?_ ?_ ?_
    · refine List.nodup_flatMap.2 ⟨fun x _ => hwith x, houter.imp fun {x x'} hne => ?_⟩
      intro o ho ho'
      exact hne (Option.some.inj ((outer?_eq ho).symm.trans (outer?_eq ho')))
    · unfold innerOrigins
      split
      · exact (hinner _).map fun y y' h => Origin.inner.inj h
      · exact List.nodup_nil
    · intro o ho ho'
      obtain ⟨y, -, rfl, -⟩ := mem_innerOrigins.1 ho'
      obtain ⟨x, -, ho⟩ := List.mem_flatMap.1 ho
      cases outer?_eq ho
  · exact List.nodup_nil

lemma nodup_origins_of_consistent {ts : List (Transition A r)} {us : List (Transition B r)}
    (houter : c.outer.Consistent ts) (hinner : c.inner.Consistent us) : (c.origins s).Nodup := by
  refine nodup_origins (houter.nodup_transitionsFrom _) fun k => ?_
  rw [hinner.toList_transitionsReading]
  exact (hinner.nodup_transitionsFrom _).filter _

end Composition

end WeightedAutomata
