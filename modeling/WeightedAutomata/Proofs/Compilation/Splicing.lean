import WeightedAutomata.Proofs.Automaton.Growth
import WeightedAutomata.Proofs.Compilation.Assembly
import WeightedAutomata.Proofs.Compilation.Copying

/-!
Expressions compiled into an automaton that is already there.

Compiling an expression makes the same edits wherever it is compiled to: what it looks up are states
it has added itself and the state it starts from. So inside another automaton it makes a copy of
what it makes alone, with that state in the place of the start.
-/

namespace WeightedAutomata

open Automaton Compilation Fragment

variable {L I O : Type} {r : Range} [LabelOver L I O] [Alphabet I] [Alphabet O]

/-! ### Compiled into an automaton -/

/-- `b` is `a` with a copy of a compiled expression in it. The copy's states are named by `f`, its
transitions are `added`, and the state `s` stands for the start. -/
structure Spliced (a : Automaton L r I O) (s : StateId) (c : Compiled L r) (b : Automaton L r I O)
    (final : StateId) (f : StateId → StateId) (added : List (Transition L r)) : Prop where
  injective : Set.InjOn f {u | c.automaton.contains u}
  start : f c.automaton.start = s
  final : final = f c.final ∧ ¬ a.contains final ∧ b.isFinal final
  states : ∀ v, b.contains v ↔ a.contains v ∨ ∃ u, c.automaton.contains u ∧ f u = v
  /-- All states of the copy but the start are new. -/
  fresh : ∀ u, c.automaton.contains u → u ≠ c.automaton.start → ¬ a.contains (f u)
  kept : ∀ v, a.contains v → b.isFinal v = a.isFinal v
  isFinal : ∀ u, c.automaton.contains u → u ≠ c.automaton.start →
    b.isFinal (f u) = c.automaton.isFinal u
  /-- The transitions of before are in force under their handles as they were, and no others but
  those added. -/
  transitions : ∀ i t, b.transition? i = some t ↔ a.transition? i = some t ∨ t ∈ added ∧ t.id = i
  unused : ∀ t ∈ added, a.transition? t.id = none
  sources : ∀ t ∈ added, ∃ u, c.automaton.contains u ∧ f u = t.source
  /-- The transitions that are added to a state come after those it had. -/
  outgoing : ∀ v, b.contains v → (b.transitionsFrom v).toList =
    (a.transitionsFrom v).toList ++ added.filter (·.source = v)
  /-- They are those of the state that it is a copy of, in the same order. -/
  copied : ∀ u, c.automaton.contains u → (added.filter (·.source = f u)).map Transition.arc =
    (c.automaton.transitionsFrom u).toList.map fun t => t.arc.map f

namespace Copy

variable {ρ : StateId → StateId} {a b : Automaton L r I O} {ts us added : List (Transition L r)}
  {c : Automaton L r I O}

lemma exists_source (h : Copy ρ a ts c us b added) {t : Transition L r} (ht : t ∈ added) :
    ∃ u, c.contains u ∧ ρ u = t.source := by
  have hedge : t.edge ∈ added.map Transition.edge := List.mem_map_of_mem ht
  rw [h.edges] at hedge
  obtain ⟨u, hu, heq⟩ := List.mem_map.1 hedge
  exact ⟨u.source, h.original.source u hu, congrArg Prod.fst heq⟩

lemma arcs_added (h : Copy ρ a ts c us b added) {u : StateId} (hu : c.contains u) :
    (added.filter (·.source = ρ u)).map Transition.arc =
      (c.transitionsFrom u).toList.map fun t => t.arc.map ρ := by
  -- distinct states keep distinct names, so the copies can be told apart by their sources
  have hsource : ∀ t ∈ us, decide (ρ t.source = ρ u) = decide (t.source = u) := by
    intro t ht
    have hinj := h.injOn.eq_iff (h.original.source t ht) hu
    simp only [hinj]
  calc (added.filter (·.source = ρ u)).map Transition.arc
      = ((added.map Transition.edge).filter (·.1 = ρ u)).map Prod.snd := by
        rw [List.filter_map, List.map_map]
        rfl
    _ = ((us.map fun t => (ρ t.source, t.arc.map ρ)).filter (·.1 = ρ u)).map Prod.snd := by
        rw [h.edges]
    _ = (us.filter fun t => ρ t.source = ρ u).map fun t => t.arc.map ρ := by
        rw [List.filter_map, List.map_map]
        rfl
    _ = (us.filter (·.source = u)).map fun t => t.arc.map ρ := by
        rw [List.filter_congr hsource]
    _ = (c.transitionsFrom u).toList.map fun t => t.arc.map ρ := by
        rw [h.original.toList_transitionsFrom hu]

end Copy

/-! ### The names of the copies -/

/-- In a copy, the start is called `s` and the other states as the automaton will name them. -/
def naming (a : Automaton L r I O) (s u : StateId) : StateId :=
  if u = ⟨0, 0⟩ then s else a.states.upcoming (u.index - 1)

omit [LabelOver L I O] in
lemma upcoming_new (k : Nat) : (new : Automaton L r I O).states.upcoming k = ⟨k + 1, 0⟩ := by
  change (Arena.empty.insert _).upcoming k = _
  rw [Arena.upcoming_insert]
  simp [Arena.upcoming, Arena.handleAt, Arena.empty]

lemma copy_new {a : Automaton L r I O} {ts : List (Transition L r)} (ha : Consistent a ts)
    {s : StateId} (hs : a.contains s) : Copy (naming a s) a ts new [] a [] where
  original := consistent_new
  copy := by rwa [List.append_nil]
  edges := rfl
  start := hs
  states v := by
    constructor
    · exact Or.inl
    · -- in the automaton with a start only, the state of the call takes its place
      rintro (hv | ⟨u, hu, rfl⟩)
      · exact hv
      · rw [(contains_new u).1 hu]
        exact hs
  injOn u hu u' hu' _ := ((contains_new u).1 hu).trans ((contains_new u').1 hu').symm
  fresh u hu hne := absurd ((contains_new u).1 hu) hne
  kept _ _ := rfl
  copied u hu hne := absurd ((contains_new u).1 hu) hne
  upcoming k := by
    rw [upcoming_new]
    rfl

lemma Copy.spliced {a b : Automaton L r I O} {ts us added : List (Transition L r)} {s : StateId}
    {c : Compiled L r} {f : Fragment L r} {N : Set StateId}
    {arcs : StateId → Multiset (Arc StateId L r)} (ha : Consistent a ts)
    (hattached : Attached c f N arcs) (h : Copy (naming a s) a ts c.automaton us b added) :
    Spliced a s c b (naming a s c.final) (naming a s) added := by
  have hfinal : c.automaton.contains c.final := (hattached.contains _).2 (Or.inr (Or.inr rfl))
  have hne : c.final ≠ c.automaton.start := hattached.start_ne_final.symm
  have hgrown : Grown a b added := ha.grown h.copy
  have hisFinal : ∀ u, c.automaton.contains u → u ≠ c.automaton.start →
      b.isFinal (naming a s u) = c.automaton.isFinal u := fun u hu hu' => by
    rw [isFinal_eq, isFinal_eq, h.copied u hu hu']
  exact {
    injective := h.injOn
    start := if_pos rfl
    final := ⟨rfl, h.fresh _ hfinal hne, by
      rw [hisFinal _ hfinal hne]
      exact (hattached.isFinal _).2 rfl⟩
    states := h.states
    fresh := h.fresh
    kept := fun v hv => by rw [isFinal_eq, isFinal_eq, h.kept v hv]
    isFinal := hisFinal
    transitions := hgrown.transitions
    unused := hgrown.unused
    sources := fun t => h.exists_source
    outgoing := hgrown.outgoing
    copied := fun u => h.arcs_added }

/-- From a state in force every expression compiles, to a copy of what it compiles to alone. -/
lemma exists_spliced (d : LogDomain) (e : Expr L) {a : Automaton L r I O}
    {ts : List (Transition L r)} (ha : Consistent a ts) {s : StateId} (hs : a.contains s) :
    ∃ c final b f added, e.compile d = .ok c ∧ e.compileFrom d s a = .ok final b ∧
      Spliced a s c b final f added := by
  obtain ⟨c, _, _, _, hc, -, hattached⟩ := exists_attached (r := r) d e
  have hlock := lockstep_copied (naming a s) a ts
  have hnew : Copied (naming a s) a ts (fun u u' => u = (new : Automaton L r I O).start ∧ u' = s)
      new a := by
    refine ⟨?_, [], [], copy_new ha hs⟩
    rintro _ _ ⟨rfl, rfl⟩
    exact ⟨consistent_new.start, if_pos rfl⟩
  obtain ⟨P, c', _, b, -, hc', hb, ⟨hnames, us, added, hcopy⟩, hfinal⟩ :=
    (Alike.refl hlock (fun _ => rfl) e).exists_compile (d := d) hlock hnew ⟨rfl, rfl⟩
  rw [hc] at hc'
  cases hc'
  rw [← (hnames _ _ hfinal).2] at hb
  exact ⟨c, _, b, _, added, hc, hb, hcopy.spliced ha hattached⟩

lemma compileFrom_of_not_contains (d : LogDomain) (e : Expr L) {a : Automaton L r I O} {s : StateId}
    (hs : ¬ a.contains s) : e.compileFrom d s a = .error (.unknownState s) a := by
  unfold Expr.compileFrom
  rw [Edit.get_bind, if_pos (by simpa using hs)]
  rfl

/-- **Compiling into an automaton adds a copy of what is compiled alone, and nothing else**,
whatever operations the automaton comes from. It fails exactly where the state it is to start from
is not in force, and then it changes nothing. -/
theorem Expr.compileFrom_splices (ops : List (Operation L r)) (d : LogDomain) (e : Expr L)
    (s : StateId) :
    (∀ cause b, e.compileFrom d s (reach ops) = .error cause b ↔
      cause = .unknownState s ∧ b = reach ops ∧ ¬ (reach ops).contains s) ∧
    ((reach ops).contains s → ∃ c final b f added, e.compile d = .ok c ∧
      e.compileFrom d s (reach ops) = .ok final b ∧ Spliced (reach ops) s c b final f added) := by
  obtain ⟨ts, h⟩ := consistent_reach ops
  refine ⟨fun cause b => ?_, fun hs => exists_spliced d e h hs⟩
  by_cases hs : (reach ops).contains s
  · obtain ⟨c, final, b', f, added, -, hok, -⟩ := exists_spliced d e h hs
    simp [hok, hs]
  · rw [compileFrom_of_not_contains d e hs]
    simp [hs, eq_comm]

/-- A final start with a loop, and a slot that is vacant. -/
def usedSlots : List (Operation Letter .probability) :=
  [.call (.setFinal ⟨0, 0⟩ true),
    .call (.addTransition ⟨0, 0⟩ ⟨0, 0⟩ (.concrete "a") 1),
    .call (.addState false),
    .call (.removeState ⟨1, 0⟩)]

/-- The start stays final, and its loop comes before what is added. -/
theorem Expr.compileFrom_splices_usedSlots :
    let d := LogDomain.build LogDomain.defaultPrecision
    let e : Expr Letter := .kleene (.symbol "b")
    ∃ c final b f added, e.compile d = .ok c ∧
      e.compileFrom d ⟨0, 0⟩ (reach usedSlots) = .ok final b ∧
      Spliced (reach usedSlots) ⟨0, 0⟩ c b final f added ∧ b.isFinal ⟨0, 0⟩ ∧
      (b.transitionsFrom ⟨0, 0⟩).toList =
        ⟨⟨0, 0⟩, ⟨0, 0⟩, ⟨0, 0⟩, .concrete "a", 1⟩ :: added.filter (·.source = ⟨0, 0⟩) := by
  intro d e
  have hs : (reach usedSlots).contains ⟨0, 0⟩ := by decide
  have hloop : ((reach usedSlots).transitionsFrom ⟨0, 0⟩).toList =
      [⟨⟨0, 0⟩, ⟨0, 0⟩, ⟨0, 0⟩, .concrete "a", 1⟩] := by decide +kernel
  obtain ⟨c, final, b, f, added, hc, hb, h⟩ := (compileFrom_splices usedSlots d e ⟨0, 0⟩).2 hs
  refine ⟨c, final, b, f, added, hc, hb, h, (h.kept _ hs).trans (by decide), ?_⟩
  rw [h.outgoing _ ((h.states _).2 (Or.inl hs)), hloop]
  rfl

end WeightedAutomata
