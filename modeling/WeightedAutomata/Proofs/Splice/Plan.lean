import WeightedAutomata.Proofs.Splice.Tying

/-!
What a splice does, step by step.

Every splice ties edges, needs one state where the open ends meet, and ties the other edges there.
Three of them make that state at once. Attaching a piece makes it when it is first needed, and where
no right end is open it makes the given state final instead.
-/

namespace WeightedAutomata

open Automaton

variable {L I O : Type} {r : Range} [LabelOver L I O] [Alphabet I] [Alphabet O]

/-- A combination of pieces that ties open edges in an automaton. -/
inductive Splice (L : Type) (r : Range) where
  | concat (f g : Fragment L r)
  | closure (f : Fragment L r) (again leave : Weight r)
  | positiveClosure (f g : Fragment L r) (again leave : Weight r)
  | attach (f : Fragment L r) (start : StateId)

namespace Fragment

variable (f : Fragment L r)

/-- The states that its open edges name. -/
def ends : List StateId := f.entries.toList.map Entry.target ++ f.exits.toList.map Exit.source

def passageTies (source target : StateId) : List (StateId × Arc StateId L r) :=
  f.passages.toList.map fun p => (source, p.arcTo target)

def entryTies (source : StateId) : List (StateId × Arc StateId L r) :=
  f.entries.toList.map fun e => (source, e.arc)

def exitTies (target : StateId) : List (StateId × Arc StateId L r) :=
  f.exits.toList.map fun x => (x.source, x.arcTo target)

/-- All open edges with their left ends tied to one state and their right ends to another. -/
def ties (source target : StateId) : List (StateId × Arc StateId L r) :=
  f.passageTies source target ++ (f.entryTies source ++ f.exitTies target)

end Fragment

namespace Splice

/-- The fixed ends of the edges that are tied. -/
def ends : Splice L r → List StateId
  | concat f g => f.exits.toList.map Exit.source ++ g.entries.toList.map Entry.target
  | closure f _ _ => f.ends
  | positiveClosure f g _ _ => f.exits.toList.map Exit.source ++ g.ends
  | attach f _ => f.ends

/-- The states that have to be in force: the fixed ends, and the state to start from. -/
def needs : Splice L r → List StateId
  | attach f start => start :: f.ends
  | σ => σ.ends

/-- The edges that are tied, in their order, where `hub` is the state at which open ends meet. -/
def ties : Splice L r → StateId → List (StateId × Arc StateId L r)
  | concat f g, hub => f.exitTies hub ++ g.entryTies hub
  | closure f again _, hub => (f.scale again).ties hub hub
  | positiveClosure f g again _, hub => f.exitTies hub ++ (g.scale again).ties hub hub
  | attach f start, hub => f.ties start hub

/-- The edges that are tied before that state is needed. -/
def early : Splice L r → List (StateId × Arc StateId L r)
  | attach f start => if f.passages.isEmpty then f.entryTies start else []
  | _ => []

/-- The edges that are tied once that state is there. -/
def late (σ : Splice L r) (hub : StateId) : List (StateId × Arc StateId L r) :=
  (σ.ties hub).drop σ.early.length

/-- That state is new. -/
def opens : Splice L r → Bool
  | attach f _ => !(f.passages.isEmpty && f.exits.isEmpty)
  | _ => true

/-- That state, if `hub` is the next one to be made. -/
def place (σ : Splice L r) (hub : StateId) : StateId :=
  match σ with
  | attach _ start => if σ.opens then hub else start
  | _ => hub

/-- That state is final. -/
def isFinal : Splice L r → Bool
  | attach _ _ => true
  | _ => false

/-- The state to start from, if there is one, is in force. -/
def Admitted (σ : Splice L r) (a : Automaton L r I O) : Prop :=
  ∀ f start, σ = attach f start → a.contains start

/-- Makes that state, or makes the given one final. -/
def marking (σ : Splice L r) : Edit L r StateId :=
  match σ with
  | attach _ start =>
    if σ.opens then addState true
    else do
      setFinal start true
      return start
  | _ => addState false

lemma ties_attach_of_empty {f : Fragment L r} (hp : f.passages = #[]) (start hub : StateId) :
    (attach f start).ties hub = f.entryTies start ++ f.exitTies hub := by
  rw [ties, Fragment.ties, Fragment.passageTies, hp]
  rfl

/-- The edges that are tied early are the first ones. -/
lemma early_append_late (σ : Splice L r) (hub : StateId) : σ.early ++ σ.late hub = σ.ties hub := by
  have hprefix : σ.early <+: σ.ties hub := by
    cases σ with
    | attach f start =>
      change (if f.passages.isEmpty then f.entryTies start else []) <+: _
      split
      next hp =>
        rw [ties_attach_of_empty (Array.isEmpty_iff.1 hp)]
        exact List.prefix_append _ _
      next => exact List.nil_prefix
    | _ => exact List.nil_prefix
  exact List.prefix_iff_eq_append.1 hprefix

/-- What a splice gives: a piece with the other open edges of its operands, or the state in which
an attached piece ends. -/
def gives : Splice L r → StateId → Fragment L r ⊕ StateId
  | concat f g, hub => .inl (Fragment.through f g hub)
  | closure _ _ leave, hub => .inl (Fragment.around hub leave)
  | positiveClosure f _ _ leave, hub => .inl (Fragment.onto f hub leave)
  | attach _ _, hub => .inr hub

def run : Splice L r → Edit L r (Fragment L r ⊕ StateId)
  | concat f g => Sum.inl <$> f.concat g
  | closure f again leave => Sum.inl <$> f.closure again leave
  | positiveClosure f g again leave => Sum.inl <$> f.positiveClosure g again leave
  | attach f start => Sum.inr <$> f.attach start

/-- The steps of a splice. -/
def plan (σ : Splice L r) : Edit L r (Fragment L r ⊕ StateId) := do
  tieAll σ.early
  let hub ← σ.marking
  tieAll (σ.late hub)
  return σ.gives hub

/-! ### A splice follows its plan -/

lemma closeExits_eq (f : Fragment L r) (target : StateId) :
    Fragment.closeExits f.exits target = tieAll (f.exitTies target) :=
  forM_eq_tieAll f.exits fun x => (x.source, x.arcTo target)

lemma closeEntries_eq (f : Fragment L r) (source : StateId) :
    Fragment.closeEntries f.entries source = tieAll (f.entryTies source) :=
  forM_eq_tieAll f.entries fun e => (source, e.arc)

lemma closePassages_eq (f : Fragment L r) (source target : StateId) :
    Fragment.closePassages f.passages source target = tieAll (f.passageTies source target) :=
  forM_eq_tieAll f.passages fun p => (source, p.arcTo target)

lemma closeOn_eq (f : Fragment L r) (hub : StateId) (again : Weight r) :
    f.closeOn hub again = tieAll ((f.scale again).ties hub hub) := by
  unfold Fragment.closeOn Fragment.ties
  rw [tieAll_append, tieAll_append]
  dsimp only
  rw [closePassages_eq, closeEntries_eq, ← closeExits_eq]

variable {a : Automaton L r I O} {σ : Splice L r}

lemma attach_of_none {f : Fragment L r} {start : StateId} (hstart : a.contains start)
    (hp : f.passages = #[]) (hx : f.exits = #[]) :
    f.attach start a = (do
      Fragment.closeEntries f.entries start
      setFinal start true
      return start) a := by
  unfold Fragment.attach
  rw [Edit.get_bind, if_neg (by simp [hstart]), if_pos (by simp [hp]), if_pos (by simp [hx])]

lemma plan_of_early_nil (h : σ.early = []) :
    σ.plan = do
      let hub ← σ.marking
      tieAll (σ.ties hub)
      return σ.gives hub := by
  unfold plan late
  rw [h]
  rfl

lemma run_attach {f : Fragment L r} {start : StateId} (hstart : a.contains start) :
    (attach f start).run a = (attach f start).plan a := by
  have hrun : ∀ m : Edit L r StateId, f.attach start a = m a →
      (attach f start).run a = (Sum.inr <$> m) a := by
    intro m hm
    simp only [run, Functor.map, EStateM.map, hm]
  -- the branches of `attach`: without passages the entries are tied before a state is made
  by_cases hp : f.passages = #[]
  · have hearly : (attach f start).early = f.entryTies start := if_pos (by simp [hp])
    have hlate : ∀ hub, (attach f start).late hub = f.exitTies hub := by
      intro hub
      rw [late, hearly, ties_attach_of_empty hp, List.drop_left]
    by_cases hx : f.exits = #[]
    · have hopens : (attach f start).opens = false := by simp [opens, hp, hx]
      have hnone : f.exitTies start = [] := by rw [Fragment.exitTies, hx]; rfl
      rw [hrun _ (attach_of_none hstart hp hx)]
      simp only [plan, marking, hopens, hearly, hlate, closeEntries_eq, map_bind, bind_assoc,
        map_pure, pure_bind, gives, Bool.false_eq_true, if_false, hnone]
      rfl
    · have hopens : (attach f start).opens = true := by simp [opens, hx]
      rw [hrun _ (Fragment.attach_of_exits hstart hp hx)]
      simp only [plan, marking, hopens, hearly, hlate, closeEntries_eq, closeExits_eq, map_bind,
        map_pure, gives, if_true]
  · have hearly : (attach f start).early = [] := if_neg (by simpa using hp)
    have hopens : (attach f start).opens = true := by simp [opens, hp]
    rw [hrun _ (Fragment.attach_of_passages hstart hp), plan_of_early_nil hearly]
    simp only [marking, hopens, ties, Fragment.ties, closePassages_eq, closeEntries_eq,
      closeExits_eq, tieAll_append, map_bind, bind_assoc, map_pure, gives, if_true]

/-- From a state in force, a splice follows its plan. -/
lemma run_eq (h : σ.Admitted a) : σ.run a = σ.plan a := by
  cases σ with
  | concat f g =>
    rw [plan_of_early_nil rfl]
    simp only [run, Fragment.concat, marking, ties, closeExits_eq, closeEntries_eq, tieAll_append,
      map_bind, bind_assoc, map_pure, gives, Fragment.through]
  | closure f again leave =>
    rw [plan_of_early_nil rfl]
    simp only [run, Fragment.closure, marking, ties, closeOn_eq, map_bind, map_pure, gives,
      Fragment.around]
  | positiveClosure f g again leave =>
    rw [plan_of_early_nil rfl]
    simp only [run, Fragment.positiveClosure, marking, ties, closeExits_eq, closeOn_eq,
      tieAll_append, map_bind, bind_assoc, map_pure, gives, Fragment.onto]
  | attach f start => exact run_attach (h f start rfl)

end Splice

end WeightedAutomata
