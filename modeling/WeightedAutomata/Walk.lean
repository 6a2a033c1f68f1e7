import WeightedAutomata.Limits
import WeightedAutomata.Machine

/-!
Depth-first walks over the accepted paths of a machine.

A walk keeps one frame for each state on the current path. A path is handed out when its last
state is final, before any longer path that begins with it, and arcs are followed in the order in
which the machine yields them. Paths of weight zero are not followed. Paths are cut at a number of
labels, and the search for one path is given up after a number of arcs.
-/

namespace WeightedAutomata

/-- An accepted path: its labels in order, and the product of their weights. -/
structure Path (L : Type) (r : Range) where
  labels : Array L
  weight : Weight r
  deriving DecidableEq

namespace Path

variable {L : Type} {r : Range} (p : Path L r)

def length : Nat := p.labels.size

def isEmpty : Bool := p.labels.isEmpty

variable {I O : Type} [LabelOver L I O]

def inputs : List I := p.labels.toList.filterMap fun l => (Label.input l).value?

def outputs : List O := p.labels.toList.filterMap fun l => (Label.output l).value?

end Path

/-- A state on the current path, with the arcs that have not been followed yet. -/
structure Frame (σ L : Type) (r : Range) where
  state : σ
  /-- The weight of the path up to this state. -/
  weight : Weight r
  pending : Unit → LazyList (Arc σ L r)
  /-- The path that ends here has been handed out, if it is accepted. -/
  isVisited : Bool

structure Walk (σ L : Type) (r : Range) where
  /-- The current path, its last state in front. -/
  frames : List (Frame σ L r)
  /-- The labels between the states of the current path, in order. -/
  labels : Array L
  /-- Some path was cut at the greatest depth. -/
  isTruncated : Bool

/-- What happens on the way to the next path. -/
inductive Occurrence (σ : Type) where
  | accepted (length : Nat)
  /-- The next arc of a state was taken up. -/
  | pulled
  /-- The first path was cut at this depth. -/
  | cut (depth : Nat)
  /-- The search was given up after this many arcs. -/
  | gaveUp (steps : Nat)
  /-- The arcs of a state were asked for. -/
  | entered (state : σ)

/-! ### The work ahead -/

/-- The most that is left to do where these arcs are followed with at most `depth` more labels: each
arc is taken up, and the state that it leads to is left again. -/
def Machine.work {σ L : Type} {r : Range} (m : Machine σ L r) : Nat → List (Arc σ L r) → Nat
  | 0, _ => 0
  | depth + 1, xs => xs.foldr (fun x rest => work m depth (m.arcs x.target).toList + 2 + rest) 0

namespace Walk

variable {σ L : Type} {r : Range}

/-- The most that is left to do from these frames on, the last of them after `depth` labels. -/
def workOf (m : Machine σ L r) (maxDepth : Nat) : List (Frame σ L r) → Nat → Nat
  | [], _ => 0
  | f :: below, depth =>
    m.work (maxDepth - depth) (f.pending ()).toList + 1 + workOf m maxDepth below (depth - 1)

def enter (m : Machine σ L r) (state : σ) (weight : Weight r) : Frame σ L r :=
  { state, weight, pending := fun _ => m.arcs state, isVisited := false }

def begin (m : Machine σ L r) : Walk σ L r :=
  { frames := [enter m m.start 1], labels := #[], isTruncated := false }

/-- Where one more label fits, it takes one of those that are left. -/
theorem room_eq {depth maxDepth : Nat} (h : ¬ maxDepth ≤ depth) :
    maxDepth - depth = maxDepth - (depth + 1) + 1 := by
  omega

section Work

variable (m : Machine σ L r) (maxDepth : Nat) (f : Frame σ L r) (below : List (Frame σ L r))
  (labels : Array L)

theorem workOf_left :
    workOf m maxDepth below labels.pop.size < workOf m maxDepth (f :: below) labels.size := by
  rw [workOf, Array.size_pop]
  omega

variable {m maxDepth f labels} {x : Arc σ L r} {later : Unit → LazyList (Arc σ L r)}

/-- What is left to do through the first arc and through the others. -/
theorem workOf_pulled (hdepth : labels.size < maxDepth) (hpending : f.pending () = .cons x later) :
    workOf m maxDepth (f :: below) labels.size =
      m.work (maxDepth - (labels.size + 1)) (m.arcs x.target).toList + 2 +
        workOf m maxDepth ({ f with pending := later, isVisited := true } :: below)
          labels.size := by
  rw [workOf, workOf, hpending, LazyList.toList_cons, room_eq (Nat.not_le.2 hdepth), Machine.work,
    Machine.work, List.foldr_cons]
  dsimp only
  omega

theorem workOf_passed (hdepth : labels.size < maxDepth) (hpending : f.pending () = .cons x later) :
    workOf m maxDepth ({ f with pending := later, isVisited := true } :: below) labels.size <
      workOf m maxDepth (f :: below) labels.size := by
  rw [workOf_pulled below hdepth hpending]
  omega

theorem workOf_entered (hdepth : labels.size < maxDepth) (hpending : f.pending () = .cons x later)
    (weight : Weight r) :
    workOf m maxDepth
        (enter m x.target weight :: { f with pending := later, isVisited := true } :: below)
        (labels.push x.label).size <
      workOf m maxDepth (f :: below) labels.size := by
  rw [workOf_pulled below hdepth hpending, workOf, Array.size_push]
  change m.work _ (m.arcs x.target).toList + 1 + workOf m maxDepth _ labels.size < _
  omega

end Work

/-- Walks on to the next path, after `steps` arcs have been followed in search of it. What happens
on the way is noted in an account that does not influence the walk.

The arcs are counted in a word of 32 bits, which comes round: a limit of `2 ^ 32 - 1` is never
exceeded. The search still ends, since it takes up every arc within the depth once. -/
@[specialize] def advance {β : Type} (m : Machine σ L r) (limits : Limits)
    (note : β → Occurrence σ → β) (account : β) (steps : UInt32) (w : Walk σ L r) :
    β × Option (Path L r) × Walk σ L r :=
  match w with
  | ⟨[], labels, isTruncated⟩ => (account, none, ⟨[], labels, isTruncated⟩)
  | ⟨frame :: below, labels, isTruncated⟩ =>
    let depth := labels.size
    if !frame.isVisited && m.isFinal frame.state then
      (note account (.accepted depth), some ⟨labels, frame.weight⟩,
        ⟨{ frame with isVisited := true } :: below, labels, isTruncated⟩)
    else if limits.maxDepth ≤ depth then
      let account := if isTruncated then account else note account (.cut limits.maxDepth)
      advance m limits note account steps ⟨below, labels.pop, true⟩
    else
      match _ : frame.pending () with
      | .nil => advance m limits note account steps ⟨below, labels.pop, isTruncated⟩
      | .cons arc later =>
        let account := note account .pulled
        if limits.maxSteps < (steps + 1).toNat then
          (note account (.gaveUp limits.maxSteps), none, ⟨[], labels, isTruncated⟩)
        else
          let weight := frame.weight * arc.weight
          let frame := { frame with pending := later, isVisited := true }
          if weight.isZero then
            advance m limits note account (steps + 1) ⟨frame :: below, labels, isTruncated⟩
          else
            advance m limits note (note account (.entered arc.target)) (steps + 1)
              ⟨enter m arc.target weight :: frame :: below, labels.push arc.label, isTruncated⟩
termination_by workOf m limits.maxDepth w.frames w.labels.size
decreasing_by
  · exact workOf_left m _ frame below labels
  · exact workOf_left m _ frame below labels
  · exact workOf_passed below (by omega) (by assumption)
  · exact workOf_entered below (by omega) (by assumption) _

/-- The next path, if there is one within the limits, and the walk from there on. -/
def next (m : Machine σ L r) (limits : Limits) (w : Walk σ L r) :
    Option (Path L r) × Walk σ L r :=
  (advance m limits (fun _ _ => ()) () 0 w).2

end Walk

end WeightedAutomata
