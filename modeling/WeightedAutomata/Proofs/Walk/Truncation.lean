import WeightedAutomata.Proofs.Automaton.Run
import WeightedAutomata.Proofs.Walk.Enumeration

/-!
What a walk says, once it has ended, of paths that were cut.

A walk takes a path for cut as soon as it stands at the greatest depth and goes back, whether or not
an arc leads on from there. So what it says in the end is not that some path is longer than the
greatest depth, but that some path is as long. At every moment either a path has been cut, or one
that is still to be cut can be read off the frames, or there is none at all.
-/

namespace WeightedAutomata

variable {σ L : Type} {r : Range}

/-! ### Paths of a given length -/

namespace Machine

variable (m : Machine σ L r)

/-- Some path of `n` labels goes on from a state and keeps a weight `w` from becoming zero. -/
def Extends (n : Nat) (s : σ) (w : Weight r) : Prop :=
  ∃ route, route.length = n ∧
    ∃ xs, m.arcsAlong s route = some xs ∧ (xs.map Arc.weight).foldl (· * ·) w ≠ 0

/-- Some path goes on from a frame to the greatest depth, `room` labels further on, through one of
the arcs. Without room the frame itself stands there. -/
def ExtendsThrough : Nat → List (Arc σ L r) → Weight r → Prop
  | 0, _, _ => True
  | room + 1, xs, w => ∃ x ∈ xs, m.Extends room x.target (w * x.weight)

variable {m} {n k : Nat} {s : σ} {w : Weight r}

lemma extends_zero : m.Extends 0 s w ↔ w ≠ 0 := by
  constructor
  · rintro ⟨route, hlength, xs, hxs, hw⟩
    obtain rfl := List.length_eq_zero_iff.1 hlength
    cases hxs
    exact hw
  · intro hw
    exact ⟨[], rfl, [], rfl, hw⟩

lemma extends_succ :
    m.Extends (n + 1) s w ↔ ∃ x ∈ (m.arcs s).toList, m.Extends n x.target (w * x.weight) := by
  constructor
  · rintro ⟨route, hlength, xs, hxs, hw⟩
    obtain ⟨i, route, rfl⟩ := List.exists_cons_of_length_eq_add_one hlength
    rw [arcsAlong] at hxs
    cases hx : (m.arcs s).toList[i]? with
    | none => rw [hx] at hxs; cases hxs
    | some x =>
      rw [hx] at hxs
      obtain ⟨later, hlater, rfl⟩ := Option.map_eq_some_iff.1 hxs
      exact ⟨x, List.mem_of_getElem? hx, route, Nat.succ.inj hlength, later, hlater, hw⟩
  · rintro ⟨x, hx, route, hlength, xs, hxs, hw⟩
    obtain ⟨i, hi⟩ := List.mem_iff_getElem?.1 hx
    refine ⟨i :: route, congrArg (· + 1) hlength, x :: xs, ?_, hw⟩
    rw [arcsAlong, hi]
    simp only [hxs, Option.map_some]

lemma Extends.weight_ne_zero (h : m.Extends n s w) : w ≠ 0 := by
  rintro rfl
  obtain ⟨route, -, xs, -, hw⟩ := h
  exact hw (foldl_zero_mul _)

lemma Extends.shorter (h : m.Extends k s w) (hnk : n ≤ k) : m.Extends n s w := by
  induction n generalizing k s w with
  | zero => exact extends_zero.2 h.weight_ne_zero
  | succ n ih =>
    obtain ⟨k, rfl⟩ := Nat.exists_eq_add_of_le' (Nat.lt_of_lt_of_le n.succ_pos hnk)
    obtain ⟨x, hx, hrest⟩ := extends_succ.1 h
    exact extends_succ.2 ⟨x, hx, ih hrest (Nat.le_of_succ_le_succ hnk)⟩

lemma extendsThrough_arcs (hw : w ≠ 0) :
    m.ExtendsThrough n (m.arcs s).toList w ↔ m.Extends n s w := by
  cases n with
  | zero => exact iff_of_true trivial (extends_zero.2 hw)
  | succ n => exact extends_succ.symm

end Machine

/-! ### Paths that have been cut or are still to be cut -/

namespace Walk

variable (m : Machine σ L r) (limits : Limits)

/-- Some path through the frames reaches the greatest depth. -/
def ReachesOf : List (Frame σ L r) → Array L → Prop
  | [], _ => False
  | f :: below, labels =>
    m.ExtendsThrough (limits.maxDepth - labels.size) (f.pending ()).toList f.weight ∨
      ReachesOf below labels.pop

/-- Some path has been cut or is still to be cut. -/
def Cuts (w : Walk σ L r) : Prop :=
  w.isTruncated = true ∨ ReachesOf m limits w.frames w.labels

variable {m limits}

lemma reachesOf_cut {f : Frame σ L r} {labels : Array L} (hdepth : limits.maxDepth ≤ labels.size)
    (below : List (Frame σ L r)) : ReachesOf m limits (f :: below) labels := by
  have hnone : limits.maxDepth - labels.size = 0 := Nat.sub_eq_zero_of_le hdepth
  rw [ReachesOf, hnone]
  exact .inl trivial

lemma reachesOf_left {f : Frame σ L r} {labels : Array L}
    (hdepth : ¬ limits.maxDepth ≤ labels.size) (hpending : f.pending () = .nil)
    (below : List (Frame σ L r)) :
    ReachesOf m limits (f :: below) labels ↔ ReachesOf m limits below labels.pop := by
  rw [ReachesOf, hpending, room_eq hdepth]
  simp [Machine.ExtendsThrough]

lemma reachesOf_pulled {f : Frame σ L r} {labels : Array L} {x : Arc σ L r}
    {later : Unit → LazyList (Arc σ L r)} (hdepth : ¬ limits.maxDepth ≤ labels.size)
    (hpending : f.pending () = .cons x later) (below : List (Frame σ L r)) :
    ReachesOf m limits (f :: below) labels ↔
      m.Extends (limits.maxDepth - (labels.size + 1)) x.target (f.weight * x.weight) ∨
        ReachesOf m limits ({ f with pending := later, isVisited := true } :: below) labels := by
  rw [ReachesOf, ReachesOf, hpending, room_eq hdepth]
  simp [Machine.ExtendsThrough, or_assoc]

lemma reachesOf_enter {s : σ} {w : Weight r} (hw : w ≠ 0) (frames : List (Frame σ L r))
    (labels : Array L) (l : L) : ReachesOf m limits (enter m s w :: frames) (labels.push l) ↔
      m.Extends (limits.maxDepth - (labels.size + 1)) s w ∨ ReachesOf m limits frames labels := by
  rw [ReachesOf, Array.size_push, Array.pop_push]
  exact or_congr_left (Machine.extendsThrough_arcs hw)

variable (m limits)

/-! ### One call -/

/-- Notes whether the search is given up. -/
def abandons : Bool → Occurrence σ → Bool
  | _, .gaveUp _ => true
  | b, _ => b

/-- The next call gives up after too many arcs. -/
def givesUp (w : Walk σ L r) : Bool := (advance m limits abandons false 0 w).1

/-- A search that is not given up cuts what was to be cut, or leaves it to later searches. -/
lemma cuts_advance (account : Bool) (steps : UInt32) (w : Walk σ L r)
    (hsteps : (advance m limits abandons account steps w).1 = false) :
    Cuts m limits (advance m limits abandons account steps w).2.2 ↔ Cuts m limits w := by
  fun_induction advance m limits abandons account steps w with
  | case1 => rfl
  | case2 => rfl
  -- the cut is on record; before, the frame itself reached the depth
  | case3 account steps f below labels cut depth hhere hdepth _ ih =>
    exact (ih hsteps).trans (iff_of_true (.inl rfl) (.inr (reachesOf_cut hdepth below)))
  | case4 account steps f below labels cut depth hhere hdepth hpending ih =>
    exact (ih hsteps).trans (or_congr_right (reachesOf_left hdepth hpending below).symm)
  | case5 => cases hsteps
  | case6 account steps f below labels cut depth hhere hdepth x later hpending _ _ weight _
      hzero ih =>
    refine (ih hsteps).trans (or_congr_right ?_)
    have hnot : ¬ m.Extends (limits.maxDepth - (labels.size + 1)) x.target weight :=
      fun h => h.weight_ne_zero (of_decide_eq_true hzero)
    exact ((reachesOf_pulled hdepth hpending below).trans (or_iff_right hnot)).symm
  | case7 account steps f below labels cut depth hhere hdepth x later hpending _ _ weight _
      hzero ih =>
    refine (ih hsteps).trans (or_congr_right ?_)
    have hweight : weight ≠ 0 := fun h => hzero (decide_eq_true h)
    exact (reachesOf_enter hweight _ labels x.label).trans
      (reachesOf_pulled hdepth hpending below).symm

variable {m limits}

lemma next_eq {β : Type} (note : β → Occurrence σ → β) (account : β) (w : Walk σ L r) :
    next m limits w = (advance m limits note account 0 w).2 :=
  advance_snd m limits _ _ _ _ _ w

lemma frames_of_advance_none {β : Type} {note : β → Occurrence σ → β} {account : β}
    {steps : UInt32} {w : Walk σ L r} (h : (advance m limits note account steps w).2.1 = none) :
    (advance m limits note account steps w).2.2.frames = [] := by
  fun_induction advance m limits note account steps w
  case case1 => rfl
  case case2 => cases h
  case case3 ih | case4 ih | case6 ih | case7 ih => exact ih h
  case case5 => rfl

lemma frames_of_next_none {w : Walk σ L r} (h : (next m limits w).1 = none) :
    (next m limits w).2.frames = [] :=
  frames_of_advance_none h

lemma next_of_frames_nil {w : Walk σ L r} (h : w.frames = []) : next m limits w = (none, w) := by
  obtain ⟨frames, labels, cut⟩ := w
  obtain rfl : frames = [] := h
  rw [next, advance]

/-! ### All calls -/

lemma after_succ' (n : Nat) (w : Walk σ L r) :
    after m limits (n + 1) w = (next m limits (after m limits n w)).2 :=
  Function.iterate_succ_apply' ..

lemma after_of_result_none {n k : Nat} {w : Walk σ L r} (h : result m limits n w = none)
    (hk : n < k) :
    (after m limits k w).frames = [] ∧ after m limits k w = after m limits (n + 1) w := by
  obtain ⟨j, rfl⟩ := Nat.exists_eq_add_of_lt hk
  clear hk
  induction j with
  | zero =>
    rw [Nat.add_zero, after_succ']
    exact ⟨frames_of_next_none h, rfl⟩
  | succ j ih =>
    have hstays : after m limits (n + (j + 1) + 1) w = after m limits (n + j + 1) w := by
      rw [after_succ', ← Nat.add_assoc, next_of_frames_nil ih.1]
    rw [hstays]
    exact ih

lemma cuts_after {n : Nat} {w : Walk σ L r}
    (h : ∀ k < n, givesUp m limits (after m limits k w) = false) :
    Cuts m limits (after m limits n w) ↔ Cuts m limits w := by
  induction n with
  | zero => rfl
  | succ n ih =>
    rw [after_succ', next_eq abandons false]
    exact (cuts_advance m limits false 0 _ (h n n.lt_succ_self)).trans
      (ih fun k hk => h k (Nat.lt_succ_of_lt hk))

lemma cuts_begin : Cuts m limits (begin m) ↔ m.Extends limits.maxDepth m.start 1 := by
  have hstart := Machine.extendsThrough_arcs (m := m) (n := limits.maxDepth) (s := m.start)
    Weight.one_ne_zero
  simp only [Cuts, begin, enter, ReachesOf, Bool.false_eq_true, false_or, or_false]
  exact hstart

end Walk

/-- **What a finished walk says of cut paths.** After a call has given none, and no call has given
up, the walk says that a path was cut exactly if some path with `maxDepth` labels has a weight other
than zero. So it says so whenever some path is longer. -/
theorem Machine.isTruncated_iff (m : Machine σ L r) (limits : Limits) {n k : Nat}
    (hnone : Walk.result m limits n (.begin m) = none)
    (hsteps : ∀ i ≤ n, Walk.givesUp m limits (Walk.after m limits i (.begin m)) = false)
    (hk : n < k) :
    ((Walk.after m limits k (.begin m)).isTruncated = true ↔
        m.Extends limits.maxDepth m.start 1) ∧
      ((∃ i > limits.maxDepth, m.Extends i m.start 1) →
        (Walk.after m limits k (.begin m)).isTruncated = true) := by
  obtain ⟨hframes, hsame⟩ := Walk.after_of_result_none hnone hk
  have hcuts : Walk.Cuts m limits (Walk.after m limits k (.begin m)) ↔
      Walk.Cuts m limits (.begin m) := by
    rw [hsame]
    exact Walk.cuts_after fun i hi => hsteps i (Nat.le_of_lt_succ hi)
  have hended : (Walk.after m limits k (.begin m)).isTruncated = true ↔
      m.Extends limits.maxDepth m.start 1 := by
    rw [← Walk.cuts_begin, ← hcuts, Walk.Cuts, hframes, Walk.ReachesOf, or_false]
  refine ⟨hended, ?_⟩
  rintro ⟨i, hi, hlong⟩
  exact hended.2 (hlong.shorter (Nat.le_of_lt hi))

/-! ### A path that ends at the greatest depth -/

def oneArc : Acceptor .probability :=
  Automaton.new.call [.addState true, .addTransition ⟨0, 0⟩ ⟨1, 0⟩ (.concrete "a") 1]

lemma not_extends_oneArc : ¬ oneArc.machine.Extends 2 oneArc.machine.start 1 := by
  have hstart : (oneArc.machine.arcs oneArc.machine.start).toList =
      [⟨⟨1, 0⟩, .concrete "a", 1⟩] := by decide +kernel
  have hend : (oneArc.machine.arcs ⟨1, 0⟩).toList = [] := by decide +kernel
  rw [Machine.extends_succ, hstart]
  rintro ⟨x, hx, hrest⟩
  obtain rfl := List.mem_singleton.1 hx
  obtain ⟨y, hy, -⟩ := Machine.extends_succ.1 hrest
  rw [hend] at hy
  cases hy

/-- With room for two labels, nothing is said to be cut. -/
theorem isTruncated_oneArc :
    Walk.result oneArc.machine ⟨2, 5, 0⟩ 1 (.begin oneArc.machine) = none ∧
      (Walk.after oneArc.machine ⟨2, 5, 0⟩ 2 (.begin oneArc.machine)).isTruncated = false := by
  have hnone : Walk.result oneArc.machine ⟨2, 5, 0⟩ 1 (.begin oneArc.machine) = none := by
    decide +kernel
  have hsteps : ∀ i ≤ 1, Walk.givesUp oneArc.machine ⟨2, 5, 0⟩
      (Walk.after oneArc.machine ⟨2, 5, 0⟩ i (.begin oneArc.machine)) = false := by
    decide +kernel
  have hiff := (oneArc.machine.isTruncated_iff ⟨2, 5, 0⟩ hnone hsteps (Nat.lt_succ_self 1)).1
  exact ⟨hnone, Bool.eq_false_iff.2 fun h => not_extends_oneArc (hiff.1 h)⟩

/-- With room for one label, the walk finds the path to its end, and no path is longer. Still it
says that one was cut. -/
theorem truncated_oneArc :
    Walk.result oneArc.machine ⟨1, 5, 0⟩ 0 (.begin oneArc.machine) = some ⟨#[.concrete "a"], 1⟩ ∧
      Walk.result oneArc.machine ⟨1, 5, 0⟩ 1 (.begin oneArc.machine) = none ∧
      (∀ i ≤ 1, Walk.givesUp oneArc.machine ⟨1, 5, 0⟩
        (Walk.after oneArc.machine ⟨1, 5, 0⟩ i (.begin oneArc.machine)) = false) ∧
      (Walk.after oneArc.machine ⟨1, 5, 0⟩ 2 (.begin oneArc.machine)).isTruncated = true ∧
      ¬ ∃ i > 1, oneArc.machine.Extends i oneArc.machine.start 1 := by
  refine ⟨by decide +kernel, by decide +kernel, by decide +kernel, by decide +kernel, ?_⟩
  rintro ⟨i, hi, hlong⟩
  exact not_extends_oneArc (hlong.shorter hi)

end WeightedAutomata
