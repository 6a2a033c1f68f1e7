import Mathlib.Algebra.GroupWithZero.Nat
import WeightedAutomata.Proofs.Walk.Truncation

/-!
How much one call of a walk does.

There is one frame more than there are labels, and there are at most as many labels as the greatest
depth. The arcs that a call takes up are counted before the count is compared, so a call gives up at
the first arc beyond the limit, provided that a word can hold one more than the limit. With the
greatest limit that a word can hold, the count comes round to zero and no call ever gives up. What
bounds the calls then is that each of them takes its arcs out of those that are ahead of it.
-/

namespace WeightedAutomata

variable {σ L : Type} {r : Range}

/-- The number of arcs that a search takes up where it follows these arcs with at most `depth` more
labels. An arc that makes the weight zero is taken up, but not followed. -/
def Machine.arcsThrough (m : Machine σ L r) : Nat → List (Arc σ L r) → Weight r → Nat
  | 0, _, _ => 0
  | depth + 1, xs, w => (xs.map fun x =>
      1 + if w * x.weight = 0 then 0
        else m.arcsThrough depth (m.arcs x.target).toList (w * x.weight)).sum

lemma Machine.arcsThrough_nil (m : Machine σ L r) (depth : Nat) (w : Weight r) :
    m.arcsThrough depth [] w = 0 := by
  cases depth <;> rfl

namespace Walk

variable {m : Machine σ L r} {limits : Limits}

/-! ### Frames and labels -/

/-- While the walk goes on, there is one frame more than there are labels, and there are no more
labels than the greatest depth. -/
def Stacked (limits : Limits) (w : Walk σ L r) : Prop :=
  w.frames ≠ [] → w.frames.length = w.labels.size + 1 ∧ w.labels.size ≤ limits.maxDepth

lemma stacked_begin : Stacked limits (begin m) :=
  fun _ => ⟨rfl, Nat.zero_le _⟩

lemma Stacked.left {f : Frame σ L r} {below : List (Frame σ L r)} {labels : Array L} {cut : Bool}
    (h : Stacked limits ⟨f :: below, labels, cut⟩) (cut' : Bool) :
    Stacked limits ⟨below, labels.pop, cut'⟩ := by
  intro hbelow
  obtain ⟨hframes, hdepth⟩ := h (List.cons_ne_nil f below)
  have hpositive : 0 < below.length := List.length_pos_iff.2 hbelow
  simp only [List.length_cons, Array.size_pop] at hframes hdepth ⊢
  omega

lemma Stacked.entered {f f' g : Frame σ L r} {below : List (Frame σ L r)} {labels : Array L}
    {cut : Bool} (h : Stacked limits ⟨f :: below, labels, cut⟩)
    (hdepth : ¬ limits.maxDepth ≤ labels.size) (l : L) :
    Stacked limits ⟨g :: f' :: below, labels.push l, cut⟩ := by
  intro _
  have hframes := (h (List.cons_ne_nil f below)).1
  simp only [List.length_cons, Array.size_push] at hframes ⊢
  omega

/-- Every step of a search keeps the frames in line with the labels. -/
lemma Stacked.advance {β : Type} {note : β → Occurrence σ → β} {account : β} {steps : UInt32}
    {w : Walk σ L r} (h : Stacked limits w) :
    Stacked limits (advance m limits note account steps w).2.2 := by
  fun_induction Walk.advance m limits note account steps w with
  | case1 => exact h
  | case2 => exact fun _ => h (List.cons_ne_nil _ _)
  -- a frame that is left takes its label with it
  | case3 account steps f below labels cut depth hhere hdepth _ ih => exact ih (h.left true)
  | case4 account steps f below labels cut depth hhere hdepth hpending ih => exact ih (h.left cut)
  | case5 => exact fun hnil => absurd rfl hnil
  | case6 account steps f below labels cut depth hhere hdepth x later hpending _ _ weight _ _ ih =>
    exact ih fun _ => h (List.cons_ne_nil f below)
  | case7 account steps f below labels cut depth hhere hdepth x later hpending _ _ weight _ _ ih =>
    -- a frame that is entered brings one, and there was room for it
    exact ih (h.entered hdepth x.label)

lemma stacked_after (n : Nat) {w : Walk σ L r} (h : Stacked limits w) :
    Stacked limits (after m limits n w) := by
  induction n with
  | zero => exact h
  | succ n ih =>
    rw [after_succ']
    exact ih.advance

/-! ### Limits that a word can count beyond -/

/-- A count within such a limit goes up by one without coming round. -/
lemma toNat_add_one {steps : UInt32} (h : steps.toNat + 1 < 2 ^ 32) :
    (steps + 1).toNat = steps.toNat + 1 := by
  rw [UInt32.toNat_add]
  exact Nat.mod_eq_of_lt h

/-- A search takes up one arc more than the limit at most, and then it finds nothing. -/
lemma advance_within (hlimit : limits.maxSteps + 1 < 2 ^ 32) {account : Nat} {steps : UInt32}
    (haccount : account = steps.toNat) (hsteps : account ≤ limits.maxSteps) (w : Walk σ L r) :
    (advance m limits tally account steps w).1 ≤ limits.maxSteps + 1 ∧
      ((advance m limits tally account steps w).1 = limits.maxSteps + 1 →
        (advance m limits tally account steps w).2.1 = none) := by
  fun_induction advance m limits tally account steps w with
  | case1 => exact ⟨Nat.le_succ_of_le hsteps, fun _ => rfl⟩
  | case2 account =>
    have hless : account < limits.maxSteps + 1 := Nat.lt_succ_of_le hsteps
    exact ⟨Nat.le_of_lt hless, fun heq => absurd heq (Nat.ne_of_lt hless)⟩
  | case3 account steps f below labels cut depth hhere hdepth noted ih =>
    have hsame : noted = account := ite_self account
    exact ih (hsame.trans haccount) (hsame.trans_le hsteps)
  | case4 account steps f below labels cut depth hhere hdepth hpending ih =>
    exact ih haccount hsteps
  -- the arc that passes the limit is counted, and nothing is returned
  | case5 => exact ⟨Nat.succ_le_succ hsteps, fun _ => rfl⟩
  | case6 account steps f below labels cut depth hhere hdepth x later hpending _ hmore weight _ _
      ih =>
    have hnext : (steps + 1).toNat = account + 1 := by rw [toNat_add_one (by omega), haccount]
    have hwithin : account + 1 ≤ limits.maxSteps := hnext ▸ Nat.le_of_not_lt hmore
    exact ih hnext.symm hwithin
  | case7 account steps f below labels cut depth hhere hdepth x later hpending _ hmore weight _ _
      ih =>
    have hnext : (steps + 1).toNat = account + 1 := by rw [toNat_add_one (by omega), haccount]
    have hwithin : account + 1 ≤ limits.maxSteps := hnext ▸ Nat.le_of_not_lt hmore
    exact ih hnext.symm hwithin

lemma next_within (hlimit : limits.maxSteps + 1 < 2 ^ 32) (w : Walk σ L r) :
    pulls m limits w ≤ limits.maxSteps + 1 ∧
      (pulls m limits w = limits.maxSteps + 1 → (next m limits w).1 = none) := by
  have hzero : 0 = (0 : UInt32).toNat := rfl
  rw [next_eq tally 0]
  exact advance_within hlimit hzero (Nat.zero_le _) w

/-! ### Limits that a word cannot count beyond -/

lemma not_exceeded (hlimit : 2 ^ 32 ≤ limits.maxSteps + 1) (steps : UInt32) :
    ¬ limits.maxSteps < steps.toNat := by
  have hword : steps.toNat < 2 ^ 32 := steps.toNat_lt
  omega

lemma advance_abandons (hlimit : 2 ^ 32 ≤ limits.maxSteps + 1) (account : Bool) (steps : UInt32)
    (w : Walk σ L r) : (advance m limits abandons account steps w).1 = account := by
  fun_induction advance m limits abandons account steps w
  case case1 | case2 => rfl
  case case3 ih => exact ih.trans (ite_self _)
  case case4 ih | case6 ih | case7 ih => exact ih
  case case5 hmore => exact absurd hmore (not_exceeded hlimit _)

variable (m limits)

/-- The number of arcs that frames have still to take up. -/
def arcsOf : List (Frame σ L r) → Array L → Nat
  | [], _ => 0
  | f :: below, labels =>
    m.arcsThrough (limits.maxDepth - labels.size) (f.pending ()).toList f.weight +
      arcsOf below labels.pop

/-- The number of arcs that a walk has still to take up, if it is never given up. -/
def arcsAhead (w : Walk σ L r) : Nat := arcsOf m limits w.frames w.labels

variable {m limits}

lemma arcsOf_pulled {f : Frame σ L r} {labels : Array L} {x : Arc σ L r}
    {later : Unit → LazyList (Arc σ L r)} (hdepth : ¬ limits.maxDepth ≤ labels.size)
    (hpending : f.pending () = .cons x later) (below : List (Frame σ L r)) :
    arcsOf m limits (f :: below) labels =
      1 + (if f.weight * x.weight = 0 then 0
        else m.arcsThrough (limits.maxDepth - (labels.size + 1)) (m.arcs x.target).toList
          (f.weight * x.weight)) +
      arcsOf m limits ({ f with pending := later, isVisited := true } :: below) labels := by
  rw [arcsOf, arcsOf, hpending, LazyList.toList_cons, room_eq hdepth, Machine.arcsThrough,
    Machine.arcsThrough, List.map_cons, List.sum_cons]
  dsimp only
  omega

lemma arcsOf_enter (s : σ) (w : Weight r) (frames : List (Frame σ L r)) (labels : Array L)
    (l : L) : arcsOf m limits (enter m s w :: frames) (labels.push l) =
      m.arcsThrough (limits.maxDepth - (labels.size + 1)) (m.arcs s).toList w +
        arcsOf m limits frames labels := by
  rw [arcsOf, Array.size_push, Array.pop_push]
  rfl

/-- The arcs that a search takes up are no longer ahead of it. -/
lemma advance_conserves (hlimit : 2 ^ 32 ≤ limits.maxSteps + 1) (account : Nat) (steps : UInt32)
    (w : Walk σ L r) :
    (advance m limits tally account steps w).1 +
        arcsAhead m limits (advance m limits tally account steps w).2.2 =
      account + arcsAhead m limits w := by
  fun_induction advance m limits tally account steps w with
  | case1 => rfl
  | case2 => rfl
  | case3 account steps f below labels cut depth hhere hdepth noted ih =>
    have hsame : noted = account := ite_self account
    have hnone : limits.maxDepth - labels.size = 0 := Nat.sub_eq_zero_of_le hdepth
    have hahead : arcsOf m limits (f :: below) labels = arcsOf m limits below labels.pop := by
      rw [arcsOf, hnone]
      exact Nat.zero_add _
    rw [ih, hsame]
    exact congrArg (account + ·) hahead.symm
  | case4 account steps f below labels cut depth hhere hdepth hpending ih =>
    have hahead : arcsOf m limits (f :: below) labels = arcsOf m limits below labels.pop := by
      rw [arcsOf, hpending, LazyList.toList_nil, Machine.arcsThrough_nil]
      exact Nat.zero_add _
    rw [ih]
    exact congrArg (account + ·) hahead.symm
  -- the counter wraps before it passes the limit
  | case5 account steps f below labels cut depth hhere hdepth x later hpending _ hmore =>
    exact absurd hmore (not_exceeded hlimit _)
  -- an arc of weight zero counts and leads nowhere
  | case6 account steps f below labels cut depth hhere hdepth x later hpending _ _ weight _ hzero
      ih =>
    have hahead := arcsOf_pulled (m := m) hdepth hpending below
    rw [if_pos (of_decide_eq_true hzero)] at hahead
    change _ = account + arcsOf m limits (f :: below) labels
    rw [ih, hahead, ← Nat.add_assoc]
    rfl
  -- what was ahead through the arc is now ahead in the new frame
  | case7 account steps f below labels cut depth hhere hdepth x later hpending _ _ weight _ hzero
      ih =>
    have hahead := arcsOf_pulled (m := m) hdepth hpending below
    rw [if_neg fun h => hzero (decide_eq_true h), Nat.add_assoc, ← arcsOf_enter _ _ _ _ x.label]
      at hahead
    change _ = account + arcsOf m limits (f :: below) labels
    rw [ih, hahead, ← Nat.add_assoc]
    rfl

lemma pulls_add_arcsAhead (hlimit : 2 ^ 32 ≤ limits.maxSteps + 1) (w : Walk σ L r) :
    pulls m limits w + arcsAhead m limits (next m limits w).2 = arcsAhead m limits w := by
  rw [next_eq tally 0]
  exact (advance_conserves hlimit 0 0 w).trans (Nat.zero_add _)

/-- Where no path is ahead, a call takes up all arcs. -/
lemma pulls_of_ahead_nil (hlimit : 2 ^ 32 ≤ limits.maxSteps + 1) {w : Walk σ L r}
    (h : ahead m limits w = []) : pulls m limits w = arcsAhead m limits w := by
  have hfirst := outcome_next m limits w
  have hnone : (next m limits w).1 = none := by
    cases hnext : next m limits w with
    | mk found later =>
      rw [hnext] at hfirst
      cases found with
      | none => rfl
      | some path => cases h.symm.trans hfirst
  rw [← pulls_add_arcsAhead hlimit w, arcsAhead, frames_of_next_none hnone]
  rfl

lemma ahead_begin :
    ahead m limits (begin m) = m.pathsFrom limits.maxDepth m.start #[] 1 := by
  rw [Machine.pathsFrom_eq]
  exact congrArg _ (List.append_nil _)

lemma arcsAhead_begin : arcsAhead m limits (begin m) =
    m.arcsThrough limits.maxDepth (m.arcs m.start).toList 1 :=
  Nat.add_zero _

lemma arcsAhead_after_le (hlimit : 2 ^ 32 ≤ limits.maxSteps + 1) (n : Nat) (w : Walk σ L r) :
    arcsAhead m limits (after m limits n w) ≤ arcsAhead m limits w := by
  induction n with
  | zero => exact Nat.le_refl _
  | succ n ih =>
    have hcall := pulls_add_arcsAhead (m := m) hlimit (after m limits n w)
    rw [after_succ']
    omega

end Walk

/-- **Every call of a walk is bounded.** Between calls, as long as the walk goes on, there is one
frame more than there are labels, and no more than `maxDepth + 1` frames. A call takes up at most
`maxSteps + 1` arcs, and one that takes up as many gives none, as do all later ones, if `maxSteps`
is less than the greatest number that a word holds. Otherwise no call gives up, and all that bounds
it is the number of arcs that can be followed within the depth. -/
theorem Machine.calls_bounded (m : Machine σ L r) (limits : Limits) (n : Nat) :
    ((Walk.after m limits n (.begin m)).frames ≠ [] →
        (Walk.after m limits n (.begin m)).frames.length =
            (Walk.after m limits n (.begin m)).labels.size + 1 ∧
          (Walk.after m limits n (.begin m)).frames.length ≤ limits.maxDepth + 1) ∧
      (limits.maxSteps < 2 ^ 32 - 1 →
        Walk.pulls m limits (Walk.after m limits n (.begin m)) ≤ limits.maxSteps + 1 ∧
          (Walk.pulls m limits (Walk.after m limits n (.begin m)) = limits.maxSteps + 1 →
            ∀ k ≥ n, Walk.result m limits k (.begin m) = none)) ∧
      (2 ^ 32 - 1 ≤ limits.maxSteps →
        Walk.givesUp m limits (Walk.after m limits n (.begin m)) = false ∧
          Walk.pulls m limits (Walk.after m limits n (.begin m)) ≤
            m.arcsThrough limits.maxDepth (m.arcs m.start).toList 1) := by
  refine ⟨fun hframes => ?_, fun hlimit => ?_, fun hlimit => ?_⟩
  · have hbegin : Walk.Stacked limits (.begin m) := Walk.stacked_begin
    have hstacked := Walk.stacked_after n hbegin hframes
    exact ⟨hstacked.1, by omega⟩
  · -- the counter stays within its word, so it tells when the limit is passed
    have hword : limits.maxSteps + 1 < 2 ^ 32 := by omega
    have hcall := Walk.next_within (m := m) hword (Walk.after m limits n (.begin m))
    refine ⟨hcall.1, fun hpulls k hk => ?_⟩
    have hnone : Walk.result m limits n (.begin m) = none := hcall.2 hpulls
    rcases Nat.eq_or_lt_of_le hk with rfl | hlater
    · exact hnone
    · have hframes := (Walk.after_of_result_none hnone hlater).1
      rw [Walk.result, Walk.next_of_frames_nil hframes]
  · -- the word is too short for the limit, but the arcs within the depth are finitely many
    have hword : 2 ^ 32 ≤ limits.maxSteps + 1 := by omega
    have hcall := Walk.pulls_add_arcsAhead (m := m) hword (Walk.after m limits n (.begin m))
    have hahead := Walk.arcsAhead_after_le (m := m) hword n (.begin m)
    rw [Walk.arcsAhead_begin] at hahead
    exact ⟨Walk.advance_abandons hword _ _ _, by omega⟩

/-! ### A count that comes round -/

/-- Sixteen silent loops at a start that is not final. -/
def silentLoops : Acceptor .probability :=
  Automaton.new.call (List.replicate 16 (.addTransition ⟨0, 0⟩ ⟨0, 0⟩ .epsilon 1))

lemma arcs_silentLoops : (silentLoops.machine.arcs silentLoops.machine.start).toList =
    List.replicate 16 ⟨silentLoops.machine.start, .epsilon, 1⟩ := by
  decide +kernel

/-- With a limit of three, the first call gives up at the fourth arc, and no call finds a path. -/
theorem calls_bounded_silentLoops :
    Walk.pulls silentLoops.machine ⟨8, 3, 0⟩ (.begin silentLoops.machine) = 4 ∧
      ∀ k, Walk.result silentLoops.machine ⟨8, 3, 0⟩ k (.begin silentLoops.machine) = none := by
  have hpulls : Walk.pulls silentLoops.machine ⟨8, 3, 0⟩ (.begin silentLoops.machine) = 4 := by
    decide +kernel
  have hbounded := (silentLoops.machine.calls_bounded ⟨8, 3, 0⟩ 0).2.1 (by decide)
  exact ⟨hpulls, fun k => hbounded.2 hpulls k (Nat.zero_le k)⟩

lemma pathsFrom_silentLoops (depth : Nat) (labels : Array Letter) :
    silentLoops.machine.pathsFrom depth silentLoops.machine.start labels 1 = [] := by
  have hend : ∀ labels, silentLoops.machine.pathsTo silentLoops.machine.start labels 1 = [] :=
    fun labels => if_neg (by decide +kernel)
  induction depth generalizing labels with
  | zero => exact hend labels
  | succ depth ih =>
    rw [Machine.pathsFrom, hend, arcs_silentLoops]
    simp [ih]

/-- Each label that a path may have multiplies the arcs by the number of the loops. -/
lemma arcsThrough_silentLoops (depth : Nat) :
    silentLoops.machine.arcsThrough (depth + 1)
        (silentLoops.machine.arcs silentLoops.machine.start).toList 1 =
      16 * (1 + silentLoops.machine.arcsThrough depth
        (silentLoops.machine.arcs silentLoops.machine.start).toList 1) := by
  rw [Machine.arcsThrough]
  nth_rewrite 1 [arcs_silentLoops]
  rw [List.map_replicate, List.sum_replicate, mul_one, if_neg Weight.one_ne_zero]
  rfl

/-- With the greatest limit that a word can hold, a call takes up more than one arc beyond it. -/
theorem pulls_silentLoops : 2 ^ 32 - 1 + 1 < Walk.pulls silentLoops.machine ⟨8, 2 ^ 32 - 1, 0⟩
    (.begin silentLoops.machine) := by
  have hword : 2 ^ 32 ≤ (⟨8, 2 ^ 32 - 1, 0⟩ : Limits).maxSteps + 1 := by decide
  have hpaths : Walk.ahead silentLoops.machine ⟨8, 2 ^ 32 - 1, 0⟩ (.begin silentLoops.machine) =
      [] := by
    rw [Walk.ahead_begin]
    exact pathsFrom_silentLoops _ _
  rw [Walk.pulls_of_ahead_nil hword hpaths, Walk.arcsAhead_begin]
  simp only [arcsThrough_silentLoops]
  rw [Machine.arcsThrough]
  decide

end WeightedAutomata
