import WeightedAutomata.Proofs.Walk.Routes
import Mathlib.Logic.Function.Iterate

/-!
A walk finds the paths of a machine, each once and in depth-first order.

What a suspended walk has still to find can be read off its frames: what follows through the
pending arcs of the last state, then through those of the state before it, and so on back to the
start. Each call hands out the first of these paths and leaves a walk that is still to find the
others, unless it gives up.
-/

namespace WeightedAutomata

variable {σ L : Type} {r : Range}

/-! ### The paths that are still to be found -/

namespace Machine

variable (m : Machine σ L r)

/-- The path that ends in a state, if the state is final. -/
def pathsTo (s : σ) (labels : Array L) (w : Weight r) : List (Path L r) :=
  if m.isFinal s then [⟨labels, w⟩] else []

/-- The paths that go on from a state with at most `depth` more labels. -/
def pathsFrom : Nat → σ → Array L → Weight r → List (Path L r)
  | 0, s, labels, w => m.pathsTo s labels w
  | depth + 1, s, labels, w =>
    m.pathsTo s labels w ++ (m.arcs s).toList.flatMap fun x =>
      if w * x.weight = 0 then []
      else pathsFrom depth x.target (labels.push x.label) (w * x.weight)

/-- The paths that go on through one of the arcs with at most `depth` more labels. -/
def pathsThrough : Nat → List (Arc σ L r) → Array L → Weight r → List (Path L r)
  | 0, _, _, _ => []
  | depth + 1, xs, labels, w => xs.flatMap fun x =>
    if w * x.weight = 0 then []
    else m.pathsFrom depth x.target (labels.push x.label) (w * x.weight)

variable {m}

lemma pathsFrom_eq (depth : Nat) (s : σ) (labels : Array L) (w : Weight r) :
    m.pathsFrom depth s labels w =
      m.pathsTo s labels w ++ m.pathsThrough depth (m.arcs s).toList labels w := by
  cases depth with
  | zero => exact (List.append_nil _).symm
  | succ depth => rfl

lemma pathsThrough_nil (depth : Nat) (labels : Array L) (w : Weight r) :
    m.pathsThrough depth [] labels w = [] := by
  cases depth <;> rfl

lemma pathsThrough_cons (depth : Nat) (x : Arc σ L r) (xs : List (Arc σ L r)) (labels : Array L)
    (w : Weight r) : m.pathsThrough (depth + 1) (x :: xs) labels w =
      (if w * x.weight = 0 then []
        else m.pathsFrom depth x.target (labels.push x.label) (w * x.weight)) ++
      m.pathsThrough (depth + 1) xs labels w :=
  List.flatMap_cons

/-- The path on a route that goes on from a state. -/
def pathAlong (m : Machine σ L r) (s : σ) (labels : Array L) (w : Weight r) (route : List Nat) :
    Option (Path L r) :=
  (m.arcsAlong s route).map fun xs =>
    ⟨labels ++ (xs.map Arc.label).toArray, (xs.map Arc.weight).foldl (· * ·) w⟩

lemma pathAlong_cons {s : σ} {x : Arc σ L r} {i : Nat} (hx : (m.arcs s).toList[i]? = some x)
    (labels : Array L) (w : Weight r) (route : List Nat) :
    m.pathAlong s labels w (i :: route) =
      m.pathAlong x.target (labels.push x.label) (w * x.weight) route := by
  unfold pathAlong
  rw [arcsAlong, hx]
  simp only [Option.map_map]
  congr 1
  funext xs
  simp

lemma map_pathsTo (s : σ) (labels : Array L) (w : Weight r) : (m.pathsTo s labels w).map some =
    (if m.isFinal s then [[]] else []).map (m.pathAlong s labels w) := by
  unfold pathsTo
  split
  · simp [pathAlong, arcsAlong]
  · rfl

/-- **The paths are those on the routes**, in the same order. -/
lemma map_pathsFrom (depth : Nat) (s : σ) (labels : Array L) (w : Weight r) :
    (m.pathsFrom depth s labels w).map some =
      (m.routes depth s w).map (m.pathAlong s labels w) := by
  induction depth generalizing s labels w with
  | zero => exact map_pathsTo s labels w
  | succ depth ih =>
    have harcs : (m.arcs s).toList = (m.arcs s).toList.zipIdx.map Prod.fst :=
      (List.zipIdx_map_fst 0 _).symm
    rw [pathsFrom, routes, List.map_append, List.map_append, map_pathsTo, List.map_flatMap,
      List.map_flatMap, harcs, List.flatMap_map, ← harcs]
    congr 1
    refine List.flatMap_congr fun p hp => ?_
    have hx : (m.arcs s).toList[p.2]? = some p.1 := List.mk_mem_zipIdx_iff_getElem?.1 hp
    split
    · rfl
    · rw [ih, List.map_map]
      exact List.map_congr_left fun route _ => (pathAlong_cons hx labels w route).symm

lemma path?_eq (route : List Nat) : m.path? route = m.pathAlong m.start #[] 1 route := by
  unfold path? pathAlong
  simp [Weight.product]

end Machine

namespace Walk

variable (m : Machine σ L r) (limits : Limits)

/-- The path that ends in the state of a frame, if it is accepted and has not been handed out. -/
def pathHere (f : Frame σ L r) (labels : Array L) : List (Path L r) :=
  if f.isVisited then [] else m.pathsTo f.state labels f.weight

/-- The paths that frames have still to find: first those through the last state. -/
def aheadOf : List (Frame σ L r) → Array L → List (Path L r)
  | [], _ => []
  | f :: below, labels =>
    pathHere m f labels ++ (m.pathsThrough (limits.maxDepth - labels.size) (f.pending ()).toList
      labels f.weight ++ aheadOf below labels.pop)

def ahead (w : Walk σ L r) : List (Path L r) := aheadOf m limits w.frames w.labels

variable {m limits} in
lemma pathHere_eq_nil {f : Frame σ L r} (h : ¬ (!f.isVisited && m.isFinal f.state) = true)
    (labels : Array L) : pathHere m f labels = [] := by
  unfold pathHere Machine.pathsTo
  cases hvisited : f.isVisited <;> simp_all

variable {m limits} in
lemma aheadOf_pulled {f : Frame σ L r} {labels : Array L} {x : Arc σ L r}
    {later : Unit → LazyList (Arc σ L r)} (hhere : ¬ (!f.isVisited && m.isFinal f.state) = true)
    (hdepth : ¬ limits.maxDepth ≤ labels.size) (hpending : f.pending () = .cons x later)
    (below : List (Frame σ L r)) : aheadOf m limits (f :: below) labels =
      (if f.weight * x.weight = 0 then []
        else m.pathsFrom (limits.maxDepth - (labels.size + 1)) x.target (labels.push x.label)
          (f.weight * x.weight)) ++
      aheadOf m limits ({ f with pending := later, isVisited := true } :: below) labels := by
  rw [aheadOf, aheadOf, pathHere_eq_nil hhere, hpending, LazyList.toList_cons, room_eq hdepth,
    Machine.pathsThrough_cons, List.append_assoc]
  rfl

lemma aheadOf_enter (s : σ) (w : Weight r) (frames : List (Frame σ L r)) (labels : Array L)
    (l : L) : aheadOf m limits (enter m s w :: frames) (labels.push l) =
      m.pathsFrom (limits.maxDepth - (labels.size + 1)) s (labels.push l) w ++
        aheadOf m limits frames labels := by
  rw [aheadOf, Array.size_push, Array.pop_push, Machine.pathsFrom_eq, List.append_assoc]
  rfl

/-! ### One call -/

def tally : Nat → Occurrence σ → Nat
  | n, .pulled => n + 1
  | n, _ => n

/-- The number of arcs that the next call takes up. -/
def pulls (w : Walk σ L r) : Nat := (advance m limits tally 0 0 w).1

/-- The account does not influence the walk. -/
lemma advance_snd {β γ : Type} (note : β → Occurrence σ → β) (note' : γ → Occurrence σ → γ)
    (account : β) (account' : γ) (steps : UInt32) (w : Walk σ L r) :
    (advance m limits note account steps w).2 = (advance m limits note' account' steps w).2 := by
  fun_induction advance m limits note account steps w generalizing account' with
  | case1 => rw [advance]
  | case2 account steps f below labels cut depth hhere => rw [advance, if_pos hhere]
  | case3 account steps f below labels cut depth hhere hdepth _ ih =>
    rw [ih (if cut then account' else note' account' (.cut limits.maxDepth))]
    conv_rhs => rw [advance, if_neg hhere, if_pos hdepth]
  | case4 account steps f below labels cut depth hhere hdepth hpending ih =>
    rw [ih account']
    conv_rhs => rw [advance, if_neg hhere, if_neg hdepth, hpending]
  | case5 account steps f below labels cut depth hhere hdepth x later hpending _ hsteps =>
    conv_rhs => rw [advance, if_neg hhere, if_neg hdepth, hpending]
    simp only [if_pos hsteps]
  | case6 account steps f below labels cut depth hhere hdepth x later hpending _ hsteps weight _
      hzero ih =>
    rw [ih (note' account' .pulled)]
    conv_rhs => rw [advance, if_neg hhere, if_neg hdepth, hpending]
    simp only [if_neg hsteps]
    rw [if_pos hzero]
  | case7 account steps f below labels cut depth hhere hdepth x later hpending _ hsteps weight _
      hzero ih =>
    rw [ih (note' (note' account' .pulled) (.entered x.target))]
    conv_rhs => rw [advance, if_neg hhere, if_neg hdepth, hpending]
    simp only [if_neg hsteps]
    rw [if_neg hzero]

/-- What a search for the next path may come to, with the number of arcs that it has taken up: the
first of the paths ahead, or nothing because there are none or because that number is too great. -/
def Outcome (w : Walk σ L r) : Nat × Option (Path L r) × Walk σ L r → Prop
  | (_, some path, later) => ahead m limits w = path :: ahead m limits later
  | (n, none, _) => n ≤ limits.maxSteps → ahead m limits w = []

variable {m limits} in
lemma Outcome.congr {w w' : Walk σ L r} (h : ahead m limits w = ahead m limits w')
    {result : Nat × Option (Path L r) × Walk σ L r} (hresult : Outcome m limits w' result) :
    Outcome m limits w result := by
  obtain ⟨n, _ | path, later⟩ := result
  · exact fun hn => h.trans (hresult hn)
  · exact h.trans hresult

/-- The number of steps is the number of arcs taken up, as far as a word can tell. -/
lemma outcome_advance {account : Nat} {steps : UInt32} (haccount : UInt32.ofNat account = steps)
    (w : Walk σ L r) :
    Outcome m limits w (advance m limits tally account steps w) := by
  fun_induction advance m limits tally account steps w with
  | case1 => exact fun _ => rfl
  -- the frame's own state is final, and its path comes before those through its arcs
  | case2 account steps f below labels cut depth hhere =>
    obtain ⟨hunvisited, hfinal⟩ := Bool.and_eq_true_iff.1 hhere
    have hpath : pathHere m f labels = [⟨labels, f.weight⟩] := by
      unfold pathHere Machine.pathsTo
      simp_all
    change aheadOf m limits (f :: below) labels = _
    rw [aheadOf, hpath]
    rfl
  | case3 account steps f below labels cut depth hhere hdepth _ ih =>
    refine Outcome.congr ?_ (ih ?_)
    · change aheadOf m limits (f :: below) labels = aheadOf m limits below labels.pop
      have hnone : limits.maxDepth - labels.size = 0 := Nat.sub_eq_zero_of_le hdepth
      rw [aheadOf, pathHere_eq_nil hhere, hnone]
      rfl
    · rw [← haccount]
      exact congrArg UInt32.ofNat (ite_self account)
  | case4 account steps f below labels cut depth hhere hdepth hpending ih =>
    refine Outcome.congr ?_ (ih haccount)
    change aheadOf m limits (f :: below) labels = aheadOf m limits below labels.pop
    rw [aheadOf, pathHere_eq_nil hhere, hpending, LazyList.toList_nil, Machine.pathsThrough_nil]
    rfl
  -- given up: the account is past the limit, so nothing is claimed about what is left
  | case5 account steps f below labels cut depth hhere hdepth x later hpending _ hsteps =>
    intro hn
    have hword : (UInt32.ofNat (account + 1)).toNat ≤ account + 1 := by
      rw [UInt32.toNat_ofNat']
      exact Nat.mod_le ..
    rw [← haccount, ← UInt32.ofNat_one, ← UInt32.ofNat_add] at hsteps
    change account + 1 ≤ _ at hn
    omega
  -- the arc leads to weight zero, so no path runs through it
  | case6 account steps f below labels cut depth hhere hdepth x later hpending _ hsteps weight _
      hzero ih =>
    refine Outcome.congr ?_ (ih (haccount ▸ UInt32.ofNat_add account 1))
    change aheadOf m limits (f :: below) labels = aheadOf m limits (_ :: below) labels
    rw [aheadOf_pulled hhere hdepth hpending, if_pos (of_decide_eq_true hzero), List.nil_append]
  | case7 account steps f below labels cut depth hhere hdepth x later hpending _ hsteps weight _
      hzero ih =>
    refine Outcome.congr ?_ (ih (haccount ▸ UInt32.ofNat_add account 1))
    change aheadOf m limits (f :: below) labels =
      aheadOf m limits (enter m x.target weight :: _ :: below) (labels.push x.label)
    rw [aheadOf_pulled hhere hdepth hpending, aheadOf_enter,
      if_neg fun hc => hzero (decide_eq_true hc)]

/-! ### All calls -/

/-- The first call gives the first of the paths ahead, or none if it takes up too many arcs. -/
lemma outcome_next (w : Walk σ L r) : Outcome m limits w (pulls m limits w, next m limits w) := by
  have hnext : next m limits w = (advance m limits tally 0 0 w).2 :=
    advance_snd m limits _ _ _ _ _ w
  rw [hnext]
  exact outcome_advance m limits rfl w

def after (n : Nat) (w : Walk σ L r) : Walk σ L r := (fun w => (next m limits w).2)^[n] w

def result (n : Nat) (w : Walk σ L r) : Option (Path L r) := (next m limits (after m limits n w)).1

section Calls

variable {m limits} {w later : Walk σ L r} {found : Option (Path L r)}

lemma after_succ (h : next m limits w = (found, later)) (n : Nat) :
    after m limits (n + 1) w = after m limits n later :=
  congrArg (fun call : _ × Walk σ L r => after m limits n call.2) h

lemma result_zero (h : next m limits w = (found, later)) : result m limits 0 w = found :=
  congrArg Prod.fst h

lemma result_succ (h : next m limits w = (found, later)) (n : Nat) :
    result m limits (n + 1) w = result m limits n later := by
  unfold result
  rw [after_succ h]

end Calls

/-- Up to the first call that gives none, the calls give the paths ahead, one after the other. -/
lemma exists_results (w : Walk σ L r) : ∃ n ≤ (ahead m limits w).length,
    (∀ k < n, result m limits k w = (ahead m limits w)[k]?) ∧ result m limits n w = none ∧
      (pulls m limits (after m limits n w) ≤ limits.maxSteps → n = (ahead m limits w).length) := by
  generalize hpaths : ahead m limits w = paths
  -- by induction on the paths ahead: a call that gives one leaves a walk with the others ahead
  induction paths generalizing w with
  | nil =>
    have hfirst := outcome_next m limits w
    cases hnext : next m limits w with
    | mk found later =>
      rw [hnext] at hfirst
      cases found with
      | some path => cases hpaths.symm.trans hfirst
      | none =>
        exact ⟨0, Nat.le_refl 0, fun k hk => absurd hk (Nat.not_lt_zero k), result_zero hnext,
          fun _ => rfl⟩
  | cons path paths ih =>
    have hfirst := outcome_next m limits w
    cases hnext : next m limits w with
    | mk found later =>
      rw [hnext] at hfirst
      cases found with
      | some path' =>
        obtain ⟨rfl, hlater⟩ := List.cons.inj (hpaths.symm.trans hfirst)
        obtain ⟨n, hn, hresults, hnone, hall⟩ := ih later hlater.symm
        refine ⟨n + 1, Nat.succ_le_succ hn, fun k hk => ?_, ?_, ?_⟩
        · cases k with
          | zero => exact result_zero hnext
          | succ k =>
            rw [result_succ hnext]
            exact hresults k (Nat.lt_of_succ_lt_succ hk)
        · rw [result_succ hnext]
          exact hnone
        · rw [after_succ hnext]
          exact fun hpulls => congrArg (· + 1) (hall hpulls)
      | none =>
        refine ⟨0, Nat.zero_le _, fun k hk => absurd hk (Nat.not_lt_zero k), result_zero hnext,
          fun hpulls => ?_⟩
        cases hpaths.symm.trans (hfirst hpulls)

end Walk

/-- **A walk finds every path once and in depth-first order.** The routes of at most `maxDepth`
arcs to final states with a weight other than zero can be listed in their order. Up to the first
call that gives none, the calls give the paths on these routes one after the other, and they give
all of them unless that call has taken up more than `maxSteps` arcs. -/
theorem Machine.enumeration_exact (m : Machine σ L r) (limits : Limits) :
    ∃ routes : List (List Nat), routes.Pairwise (· < ·) ∧
      (∀ route, route ∈ routes ↔ m.Admissible limits.maxDepth route) ∧
      ∃ n ≤ routes.length,
        (∀ k < n, Walk.result m limits k (.begin m) = routes[k]?.bind m.path?) ∧
        Walk.result m limits n (.begin m) = none ∧
        (Walk.pulls m limits (Walk.after m limits n (.begin m)) ≤ limits.maxSteps →
          n = routes.length) := by
  refine ⟨m.routes limits.maxDepth m.start 1, pairwise_routes _ _ _,
    fun route => mem_routes Weight.one_ne_zero, ?_⟩
  have hahead : Walk.ahead m limits (.begin m) = m.pathsFrom limits.maxDepth m.start #[] 1 := by
    rw [pathsFrom_eq]
    exact congrArg _ (List.append_nil _)
  have hpaths := map_pathsFrom limits.maxDepth m.start #[] (1 : Weight r) (m := m)
  rw [← hahead] at hpaths
  have hlength := congrArg List.length hpaths
  rw [List.length_map, List.length_map] at hlength
  obtain ⟨n, hn, hresults, hnone, hall⟩ := Walk.exists_results m limits (.begin m)
  rw [hlength] at hn hall
  refine ⟨n, hn, fun k hk => ?_, hnone, hall⟩
  have hk' := congrArg (·[k]?) hpaths
  simp only [List.getElem?_map, ← funext path?_eq] at hk'
  rw [hresults k hk]
  cases hpath : (Walk.ahead m limits (.begin m))[k]? with
  | none =>
    rw [hpath] at hk'
    rw [Option.map_eq_none_iff.1 hk'.symm]
    rfl
  | some path =>
    rw [hpath] at hk'
    obtain ⟨route, hroute, hread⟩ := Option.map_eq_some_iff.1 hk'.symm
    rw [hroute]
    exact hread.symm

end WeightedAutomata
