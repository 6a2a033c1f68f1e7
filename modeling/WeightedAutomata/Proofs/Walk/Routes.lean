import WeightedAutomata.Arena.Lemmas
import WeightedAutomata.Proofs.Probability
import WeightedAutomata.Walk
import Mathlib.Data.List.Pairwise
import Mathlib.Order.Basic

/-!
The paths of a machine that a walk is to find, in the order in which it is to find them.

A path is known by its route: the position of each of its arcs among the arcs of the state that the
arc leaves. So parallel arcs give different routes, and the order of routes, position by position,
is the order of a depth-first search: a route comes before its extensions, and extensions come in
the order of the arcs by which they differ first.
-/

namespace WeightedAutomata.Machine

variable {σ L : Type} {r : Range} (m : Machine σ L r)

def arcsAlong : σ → List Nat → Option (List (Arc σ L r))
  | _, [] => some []
  | s, i :: route =>
    match (m.arcs s).toList[i]? with
    | none => none
    | some x => (arcsAlong x.target route).map (x :: ·)

def endOf : σ → List (Arc σ L r) → σ
  | s, [] => s
  | _, x :: xs => endOf x.target xs

/-- The path on a route from the start: its labels, and the product of its weights. -/
def path? (route : List Nat) : Option (Path L r) :=
  (m.arcsAlong m.start route).map fun xs =>
    ⟨(xs.map Arc.label).toArray, Weight.product (xs.map Arc.weight)⟩

/-- The route leads from the start to a final state, with at most `depth` labels and a weight other
than zero. -/
def Admissible (depth : Nat) (route : List Nat) : Prop :=
  route.length ≤ depth ∧ ∃ xs, m.arcsAlong m.start route = some xs ∧
    m.isFinal (endOf m.start xs) ∧ Weight.product (xs.map Arc.weight) ≠ 0

/-! ### The routes one after the other -/

/-- The routes from a state to final states, of at most `depth` arcs, that keep a weight `w` from
becoming zero. -/
def routes : Nat → σ → Weight r → List (List Nat)
  | 0, s, _ => if m.isFinal s then [[]] else []
  | depth + 1, s, w =>
    (if m.isFinal s then [[]] else []) ++ (m.arcs s).toList.zipIdx.flatMap fun p =>
      if w * p.1.weight = 0 then []
      else (routes depth p.1.target (w * p.1.weight)).map (p.2 :: ·)

lemma nil_mem_ite {p : Bool} {route : List Nat} :
    route ∈ (if p then [[]] else []) ↔ p ∧ route = [] := by
  cases p <;> simp

lemma foldl_zero_mul (ws : List (Weight r)) : ws.foldl (· * ·) 0 = 0 := by
  induction ws with
  | nil => rfl
  | cons w ws ih => rw [List.foldl_cons, zero_mul, ih]

variable {m}

lemma cons_mem_routes {depth : Nat} {s : σ} {w : Weight r} {i : Nat} {route : List Nat} :
    i :: route ∈ m.routes (depth + 1) s w ↔ ∃ x, (m.arcs s).toList[i]? = some x ∧
      w * x.weight ≠ 0 ∧ route ∈ m.routes depth x.target (w * x.weight) := by
  rw [routes, List.mem_append, nil_mem_ite, List.mem_flatMap]
  constructor
  · rintro (⟨-, ⟨⟩⟩ | ⟨⟨x, j⟩, hx, hmem⟩)
    rw [List.mk_mem_zipIdx_iff_getElem?] at hx
    split at hmem
    next => cases hmem
    next hw =>
      obtain ⟨route', hroute, heq⟩ := List.mem_map.1 hmem
      cases heq
      exact ⟨x, hx, hw, hroute⟩
  · rintro ⟨x, hx, hw, hroute⟩
    refine Or.inr ⟨(x, i), List.mk_mem_zipIdx_iff_getElem?.2 hx, ?_⟩
    rw [if_neg hw]
    exact List.mem_map_of_mem hroute

/-- **The routes are those that lead to a final state** and keep the weight from becoming zero. -/
lemma mem_routes {depth : Nat} {s : σ} {w : Weight r} (hw : w ≠ 0) {route : List Nat} :
    route ∈ m.routes depth s w ↔ route.length ≤ depth ∧ ∃ xs, m.arcsAlong s route = some xs ∧
      m.isFinal (endOf s xs) ∧ (xs.map Arc.weight).foldl (· * ·) w ≠ 0 := by
  induction route generalizing depth s w with
  | nil =>
    have hnil : [] ∈ m.routes depth s w ↔ m.isFinal s := by
      cases depth with
      | zero => rw [routes, nil_mem_ite]; simp
      | succ depth =>
        rw [routes, List.mem_append, nil_mem_ite]
        simp only [and_true, or_iff_left_iff_imp, List.mem_flatMap]
        rintro ⟨p, -, hmem⟩
        split at hmem <;> simp at hmem
    rw [hnil]
    simp [arcsAlong, endOf, hw]
  | cons i route ih =>
    cases depth with
    | zero =>
      rw [routes, nil_mem_ite]
      simp
    | succ depth =>
      rw [cons_mem_routes]
      constructor
      · rintro ⟨x, hx, hwx, hroute⟩
        obtain ⟨hlength, xs, hxs, hfinal, hweight⟩ := (ih hwx).1 hroute
        refine ⟨Nat.succ_le_succ hlength, x :: xs, ?_, hfinal, hweight⟩
        rw [arcsAlong, hx]
        simp only [hxs, Option.map_some]
      · rintro ⟨hlength, xs, hxs, hfinal, hweight⟩
        rw [arcsAlong] at hxs
        cases hx : (m.arcs s).toList[i]? with
        | none => rw [hx] at hxs; cases hxs
        | some x =>
          rw [hx] at hxs
          obtain ⟨xs, hrest, rfl⟩ := Option.map_eq_some_iff.1 hxs
          have hwx : w * x.weight ≠ 0 := by
            intro hzero
            rw [List.map_cons, List.foldl_cons, hzero] at hweight
            exact hweight (foldl_zero_mul _)
          exact ⟨x, rfl, hwx, (ih hwx).2
            ⟨Nat.le_of_succ_le_succ hlength, xs, hrest, hfinal, hweight⟩⟩

/-- Every route is listed once, after those that come before it. -/
lemma pairwise_routes (depth : Nat) (s : σ) (w : Weight r) :
    (m.routes depth s w).Pairwise (· < ·) := by
  induction depth generalizing s w with
  | zero =>
    rw [routes]
    split <;> simp
  | succ depth ih =>
    rw [routes, List.pairwise_append]
    refine ⟨by split <;> simp, List.pairwise_flatMap.2 ⟨fun p _ => ?_, ?_⟩, ?_⟩
    · split
      · exact List.Pairwise.nil
      · rw [List.pairwise_map]
        exact (ih _ _).imp fun h => List.cons_lt_cons_self.2 h
    · refine (Arena.pairwise_zipIdx _).imp fun {p q} hlt route hroute route' hroute' => ?_
      split at hroute
      · cases hroute
      · split at hroute'
        · cases hroute'
        · obtain ⟨a, -, rfl⟩ := List.mem_map.1 hroute
          obtain ⟨b, -, rfl⟩ := List.mem_map.1 hroute'
          exact List.Lex.rel hlt
    · rintro route hroute route' hroute'
      obtain ⟨-, rfl⟩ := nil_mem_ite.1 hroute
      obtain ⟨p, -, hmem⟩ := List.mem_flatMap.1 hroute'
      split at hmem
      · cases hmem
      · obtain ⟨b, -, rfl⟩ := List.mem_map.1 hmem
        exact List.Lex.nil

end WeightedAutomata.Machine
