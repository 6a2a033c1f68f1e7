import WeightedAutomata.Proofs.Walk.Image
import Mathlib.Logic.Equiv.Basic

/-!
Accepted paths of a machine, by the names of their arcs and by their positions.

An automaton names its arcs by its transitions, and a composition by the origins of its moves. As
long as the arcs of each state have different names, a path by names is a route: the position of
each arc among the arcs of the state that it leaves. A machine and its image accept the same routes,
so their accepted paths correspond, whatever names they go by.
-/

namespace WeightedAutomata.Machine

variable {σ τ L : Type} {r : Range} {m : Machine σ L r} {m' : Machine τ L r}

/-- The route leads from the start to a final state. -/
def AcceptsRoute (m : Machine σ L r) (route : List Nat) : Prop :=
  ∃ xs, m.arcsAlong m.start route = some xs ∧ m.isFinal (endOf m.start xs)

/-- Names for the arcs of each state, in their order and without repetition. -/
structure Naming (m : Machine σ L r) (N : Type) where
  names : σ → List N
  arc : σ → N → Arc σ L r
  nodup : ∀ s, (names s).Nodup
  toList_arcs : ∀ s, (m.arcs s).toList = (names s).map (arc s)

namespace Naming

variable {N : Type} (ν : m.Naming N)

/-- The named arcs lead from one state to another. -/
def Leads : σ → List N → σ → Prop
  | s, [], u => s = u
  | s, n :: π, u => n ∈ ν.names s ∧ Leads (ν.arc s n).target π u

def Accepts (π : List N) : Prop := ∃ u, ν.Leads m.start π u ∧ m.isFinal u

def arcsAlong : σ → List N → List (Arc σ L r)
  | _, [] => []
  | s, n :: π => ν.arc s n :: arcsAlong (ν.arc s n).target π

/-- The names of the arcs on a route. -/
def namesAlong : σ → List Nat → Option (List N)
  | _, [] => some []
  | s, i :: route =>
    match (ν.names s)[i]? with
    | none => none
    | some n => (namesAlong (ν.arc s n).target route).map (n :: ·)

/-! ### From routes to names -/

lemma arcsAlong_eq_map (s : σ) (route : List Nat) :
    m.arcsAlong s route = (ν.namesAlong s route).map (ν.arcsAlong s) := by
  induction route generalizing s with
  | nil => rfl
  | cons i route ih =>
    rw [Machine.arcsAlong, namesAlong, ν.toList_arcs, List.getElem?_map]
    cases (ν.names s)[i]? with
    | none => rfl
    | some n =>
      simp only [Option.map_some, ih, Option.map_map]
      rfl

variable {ν} {s u : σ} {n : N} {π : List N} {route route' : List Nat}

lemma namesAlong_eq_nil : ν.namesAlong s route = some [] ↔ route = [] := by
  constructor
  · intro h
    cases route with
    | nil => rfl
    | cons i route =>
      rw [namesAlong] at h
      split at h <;> simp at h
  · rintro rfl
    rfl

lemma namesAlong_eq_cons : ν.namesAlong s route = some (n :: π) ↔ ∃ i later, route = i :: later ∧
    (ν.names s)[i]? = some n ∧ ν.namesAlong (ν.arc s n).target later = some π := by
  constructor
  · intro h
    cases route with
    | nil => cases h
    | cons i later =>
      rw [namesAlong] at h
      split at h
      next => cases h
      next n' hn =>
        obtain ⟨π', hπ', heq⟩ := Option.map_eq_some_iff.1 h
        cases heq
        exact ⟨i, later, rfl, hn, hπ'⟩
  · rintro ⟨i, later, rfl, hn, hπ⟩
    simp only [namesAlong, hn, hπ, Option.map_some]

lemma eq_of_namesAlong_eq (h : ν.namesAlong s route = some π)
    (h' : ν.namesAlong s route' = some π) : route = route' := by
  induction π generalizing s route route' with
  | nil => rw [namesAlong_eq_nil.1 h, namesAlong_eq_nil.1 h']
  | cons n π ih =>
    obtain ⟨i, later, rfl, hn, hlater⟩ := namesAlong_eq_cons.1 h
    obtain ⟨i', later', rfl, hn', hlater'⟩ := namesAlong_eq_cons.1 h'
    have hi : i < (ν.names s).length := (List.getElem?_eq_some_iff.1 hn).1
    have hsame : i = i' := (List.getElem?_inj hi (ν.nodup s)).1 (hn.trans hn'.symm)
    rw [hsame, ih hlater hlater']

lemma leads_iff : ν.Leads s π u ↔
    (∃ route, ν.namesAlong s route = some π) ∧ endOf s (ν.arcsAlong s π) = u := by
  induction π generalizing s with
  | nil =>
    simp only [namesAlong_eq_nil, exists_eq, true_and]
    rfl
  | cons n π ih =>
    rw [Leads, ih, arcsAlong, endOf, ← and_assoc]
    refine and_congr_left' ⟨?_, ?_⟩
    · rintro ⟨hn, later, hlater⟩
      obtain ⟨i, hi⟩ := List.mem_iff_getElem?.1 hn
      exact ⟨i :: later, namesAlong_eq_cons.2 ⟨i, later, rfl, hi, hlater⟩⟩
    · rintro ⟨route, hroute⟩
      obtain ⟨i, later, -, hi, hlater⟩ := namesAlong_eq_cons.1 hroute
      exact ⟨List.mem_of_getElem? hi, later, hlater⟩

/-- **The accepted paths are the accepted routes**, by any names. -/
lemma exists_equiv_routes (ν : m.Naming N) :
    ∃ e : {route // m.AcceptsRoute route} ≃ {π // ν.Accepts π},
      ∀ route, m.arcsAlong m.start route.1 = some (ν.arcsAlong m.start (e route).1) := by
  have hnamed : ∀ route : {route // m.AcceptsRoute route}, ∃ π : {π // ν.Accepts π},
      ν.namesAlong m.start route.1 = some π.1 := by
    rintro ⟨route, xs, hxs, hfinal⟩
    rw [ν.arcsAlong_eq_map] at hxs
    obtain ⟨π, hπ, rfl⟩ := Option.map_eq_some_iff.1 hxs
    exact ⟨⟨π, _, leads_iff.2 ⟨⟨route, hπ⟩, rfl⟩, hfinal⟩, hπ⟩
  choose e he using hnamed
  have hinjective : Function.Injective e := by
    intro route route' heq
    exact Subtype.ext (eq_of_namesAlong_eq (he route) (heq ▸ he route'))
  have hsurjective : Function.Surjective e := by
    rintro ⟨π, u, hπ, hfinal⟩
    obtain ⟨⟨route, hroute⟩, rfl⟩ := leads_iff.1 hπ
    have hxs := ν.arcsAlong_eq_map m.start route
    rw [hroute] at hxs
    refine ⟨⟨route, _, hxs, hfinal⟩, Subtype.ext ?_⟩
    exact Option.some.inj ((he _).symm.trans hroute)
  refine ⟨Equiv.ofBijective e ⟨hinjective, hsurjective⟩, fun route => ?_⟩
  rw [ν.arcsAlong_eq_map, he route]
  rfl

end Naming

/-! ### The paths of an image -/

namespace Image

variable {f : σ → τ} {Known : σ → Prop} (h : m.Image m' f Known)
include h

lemma arcsAlong_eq {s : σ} (hs : Known s) (route : List Nat) :
    m'.arcsAlong (f s) route = (m.arcsAlong s route).map (List.map (Arc.map f)) := by
  induction route generalizing s with
  | nil => rfl
  | cons i route ih =>
    rw [Machine.arcsAlong, Machine.arcsAlong, h.arcs s hs, List.getElem?_map]
    cases hx : (m.arcs s).toList[i]? with
    | none => rfl
    | some x =>
      have htarget := ih (h.known_target s hs x (List.mem_of_getElem? hx))
      simp only [Option.map_some, Arc.map, htarget, Option.map_map]
      rfl

lemma known_endOf {s : σ} (hs : Known s) {route : List Nat} {xs : List (Arc σ L r)}
    (hxs : m.arcsAlong s route = some xs) : Known (endOf s xs) := by
  induction route generalizing s xs with
  | nil =>
    cases hxs
    exact hs
  | cons i route ih =>
    rw [Machine.arcsAlong] at hxs
    split at hxs
    next => cases hxs
    next x hx =>
      obtain ⟨xs, hlater, rfl⟩ := Option.map_eq_some_iff.1 hxs
      exact ih (h.known_target s hs x (List.mem_of_getElem? hx)) hlater

omit h in
lemma endOf_map (s : σ) (xs : List (Arc σ L r)) :
    endOf (f s) (xs.map (Arc.map f)) = f (endOf s xs) := by
  induction xs generalizing s with
  | nil => rfl
  | cons x xs ih => exact ih x.target

lemma acceptsRoute_iff (route : List Nat) : m'.AcceptsRoute route ↔ m.AcceptsRoute route := by
  unfold AcceptsRoute
  rw [← h.start, h.arcsAlong_eq h.known_start]
  cases hxs : m.arcsAlong m.start route with
  | none => simp
  | some xs =>
    have hend := h.isFinal _ (h.known_endOf h.known_start hxs)
    simp [endOf_map, hend]

/-- **The accepted paths of a machine and of its image correspond**, arc by arc. -/
lemma exists_equiv_paths {N N' : Type} (ν : m.Naming N) (ν' : m'.Naming N') :
    ∃ e : {π // ν.Accepts π} ≃ {π // ν'.Accepts π},
      ∀ π, ν'.arcsAlong m'.start (e π).1 = (ν.arcsAlong m.start π.1).map (Arc.map f) := by
  obtain ⟨e, he⟩ := ν.exists_equiv_routes
  obtain ⟨e', he'⟩ := ν'.exists_equiv_routes
  refine ⟨e.symm.trans ((Equiv.subtypeEquivRight fun route =>
    (h.acceptsRoute_iff route).symm).trans e'), fun π => ?_⟩
  obtain ⟨route, rfl⟩ := e.surjective π
  rw [Equiv.trans_apply, e.symm_apply_apply]
  have hsame := h.arcsAlong_eq h.known_start route.1
  rw [he route, h.start, he' ⟨route.1, (h.acceptsRoute_iff _).2 route.2⟩] at hsame
  exact Option.some.inj hsame

end Image

end WeightedAutomata.Machine
