import WeightedAutomata.Arena.Basic

/-!
What each operation on an arena does to what the handles name.

An update touches the thing in one slot, a removal empties one slot, and an insertion into a tidy
arena puts the new thing under the next handle and leaves every other handle alone.
-/

namespace WeightedAutomata.Arena

variable {e : Entity} {α : Type}

/-- A slot is listed as vacant exactly when it has no content, and it is listed once. -/
structure Tidy (a : Arena e α) : Prop where
  nodup : a.vacant.Nodup
  mem_iff : ∀ i, i ∈ a.vacant ↔ ∃ s, a.slots[i]? = some s ∧ s.content = none

theorem tidy_empty : (empty : Arena e α).Tidy := ⟨List.nodup_nil, by simp [empty]⟩

theorem at?_eq_of_get? {a : Arena e α} {h : Handle e} {x : α} (hx : a.get? h = some x) :
    a.at? h.index = some x := by
  unfold get? at hx
  unfold at?
  split at hx
  next s hs =>
    rw [hs]
    split at hx
    · exact hx
    · simp at hx
  next => simp at hx

@[simp] theorem get?_empty (h : Handle e) : (empty : Arena e α).get? h = none := by
  simp [get?, empty]

theorem get?_update (a : Arena e α) (i : Nat) (f : α → α) (h : Handle e) :
    (a.update i f).get? h = if i = h.index then (a.get? h).map f else a.get? h := by
  unfold get? update
  by_cases hi : i = h.index
  · subst hi
    rw [if_pos rfl]
    cases hs : a.slots[h.index]? with
    | none => simp [Array.getElem?_modify, hs]
    | some s =>
      by_cases hg : s.generation = h.generation <;> simp [Array.getElem?_modify, hs, hg]
  · simp [Array.getElem?_modify, hi]

theorem at?_vacate (a : Arena e α) (i j : Nat) :
    (a.vacate i).at? j = if i = j then none else a.at? j := by
  unfold vacate
  split
  next hsome =>
    by_cases hi : i = j
    · subst hi
      cases hs : a.slots[i]? <;> simp [at?, Array.getElem?_modify, hs]
    · simp [at?, Array.getElem?_modify, hi]
  next hnone =>
    by_cases hi : i = j
    · subst hi
      simpa using hnone
    · simp [hi]

/-- After an insertion the next handle names the new thing, and every other handle what it named
before. -/
theorem get?_insert {a : Arena e α} (ha : a.Tidy) (x : α) (h : Handle e) :
    (a.insert x).get? h = if h = a.next then some x else a.get? h := by
  have hext : h = a.next ↔ h.index = a.next.index ∧ h.generation = a.next.generation := by
    cases h; cases a.next; simp
  unfold insert
  cases hv : a.vacant with
  | nil =>
    have hn : a.next = ⟨a.slots.size, 0⟩ := by simp [next, handleAt, hv]
    rw [hn] at hext ⊢
    simp only [get?, Array.getElem?_push]
    by_cases hi : h.index = a.slots.size
    · by_cases hg : h.generation = 0
      · simp [hext.2 ⟨hi, hg⟩]
      · have : ¬ h = ⟨a.slots.size, 0⟩ := fun hh => hg (hext.1 hh).2
        simp [hi, this, Ne.symm hg]
    · have : ¬ h = ⟨a.slots.size, 0⟩ := fun hh => hi (hext.1 hh).1
      simp [hi, this]
  -- the last vacated slot is taken again, in the generation it was left with
  | cons i rest =>
    obtain ⟨s, hs, hempty⟩ := (ha.mem_iff i).1 (by simp [hv])
    have hn : a.next = ⟨i, s.generation⟩ := by simp [next, handleAt, hv, hs]
    rw [hn] at hext ⊢
    simp only [get?, Array.getElem?_modify]
    by_cases hi : i = h.index
    · subst hi
      by_cases hg : s.generation = h.generation
      · simp [hs, hg]
      · have : ¬ h = ⟨h.index, s.generation⟩ := fun hh => hg (hext.1 hh).2.symm
        simp [hs, hg, this]
    · have : ¬ h = ⟨i, s.generation⟩ := fun hh => hi (hext.1 hh).1.symm
      simp [hi, this]

theorem get?_eq_some_iff {a : Arena e α} {h : Handle e} {x : α} :
    a.get? h = some x ↔ a.at? h.index = some x ∧ a.handleAt h.index = h := by
  obtain ⟨i, g⟩ := h
  unfold get? at? handleAt
  cases hs : a.slots[i]? with
  | none => simp
  | some s => by_cases hg : s.generation = g <;> simp [hg]

theorem get?_vacate (a : Arena e α) (i : Nat) (h : Handle e) :
    (a.vacate i).get? h = if i = h.index then none else a.get? h := by
  by_cases hi : i = h.index
  · rw [if_pos hi, Option.eq_none_iff_forall_ne_some]
    intro x hx
    have := at?_eq_of_get? hx
    rw [at?_vacate, if_pos hi] at this
    cases this
  · unfold vacate
    split
    · simp [get?, Array.getElem?_modify, hi]
    · simp

theorem at?_next {a : Arena e α} (ha : a.Tidy) : a.at? a.next.index = none := by
  cases hv : a.vacant with
  | nil => simp [next, handleAt, hv, at?]
  | cons i rest =>
    obtain ⟨s, hs, hempty⟩ := (ha.mem_iff i).1 (by simp [hv])
    simp [next, handleAt, hv, at?, hs, hempty]

theorem get?_next {a : Arena e α} (ha : a.Tidy) : a.get? a.next = none := by
  cases h : a.get? a.next with
  | none => rfl
  | some x => rw [← at?_eq_of_get? h, at?_next ha]

theorem tidy_update {a : Arena e α} (ha : a.Tidy) (i : Nat) (f : α → α) : (a.update i f).Tidy where
  nodup := ha.nodup
  mem_iff j := by
    rw [show (a.update i f).vacant = a.vacant from rfl, ha.mem_iff j]
    simp only [update, Array.getElem?_modify]
    by_cases hi : i = j
    · subst hi
      cases a.slots[i]? <;> simp
    · simp [hi]

theorem tidy_vacate {a : Arena e α} (ha : a.Tidy) (i : Nat) : (a.vacate i).Tidy := by
  unfold vacate
  split
  next hsome =>
    obtain ⟨x, hx⟩ := Option.isSome_iff_exists.1 hsome
    have hfresh : i ∉ a.vacant := by
      intro hi
      obtain ⟨s, hs, hempty⟩ := (ha.mem_iff i).1 hi
      simp [at?, hs, hempty] at hx
    refine ⟨List.nodup_cons.2 ⟨hfresh, ha.nodup⟩, fun j => ?_⟩
    simp only [List.mem_cons, ha.mem_iff j, Array.getElem?_modify]
    by_cases hi : i = j
    · subst hi
      cases hs : a.slots[i]? <;> simp [at?, hs] at hx ⊢
    · simp [hi, Ne.symm hi]
  next => exact ha

theorem tidy_insert {a : Arena e α} (ha : a.Tidy) (x : α) : (a.insert x).Tidy := by
  unfold insert
  cases hv : a.vacant with
  | nil =>
    refine ⟨List.nodup_nil, fun j => ?_⟩
    have hempty := ha.mem_iff j
    simp only [hv, List.not_mem_nil, false_iff, Array.getElem?_push] at hempty ⊢
    split
    · simp
    · exact hempty
  | cons i rest =>
    have hnd := ha.nodup
    rw [hv, List.nodup_cons] at hnd
    refine ⟨hnd.2, fun j => ?_⟩
    have hj := ha.mem_iff j
    simp only [hv, List.mem_cons, Array.getElem?_modify] at hj ⊢
    by_cases hi : i = j
    · subst hi
      cases hs : a.slots[i]? <;> simp [hnd.1]
    · simpa [hi, Ne.symm hi] using hj

/-! What is listed is what the handles name, and each handle is listed once. -/

theorem mem_toList {a : Arena e α} {h : Handle e} {x : α} :
    (h, x) ∈ a.toList ↔ a.get? h = some x := by
  obtain ⟨i, g⟩ := h
  unfold toList get?
  simp only [List.mem_filterMap, Prod.exists, List.mk_mem_zipIdx_iff_getElem?,
    Option.map_eq_some_iff, Prod.mk.injEq, Handle.mk.injEq, Array.getElem?_toList]
  constructor
  · rintro ⟨s, j, hs, y, hy, ⟨rfl, rfl⟩, rfl⟩
    simp [hs, hy]
  · intro hx
    cases hs : a.slots[i]? with
    | none => simp [hs] at hx
    | some s =>
      simp only [hs] at hx
      split at hx
      next hg => exact ⟨s, i, hs, x, hx, ⟨rfl, hg⟩, rfl⟩
      next => cases hx

theorem pairwise_zipIdx {β : Type} (l : List β) : l.zipIdx.Pairwise fun p q => p.2 < q.2 := by
  have hpositions : (l.zipIdx.map Prod.snd).Pairwise (· < ·) := by
    rw [List.zipIdx_map_snd]
    exact List.pairwise_lt_range'
  rwa [List.pairwise_map] at hpositions

theorem nodup_handles (a : Arena e α) : a.handles.Nodup := by
  have hindex : a.toList.Pairwise fun p q => p.1.index < q.1.index := by
    refine List.Pairwise.filterMap _ (fun p q hpq x hx y hy => ?_) (pairwise_zipIdx _)
    simp only [Option.map_eq_some_iff] at hx hy
    obtain ⟨_, _, rfl⟩ := hx
    obtain ⟨_, _, rfl⟩ := hy
    exact hpq
  refine List.pairwise_map.2 (hindex.imp fun {p q} hpq heq => ?_)
  rw [heq] at hpq
  exact Nat.lt_irrefl _ hpq

theorem mem_handles {a : Arena e α} {h : Handle e} : h ∈ a.handles ↔ a.contains h := by
  simp [handles, contains, Option.isSome_iff_exists, ← mem_toList]

/-! Under a handle in force an operation concerns that handle alone. -/

theorem eq_of_index_eq {a : Arena e α} {g h : Handle e} (hg : a.contains g) (hh : a.contains h)
    (hi : g.index = h.index) : g = h := by
  obtain ⟨x, hx⟩ := Option.isSome_iff_exists.1 hg
  obtain ⟨y, hy⟩ := Option.isSome_iff_exists.1 hh
  rw [← (get?_eq_some_iff.1 hx).2, ← (get?_eq_some_iff.1 hy).2, hi]

theorem contains_update (a : Arena e α) (i : Nat) (f : α → α) (h : Handle e) :
    (a.update i f).contains h = a.contains h := by
  unfold contains
  rw [get?_update]
  split <;> simp

theorem get?_update_of_contains {a : Arena e α} {g : Handle e} (hg : a.contains g) (f : α → α)
    (h : Handle e) :
    (a.update g.index f).get? h = if h = g then (a.get? h).map f else a.get? h := by
  rw [get?_update]
  by_cases hh : a.contains h
  · have hiff : g.index = h.index ↔ h = g :=
      ⟨fun hi => (eq_of_index_eq hg hh hi).symm, fun hi => by rw [hi]⟩
    simp only [hiff]
  · have hnone : a.get? h = none := Option.not_isSome_iff_eq_none.1 hh
    simp [hnone]

theorem get?_vacate_of_contains {a : Arena e α} {g : Handle e} (hg : a.contains g) (h : Handle e) :
    (a.vacate g.index).get? h = if h = g then none else a.get? h := by
  rw [get?_vacate]
  by_cases hh : a.contains h
  · have hiff : g.index = h.index ↔ h = g :=
      ⟨fun hi => (eq_of_index_eq hg hh hi).symm, fun hi => by rw [hi]⟩
    simp only [hiff]
  · have hnone : a.get? h = none := Option.not_isSome_iff_eq_none.1 hh
    simp [hnone]

/-- Updates at both ends of a transition. A loop counts as an update of its source. -/
theorem get?_update_ends {a : Arena e α} {source target : Handle e}
    (hs : a.contains source) (ht : a.contains target) (f g : α → α) (h : Handle e) :
    (if target = source then a.update source.index f
      else (a.update source.index f).update target.index g).get? h =
      (a.get? h).map fun x => if h = source then f x else if h = target then g x else x := by
  by_cases hloop : target = source
  · rw [if_pos hloop, get?_update_of_contains hs]
    by_cases h₁ : h = source <;> simp [h₁, hloop]
  · have ht' : (a.update source.index f).contains target := by rwa [contains_update]
    rw [if_neg hloop, get?_update_of_contains ht', get?_update_of_contains hs]
    by_cases h₁ : h = source
    · simp [h₁, Ne.symm hloop]
    · by_cases h₂ : h = target <;> simp [h₁, h₂, hloop]

end WeightedAutomata.Arena
