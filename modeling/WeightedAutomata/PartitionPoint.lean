/-!
Lists kept in order by binary search.

A test that the entries in front pass, and those behind fail, parts a list in two. The first entry
behind is found by halving, and there a new one is put in.
-/

namespace WeightedAutomata

variable {α : Type}

/-- Halves the entries from `low` up to `high` until none is left: whatever stands in front of
`low` passes, and whatever stands at `high` or behind fails. -/
def search (passes : α → Bool) (xs : Array α) (low high : Nat) (h : high ≤ xs.size) : Nat :=
  if hlt : low < high then
    let middle := (low + high) / 2
    have : middle < xs.size := by omega
    if passes xs[middle] then search passes xs (middle + 1) high h
    else search passes xs low middle (by omega)
  else low
termination_by high - low

/-- The number of entries in front, if the test parts the list. -/
def partitionPoint (passes : α → Bool) (xs : Array α) : Nat :=
  search passes xs 0 xs.size (Nat.le_refl _)

theorem search_le (passes : α → Bool) (xs : Array α) (low high : Nat) (h : high ≤ xs.size)
    (hlow : low ≤ high) : search passes xs low high h ≤ high := by
  fun_induction search passes xs low high h with
  | case1 low high h hlt middle hmiddle hpass ih => exact ih (by omega)
  | case2 low high h hlt middle hmiddle hfail ih => exact Nat.le_trans (ih (by omega)) (by omega)
  | case3 low high h hge => exact hlow

theorem partitionPoint_le (passes : α → Bool) (xs : Array α) :
    partitionPoint passes xs ≤ xs.size :=
  search_le passes xs 0 xs.size _ (Nat.zero_le _)

/-- The list with one more entry, after those that pass. -/
def insertAfter (passes : α → Bool) (xs : Array α) (x : α) : Array α :=
  xs.insertIdx (partitionPoint passes xs) x (partitionPoint_le passes xs)

section Parted

variable {passes : α → Bool} {xs : Array α} {front back : List α}

/-- The search never loses the place where the list is parted. -/
theorem search_eq (hxs : xs.toList = front ++ back) (hfront : ∀ x ∈ front, passes x)
    (hback : ∀ x ∈ back, ¬ passes x) {low high : Nat} (h : high ≤ xs.size)
    (hlow : low ≤ front.length) (hhigh : front.length ≤ high) :
    search passes xs low high h = front.length := by
  have hget : ∀ i, xs[i]? = (front ++ back)[i]? := fun i => by rw [← hxs, Array.getElem?_toList]
  fun_induction search passes xs low high h with
  | case1 low high h hlt middle hmiddle hpass ih =>
    -- what is looked at passes, so it is not among those behind
    refine ih (Nat.lt_of_not_le fun hc => ?_) hhigh
    have hx := hget middle
    rw [Array.getElem?_eq_getElem hmiddle, List.getElem?_append_right hc] at hx
    exact hback _ (List.mem_of_getElem? hx.symm) hpass
  | case2 low high h hlt middle hmiddle hfail ih =>
    refine ih hlow (Nat.le_of_not_lt fun hc => ?_)
    have hx := hget middle
    rw [Array.getElem?_eq_getElem hmiddle, List.getElem?_append_left hc] at hx
    exact hfail (hfront _ (List.mem_of_getElem? hx.symm))
  | case3 low high h hge => omega

theorem partitionPoint_eq (hxs : xs.toList = front ++ back) (hfront : ∀ x ∈ front, passes x)
    (hback : ∀ x ∈ back, ¬ passes x) : partitionPoint passes xs = front.length := by
  have hsize : front.length ≤ xs.size := by simp [← Array.length_toList, hxs]
  exact search_eq hxs hfront hback _ (Nat.zero_le _) hsize

theorem insertIdx_length_append (front back : List α) (x : α) :
    (front ++ back).insertIdx front.length x = front ++ x :: back := by
  induction front with
  | nil => rfl
  | cons y front ih => exact congrArg (y :: ·) ih

/-- The new entry stands between those that pass and those that fail. -/
theorem toList_insertAfter (hxs : xs.toList = front ++ back) (hfront : ∀ x ∈ front, passes x)
    (hback : ∀ x ∈ back, ¬ passes x) (x : α) :
    (insertAfter passes xs x).toList = front ++ x :: back := by
  unfold insertAfter
  rw [Array.toList_insertIdx, hxs, partitionPoint_eq hxs hfront hback,
    insertIdx_length_append]

end Parted

end WeightedAutomata
