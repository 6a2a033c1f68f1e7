import Mathlib.Data.Finset.Sort
import Mathlib.Data.List.Perm.Basic
import Mathlib.Data.List.Sort
import Mathlib.Order.Lattice

/-!
Lists laid out in groups of equal keys.

A group keeps the order of the list it is taken from. Groups in ascending order of their keys make
up the stable sort of the list, and groups in any order a permutation of it in which equal keys
stand together.
-/

namespace WeightedAutomata

variable {α κ : Type}

/-- The elements of `l` in one group for each of the keys `ks`. -/
def grouped [DecidableEq κ] (key : α → κ) (ks : List κ) (l : List α) : List α :=
  ks.flatMap fun k => l.filter (key · = k)

section Distinct

variable [DecidableEq κ] {key : α → κ} {ks : List κ}

lemma grouped_cons (k : κ) (ks : List κ) (l : List α) :
    grouped key (k :: ks) l = l.filter (key · = k) ++ grouped key ks l := List.flatMap_cons

lemma grouped_filter_ne {k : κ} (hk : k ∉ ks) (l : List α) :
    grouped key ks (l.filter (key · ≠ k)) = grouped key ks l := by
  refine List.flatMap_congr fun k' hk' => ?_
  rw [List.filter_filter]
  refine List.filter_congr fun x _ => ?_
  have hne : k' ≠ k := fun hc => hk (hc ▸ hk')
  by_cases hx : key x = k' <;> simp [hx, hne]

lemma grouped_perm (hks : ks.Nodup) {l : List α} (hl : ∀ x ∈ l, key x ∈ ks) :
    (grouped key ks l).Perm l := by
  induction ks generalizing l with
  | nil =>
    have hnil : l = [] := List.eq_nil_iff_forall_not_mem.2 fun x hx => List.not_mem_nil (hl x hx)
    rw [hnil]
    exact List.Perm.refl _
  | cons k ks ih =>
    obtain ⟨hk, hks⟩ := List.nodup_cons.1 hks
    have hrest : (grouped key ks (l.filter (key · ≠ k))).Perm (l.filter (key · ≠ k)) := by
      refine ih hks fun x hx => ?_
      obtain ⟨hx, hne⟩ := List.mem_filter.1 hx
      exact (List.mem_cons.1 (hl x hx)).resolve_left (of_decide_eq_true hne)
    rw [grouped_cons, ← grouped_filter_ne hk]
    refine (hrest.append_left _).trans ?_
    simpa using List.filter_append_perm (key · = k) l

/-- The elements of one key stand together. -/
lemma filter_infix_grouped {l : List α} (hl : ∀ x ∈ l, key x ∈ ks) (k : κ) :
    l.filter (key · = k) <:+: grouped key ks l := by
  by_cases hk : k ∈ ks
  · obtain ⟨before, after, rfl⟩ := List.append_of_mem hk
    refine ⟨grouped key before l, grouped key after l, ?_⟩
    unfold grouped
    rw [List.flatMap_append, List.flatMap_cons, List.append_assoc]
  · have hnone : l.filter (key · = k) = [] := by
      rw [List.filter_eq_nil_iff]
      intro x hx hc
      exact hk (of_decide_eq_true hc ▸ hl x hx)
    rw [hnone]
    exact List.nil_infix

end Distinct

section Sorted

variable [LinearOrder κ] {key : α → κ} {ks : List κ}

/-- A list that ascends begins with the elements of the least key. -/
lemma eq_filter_append {k : κ} {l : List α} (hsorted : l.Pairwise (key · ≤ key ·))
    (hleast : ∀ x ∈ l, k ≤ key x) : l = l.filter (key · = k) ++ l.filter (key · ≠ k) := by
  induction l with
  | nil => rfl
  | cons x l ih =>
    obtain ⟨hx, hsorted⟩ := List.pairwise_cons.1 hsorted
    by_cases h : key x = k
    · have hrest := ih hsorted fun y hy => hleast y (List.mem_cons_of_mem _ hy)
      simpa [h] using hrest
    · have hlt : k < key x := lt_of_le_of_ne (hleast x List.mem_cons_self) (Ne.symm h)
      have hne : ∀ y ∈ l, key y ≠ k := fun y hy => (hlt.trans_le (hx y hy)).ne'
      have hnone : l.filter (key · = k) = [] := by simpa [List.filter_eq_nil_iff] using hne
      have hall : l.filter (key · ≠ k) = l := by simpa [List.filter_eq_self] using hne
      rw [List.filter_cons_of_neg (by simpa using h), List.filter_cons_of_pos (by simpa using h),
        hnone, hall, List.nil_append]

lemma grouped_of_pairwise (hks : ks.Pairwise (· < ·)) {l : List α}
    (hsorted : l.Pairwise (key · ≤ key ·)) (hl : ∀ x ∈ l, key x ∈ ks) : grouped key ks l = l := by
  induction ks generalizing l with
  | nil =>
    have hnil : l = [] := List.eq_nil_iff_forall_not_mem.2 fun x hx => List.not_mem_nil (hl x hx)
    rw [hnil]
    rfl
  | cons k ks ih =>
    obtain ⟨hk, hks⟩ := List.pairwise_cons.1 hks
    have hleast : ∀ x ∈ l, k ≤ key x := by
      intro x hx
      rcases List.mem_cons.1 (hl x hx) with h | h
      · exact h.ge
      · exact (hk _ h).le
    have hrest : grouped key ks (l.filter (key · ≠ k)) = l.filter (key · ≠ k) := by
      refine ih hks (hsorted.sublist List.filter_sublist) fun x hx => ?_
      obtain ⟨hx, hne⟩ := List.mem_filter.1 hx
      exact (List.mem_cons.1 (hl x hx)).resolve_left (of_decide_eq_true hne)
    have hnotin : k ∉ ks := fun hc => lt_irrefl _ (hk k hc)
    rw [grouped_cons, ← grouped_filter_ne hnotin, hrest, ← eq_filter_append hsorted hleast]

def keyLE (key : α → κ) (x y : α) : Bool := key x ≤ key y

lemma keyLE_trans (x y z : α) (hxy : keyLE key x y) (hyz : keyLE key y z) : keyLE key x z :=
  decide_eq_true ((of_decide_eq_true hxy).trans (of_decide_eq_true hyz))

lemma keyLE_total (x y : α) : keyLE key x y || keyLE key y x := by
  simpa [keyLE] using le_total (key x) (key y)

lemma pairwise_mergeSort_key (l : List α) : (l.mergeSort (keyLE key)).Pairwise (key · ≤ key ·) :=
  (List.pairwise_mergeSort keyLE_trans keyLE_total l).imp fun h => of_decide_eq_true h

/-- Sorting is stable: the elements of one key keep their order. -/
lemma filter_mergeSort (l : List α) (k : κ) :
    (l.mergeSort (keyLE key)).filter (key · = k) = l.filter (key · = k) := by
  -- inside a group the order is not changed, since equal keys are not out of order
  have hgroup : (l.filter (key · = k)).Pairwise (keyLE key · ·) := by
    rw [List.pairwise_filter]
    refine List.pairwise_of_forall fun x y hx hy => ?_
    simp only [decide_eq_true_eq] at hx hy
    simp [keyLE, hx, hy]
  have hsub : (l.filter (key · = k)).Sublist ((l.mergeSort (keyLE key)).filter (key · = k)) := by
    have h := List.sublist_mergeSort keyLE_trans keyLE_total hgroup List.filter_sublist
    have h := h.filter (key · = k)
    simpa only [List.filter_filter, Bool.and_self] using h
  have hlength := ((List.mergeSort_perm l (keyLE key)).filter (key · = k)).length_eq
  exact (hsub.eq_of_length hlength.symm).symm

/-- **Groups in ascending order make up the stable sort.** -/
lemma grouped_eq_mergeSort (hks : ks.Pairwise (· < ·)) {l : List α} (hl : ∀ x ∈ l, key x ∈ ks) :
    grouped key ks l = l.mergeSort (keyLE key) := by
  have hgroups : grouped key ks l = grouped key ks (l.mergeSort (keyLE key)) :=
    List.flatMap_congr fun k _ => (filter_mergeSort l k).symm
  rw [hgroups]
  exact grouped_of_pairwise hks (pairwise_mergeSort_key l)
    fun x hx => hl x (List.mem_mergeSort.1 hx)

/-- A list that ascends, and has the elements of each key in the same order as another, is the
stable sort of that one. -/
lemma eq_mergeSort {l s : List α} (hsorted : s.Pairwise (key · ≤ key ·))
    (hgroups : ∀ k, s.filter (key · = k) = l.filter (key · = k)) :
    s = l.mergeSort (keyLE key) := by
  set ks := (l.map key).toFinset.sort
  have hl : ∀ x ∈ l, key x ∈ ks := fun x hx => by
    rw [Finset.mem_sort, List.mem_toFinset]
    exact List.mem_map_of_mem hx
  have hs : ∀ x ∈ s, key x ∈ ks := by
    intro x hx
    have hx : x ∈ s.filter (key · = key x) := List.mem_filter.2 ⟨hx, by simp⟩
    rw [hgroups] at hx
    exact hl x (List.mem_filter.1 hx).1
  have hks : ks.Pairwise (· < ·) := (Finset.sortedLT_sort _).pairwise
  calc s = grouped key ks s := (grouped_of_pairwise hks hsorted hs).symm
    _ = grouped key ks l := List.flatMap_congr fun k _ => hgroups k
    _ = l.mergeSort (keyLE key) := grouped_eq_mergeSort hks hl

lemma mergeSort_filter (l : List α) (p : α → Bool) :
    (l.filter p).mergeSort (keyLE key) = (l.mergeSort (keyLE key)).filter p := by
  refine (eq_mergeSort ((pairwise_mergeSort_key l).sublist List.filter_sublist) fun k => ?_).symm
  rw [List.filter_comm, filter_mergeSort, List.filter_comm]

lemma exists_parted {l : List α} (hsorted : l.Pairwise (key · ≤ key ·)) (k : κ) :
    ∃ front back, l = front ++ back ∧ (∀ x ∈ front, key x ≤ k) ∧ ∀ x ∈ back, k < key x := by
  induction l with
  | nil => exact ⟨[], [], rfl, by simp, by simp⟩
  | cons x l ih =>
    obtain ⟨hx, hsorted⟩ := List.pairwise_cons.1 hsorted
    -- everything from the first key beyond `k` on belongs to the back
    rcases le_or_gt (key x) k with h | h
    · obtain ⟨front, back, rfl, hfront, hback⟩ := ih hsorted
      exact ⟨x :: front, back, rfl, List.forall_mem_cons.2 ⟨h, hfront⟩, hback⟩
    · refine ⟨[], x :: l, rfl, by simp, List.forall_mem_cons.2 ⟨h, fun y hy => ?_⟩⟩
      exact h.trans_le (hx y hy)

/-- **Insertion is stable**: an element that comes last is put in after those of the same key. -/
lemma mergeSort_snoc {l front back : List α} {x : α}
    (hl : l.mergeSort (keyLE key) = front ++ back) (hfront : ∀ y ∈ front, key y ≤ key x)
    (hback : ∀ y ∈ back, key x < key y) :
    (l ++ [x]).mergeSort (keyLE key) = front ++ x :: back := by
  have hsorted : (front ++ back).Pairwise (key · ≤ key ·) := hl ▸ pairwise_mergeSort_key l
  obtain ⟨hsfront, hsback, hcross⟩ := List.pairwise_append.1 hsorted
  refine (eq_mergeSort ?_ fun k => ?_).symm
  · refine List.pairwise_append.2 ⟨hsfront, ?_, fun y hy z hz => ?_⟩
    · exact List.pairwise_cons.2 ⟨fun z hz => (hback z hz).le, hsback⟩
    · rcases List.mem_cons.1 hz with rfl | hz
      · exact hfront y hy
      · exact hcross y hy z hz
  · have hgroup : (l.mergeSort (keyLE key)).filter (key · = k) = l.filter (key · = k) :=
      filter_mergeSort l k
    rw [hl, List.filter_append] at hgroup
    rw [List.filter_append, List.filter_append, ← hgroup]
    by_cases hk : key x = k
    · -- nothing of the new element's key stands behind it
      have hnone : back.filter (key · = k) = [] := by
        rw [List.filter_eq_nil_iff]
        intro y hy hc
        exact (hback y hy).ne (hk.trans (of_decide_eq_true hc).symm)
      simp [hk, hnone]
    · simp [hk]

end Sorted

end WeightedAutomata
