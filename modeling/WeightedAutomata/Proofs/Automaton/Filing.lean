import WeightedAutomata.Automaton.Edit
import WeightedAutomata.Proofs.Grouping
import Mathlib.Data.List.Nodup
import Mathlib.Tactic.Common

/-!
What the record of a state has on file.

The lists of a record hold slots. Each of them stands for a selection of the state's own
transitions, in the order in which they were added: all of them, those that read a symbol, those
that write one. Filing a transition appends it to the selections it belongs to, and taking it out
takes it out of the same ones. One more list stands for all of them, sorted by weight. It is sorted
because it was before: the search for the place of a new transition relies on that, and on finding
the others in force.
-/

namespace WeightedAutomata

variable {L I O : Type} {r : Range} [LabelOver L I O] [Alphabet I] [Alphabet O]

def slotsOf (ts : List (Transition L r)) : List Nat := ts.map (·.id.index)

/-- The transitions from the lightest to the heaviest, those of the same weight in order. -/
def lightestFirst (ts : List (Transition L r)) : List (Transition L r) :=
  ts.mergeSort (keyLE (·.weight.log.val))

def without (ts : List (Transition L r)) (t : Transition L r) : List (Transition L r) :=
  ts.filter (·.id ≠ t.id)

lemma toList_erase (xs : Array Nat) (i : Nat) : (xs.erase i).toList = xs.toList.erase i := by
  obtain ⟨l⟩ := xs
  rw [List.erase_toArray]

lemma mem_lightestFirst {ts : List (Transition L r)} {t : Transition L r} :
    t ∈ lightestFirst ts ↔ t ∈ ts := List.mem_mergeSort

lemma nodup_slotsOf_lightestFirst {ts : List (Transition L r)} (h : (slotsOf ts).Nodup) :
    (slotsOf (lightestFirst ts)).Nodup :=
  ((List.mergeSort_perm ts _).map _).nodup_iff.2 h

lemma lightestFirst_without (ts : List (Transition L r)) (t : Transition L r) :
    lightestFirst (without ts t) = without (lightestFirst ts) t := mergeSort_filter _ _

section Selection

variable {ts : List (Transition L r)} {t : Transition L r}
variable (p : Transition L r → Prop) [DecidablePred p]

lemma filter_snoc : (ts ++ [t]).filter p = if p t then ts.filter p ++ [t] else ts.filter p := by
  by_cases h : p t <;> simp [h]

lemma mem_without {u : Transition L r} : u ∈ without ts t ↔ u ∈ ts ∧ u.id ≠ t.id := by
  simp [without]

lemma filter_without : (without ts t).filter p = without (ts.filter p) t := by
  simp only [without, List.filter_filter, Bool.and_comm]

lemma without_eq_self (h : ∀ u ∈ ts, u.id ≠ t.id) : without ts t = ts :=
  List.filter_eq_self.2 fun u hu => by simpa using h u hu

lemma slotsOf_without (hnd : (slotsOf ts).Nodup) (ht : t ∈ ts) :
    slotsOf (without ts t) = (slotsOf ts).erase t.id.index := by
  rw [hnd.erase_eq_filter, slotsOf, slotsOf, List.filter_map, without]
  congr 1
  refine List.filter_congr fun u hu => ?_
  have hinj : u.id.index = t.id.index → u = t := fun h => List.inj_on_of_nodup_map hnd hu ht h
  by_cases h : u.id = t.id
  · simp [h]
  · have hne : u.id.index ≠ t.id.index := fun hc => h (hinj hc ▸ rfl)
    simp [h, hne]

lemma slotsOf_filter_without (hnd : (slotsOf ts).Nodup) (ht : t ∈ ts) :
    slotsOf ((without ts t).filter p) =
      if p t then (slotsOf (ts.filter p)).erase t.id.index else slotsOf (ts.filter p) := by
  rw [filter_without]
  by_cases h : p t
  · have hsub : (slotsOf (ts.filter p)).Sublist (slotsOf ts) := List.filter_sublist.map _
    rw [if_pos h, slotsOf_without (hnd.sublist hsub) (by simp [ht, h])]
  · -- `t` is not among those listed, so taking it out changes nothing
    rw [if_neg h, without_eq_self]
    intro u hu hid
    obtain ⟨hu, hpu⟩ := List.mem_filter.1 hu
    have heq : u = t := List.inj_on_of_nodup_map hnd hu ht (by rw [hid])
    rw [heq] at hpu
    exact h (of_decide_eq_true hpu)

end Selection

namespace StateRecord

/-- The record of a state whose own transitions are `own`, in the order in which they were added,
and to which `incoming` transitions of other states lead. -/
structure Files (d : StateRecord I O) (own : List (Transition L r)) (incoming : Nat) : Prop where
  outgoing : d.outgoing.toList = slotsOf own
  byInput : ∀ k, (d.byInput.find k).toList = slotsOf (own.filter (Label.input ·.label = k))
  byOutput : Label.isTransducer L = true → ∀ k,
    (d.byOutput.find k).toList = slotsOf (own.filter (Label.output ·.label = k))
  byWeight : d.byWeight.toList = slotsOf (lightestFirst own)
  incoming : d.incoming = incoming

variable {d : StateRecord I O} {own : List (Transition L r)} {t : Transition L r} {n : Nat}

lemma files_isolated (isFinal : Bool) : (isolated isFinal).Files (L := L) (r := r) [] 0 where
  outgoing := rfl
  byInput _ := by simp [isolated, slotsOf]
  byOutput _ _ := by simp [isolated, slotsOf]
  byWeight := by simp [isolated, slotsOf, lightestFirst]
  incoming := rfl

lemma Files.setFinal (h : d.Files own n) (isFinal : Bool) : { d with isFinal }.Files own n where
  outgoing := h.outgoing
  byInput := h.byInput
  byOutput := h.byOutput
  byWeight := h.byWeight
  incoming := h.incoming

lemma Files.enter (h : d.Files own n) : d.enter.Files own (n + 1) where
  outgoing := h.outgoing
  byInput := h.byInput
  byOutput := h.byOutput
  byWeight := h.byWeight
  incoming := congrArg (· + 1) h.incoming

lemma Files.leave (h : d.Files own n) : d.leave.Files own (n - 1) where
  outgoing := h.outgoing
  byInput := h.byInput
  byOutput := h.byOutput
  byWeight := h.byWeight
  incoming := congrArg (· - 1) h.incoming

lemma find_add_snoc {κ : Type} [Ord κ] [Std.TransOrd κ] [Std.LawfulEqOrd κ] [DecidableEq κ]
    {x : Index κ} {key : Transition L r → κ}
    (h : ∀ k, (x.find k).toList = slotsOf (own.filter (key · = k))) (k : κ) :
    ((x.add (key t) t.id.index).find k).toList = slotsOf ((own ++ [t]).filter (key · = k)) := by
  rw [Index.find_add, filter_snoc]
  by_cases hk : key t = k
  · rw [if_pos hk, if_pos hk, Array.toList_push, h k]
    simp [slotsOf]
  · rw [if_neg hk, if_neg hk, h k]

lemma find_remove_without {κ : Type} [Ord κ] [Std.TransOrd κ] [Std.LawfulEqOrd κ] [DecidableEq κ]
    {x : Index κ} {key : Transition L r → κ} (hnd : (slotsOf own).Nodup) (ht : t ∈ own)
    (h : ∀ k, (x.find k).toList = slotsOf (own.filter (key · = k))) (k : κ) :
    ((x.remove (key t) t.id.index).find k).toList =
      slotsOf ((without own t).filter (key · = k)) := by
  rw [Index.find_remove, slotsOf_filter_without _ hnd ht]
  by_cases hk : key t = k
  · rw [if_pos hk, if_pos hk, toList_erase, h k]
  · rw [if_neg hk, if_neg hk, h k]

omit [LabelOver L I O] in
/-- The search finds the place of a transition among the others, as long as these are in force. -/
lemma insertAfter_lightestFirst (h : d.byWeight.toList = slotsOf (lightestFirst own))
    {transitions : Arena .transition (Transition L r)}
    (hown : ∀ u ∈ own, transitions.at? u.id.index = some u) :
    (insertAfter (fun i => (transitions.at? i).any (·.weight ≤ t.weight)) d.byWeight
      t.id.index).toList = slotsOf (lightestFirst (own ++ [t])) := by
  -- what weighs no more than `t` stands in front; the partition point is between the two parts
  obtain ⟨front, back, hparted, hfront, hback⟩ :=
    exists_parted (pairwise_mergeSort_key own) t.weight.log.val
  have hresolve : ∀ u ∈ front ++ back, transitions.at? u.id.index = some u := fun u hu =>
    hown u (List.mem_mergeSort.1 (hparted ▸ hu))
  have hslots : d.byWeight.toList = slotsOf front ++ slotsOf back := by
    rw [h, lightestFirst, hparted, slotsOf, List.map_append]
    rfl
  rw [toList_insertAfter hslots, lightestFirst, mergeSort_snoc hparted hfront hback]
  · simp [slotsOf]
  · intro i hi
    obtain ⟨u, hu, rfl⟩ := List.mem_map.1 hi
    rw [hresolve u (List.mem_append_left _ hu)]
    exact decide_eq_true (hfront u hu)
  · intro i hi
    obtain ⟨u, hu, rfl⟩ := List.mem_map.1 hi
    rw [hresolve u (List.mem_append_right _ hu)]
    have hheavier : ¬ u.weight ≤ t.weight := not_le.2 (hback u hu)
    simpa using hheavier

/-- A transition is filed rightly if those filed before are found in force. -/
lemma Files.file (h : d.Files own n) {transitions : Arena .transition (Transition L r)}
    (hown : ∀ u ∈ own, transitions.at? u.id.index = some u) :
    (d.file transitions t).Files (own ++ [t]) n where
  outgoing := by
    rw [StateRecord.file, Array.toList_push, h.outgoing]
    simp [slotsOf]
  byInput := find_add_snoc h.byInput
  byOutput htrans k := by
    rw [StateRecord.file, if_pos htrans]
    exact find_add_snoc (h.byOutput htrans) k
  byWeight := insertAfter_lightestFirst h.byWeight hown
  incoming := h.incoming

lemma Files.unfile (h : d.Files own n) (hnd : (slotsOf own).Nodup) (ht : t ∈ own) :
    (d.unfile t).Files (without own t) n where
  outgoing := by
    change (d.outgoing.erase t.id.index).toList = _
    rw [toList_erase, h.outgoing, slotsOf_without hnd ht]
  byInput := find_remove_without hnd ht h.byInput
  byOutput htrans k := by
    rw [StateRecord.unfile, if_pos htrans]
    exact find_remove_without hnd ht (h.byOutput htrans) k
  byWeight := by
    change (d.byWeight.erase t.id.index).toList = _
    rw [toList_erase, h.byWeight, lightestFirst_without,
      slotsOf_without (nodup_slotsOf_lightestFirst hnd) (mem_lightestFirst.2 ht)]
  incoming := h.incoming

end StateRecord

end WeightedAutomata
