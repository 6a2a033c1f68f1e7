import WeightedAutomata.Arena.Lemmas
import Mathlib.Data.List.Nodup
import Mathlib.Tactic.Common

/-!
The handles that an arena has issued and those whose things have been removed.

The generation of a slot is the number of its removals, so a handle that is issued again would have
to be of a generation that the slot has left behind. Generations come round after `2 ^ 32` removals
from one slot; up to there a handle names its thing from the moment it is issued until the thing is
removed, and nothing before or after.
-/

namespace WeightedAutomata

variable {e : Entity} {α : Type}

/-- The handles issued and the handles of what has been removed, both in their order. -/
structure Ledger (e : Entity) where
  issued : List (Handle e)
  removed : List (Handle e)
  deriving DecidableEq

namespace Ledger

def empty : Ledger e := ⟨[], []⟩

def issue (l : Ledger e) (h : Handle e) : Ledger e := { l with issued := l.issued ++ [h] }

def strike (l : Ledger e) (hs : List (Handle e)) : Ledger e := { l with removed := l.removed ++ hs }

def outstanding (l : Ledger e) : List (Handle e) := l.issued.filter (· ∉ l.removed)

def timesVacated (l : Ledger e) (i : Nat) : Nat := l.removed.countP (·.index = i)

/-- No slot has been vacated so often that its generations have come round. -/
def Bounded (l : Ledger e) : Prop := ∀ i, l.timesVacated i < 0x100000000

variable {l m : Ledger e}

lemma mem_outstanding {h : Handle e} : h ∈ l.outstanding ↔ h ∈ l.issued ∧ h ∉ l.removed := by
  simp [outstanding]

lemma outstanding_issue {h : Handle e} (hh : h ∉ l.removed) :
    (l.issue h).outstanding = l.outstanding ++ [h] := by
  unfold outstanding issue
  rw [List.filter_append, List.filter_cons_of_pos (by simpa using hh), List.filter_nil]

lemma outstanding_strike (hl : l.issued.Nodup) (h : Handle e) :
    (l.strike [h]).outstanding = l.outstanding.erase h := by
  unfold outstanding strike
  rw [(hl.filter _).erase_eq_filter, List.filter_filter]
  refine List.filter_congr fun h' _ => ?_
  by_cases heq : h' = h <;> simp [heq]

lemma strike_append (hs hs' : List (Handle e)) :
    l.strike (hs ++ hs') = (l.strike hs).strike hs' := by
  simp [strike]

lemma strike_nil : l.strike [] = l := by simp [strike]

lemma timesVacated_strike (hs : List (Handle e)) (i : Nat) :
    (l.strike hs).timesVacated i = l.timesVacated i + hs.countP (·.index = i) := List.countP_append

lemma Bounded.of_earlier (hm : m.Bounded) (h : l.removed <+: m.removed) : l.Bounded :=
  fun i => Nat.lt_of_le_of_lt (List.Sublist.countP_le h.sublist) (hm i)

end Ledger

namespace Arena

/-! ### Generations -/

lemma handleAt_update (a : Arena e α) (i : Nat) (f : α → α) (j : Nat) :
    (a.update i f).handleAt j = a.handleAt j := by
  unfold handleAt update
  by_cases hi : i = j
  · subst hi
    cases hs : a.slots[i]? <;> simp [Array.getElem?_modify, hs]
  · simp [Array.getElem?_modify, hi]

lemma handleAt_insert (a : Arena e α) (x : α) (j : Nat) :
    (a.insert x).handleAt j = a.handleAt j := by
  unfold handleAt insert
  split
  · rw [Array.getElem?_push]
    by_cases hj : j = a.slots.size <;> simp [hj]
  · next i _ _ =>
    by_cases hi : i = j
    · subst hi
      cases hs : a.slots[i]? <;> simp [Array.getElem?_modify, hs]
    · simp [Array.getElem?_modify, hi]

lemma handleAt_vacate {a : Arena e α} {i : Nat} (hi : (a.at? i).isSome) (j : Nat) :
    ((a.vacate i).handleAt j).generation =
      if i = j then nextGeneration (a.handleAt j).generation else (a.handleAt j).generation := by
  obtain ⟨x, hx⟩ := Option.isSome_iff_exists.1 hi
  unfold handleAt vacate
  rw [if_pos hi]
  by_cases hij : i = j
  · subst hij
    cases hs : a.slots[i]? <;> simp [at?, hs] at hx
    simp [Array.getElem?_modify, hs]
  · simp [Array.getElem?_modify, hij]

/-! ### The number of things -/

lemma size_insert (a : Arena e α) (x : α) : (a.insert x).size = a.size + 1 := by
  unfold insert
  split <;> rfl

lemma size_vacate {a : Arena e α} {i : Nat} (hi : (a.at? i).isSome) :
    (a.vacate i).size = a.size - 1 := by
  unfold vacate
  rw [if_pos hi]
  rfl

/-! ### Arenas and their ledgers -/

/-- An arena whose insertions and removals stand in a ledger. -/
structure Logged (a : Arena e α) (l : Ledger e) : Prop where
  tidy : a.Tidy
  /-- No handle has been issued twice. -/
  distinct : l.issued.Nodup
  /-- Nothing has been removed twice, and nothing that was not there. -/
  once : l.removed.Nodup
  known : l.removed ⊆ l.issued
  contains : ∀ h, a.contains h ↔ h ∈ l.issued ∧ h ∉ l.removed
  generation : ∀ i, (a.handleAt i).generation = l.timesVacated i
  past : ∀ h ∈ l.removed, h.generation < l.timesVacated h.index
  size : a.size = l.outstanding.length

namespace Logged

variable {a : Arena e α} {l : Ledger e}

lemma empty : (Arena.empty : Arena e α).Logged .empty where
  tidy := tidy_empty
  distinct := List.nodup_nil
  once := List.nodup_nil
  known := List.Subset.refl _
  contains h := by simp [Arena.contains, Ledger.empty]
  generation i := rfl
  past h hh := by cases hh
  size := rfl

lemma update (h : a.Logged l) (i : Nat) (f : α → α) : (a.update i f).Logged l where
  tidy := tidy_update h.tidy i f
  distinct := h.distinct
  once := h.once
  known := h.known
  contains g := by rw [contains_update, h.contains]
  generation j := by rw [handleAt_update, h.generation]
  past := h.past
  size := h.size

lemma update_ends (h : a.Logged l) (p : Prop) [Decidable p] (i j : Nat) (f g : α → α) :
    (if p then a.update i f else (a.update i f).update j g).Logged l := by
  split
  · exact h.update i f
  · exact (h.update i f).update j g

/-- The next handle has not been issued before: its slot is vacant, and the slot's earlier handles
are of earlier generations. -/
lemma next_notMem (h : a.Logged l) : a.next ∉ l.issued := by
  intro hissued
  -- if the slot's next handle had been issued, it would be live or removed; it is vacant, and a
  -- removed handle has a generation that the slot has passed
  have hvacant : ¬ a.contains a.next := by simp [Arena.contains, get?_next h.tidy]
  have hremoved : a.next ∈ l.removed := by
    by_contra hc
    exact hvacant ((h.contains _).2 ⟨hissued, hc⟩)
  have hpast := h.past _ hremoved
  rw [← h.generation] at hpast
  exact Nat.lt_irrefl _ hpast

lemma insert (h : a.Logged l) (x : α) : (a.insert x).Logged (l.issue a.next) := by
  have hfresh := h.next_notMem
  have hstanding : a.next ∉ l.removed := fun hc => hfresh (h.known hc)
  have hdistinct : (l.issued ++ [a.next]).Nodup := by
    rw [← List.concat_eq_append]
    exact .concat hfresh h.distinct
  refine {
    tidy := tidy_insert h.tidy x
    distinct := hdistinct
    once := h.once
    known := fun g hg => List.mem_append_left _ (h.known hg)
    contains := fun g => ?_
    generation := fun i => by rw [handleAt_insert, h.generation]; rfl
    past := h.past
    size := ?_ }
  · have hcontains := h.contains g
    unfold Arena.contains at hcontains ⊢
    rw [get?_insert h.tidy]
    by_cases hg : g = a.next
    · simp [hg, Ledger.issue, hstanding]
    · simp [hg, Ledger.issue, hcontains]
  · rw [size_insert, h.size, Ledger.outstanding_issue hstanding, List.length_append,
      List.length_singleton]

lemma vacate (h : a.Logged l) {g : Handle e} (hg : a.contains g) (hbound : (l.strike [g]).Bounded) :
    (a.vacate g.index).Logged (l.strike [g]) := by
  obtain ⟨x, hx⟩ := Option.isSome_iff_exists.1 hg
  obtain ⟨hissued, hstanding⟩ := (h.contains g).1 hg
  have hat : (a.at? g.index).isSome := by rw [at?_eq_of_get? hx]; rfl
  -- a live handle has the generation of its slot, the number of times that was vacated
  have hown : g.generation = l.timesVacated g.index := by
    rw [← h.generation, (get?_eq_some_iff.1 hx).2]
  have htimes : ∀ i, (l.strike [g]).timesVacated i =
      if g.index = i then l.timesVacated i + 1 else l.timesVacated i := by
    intro i
    rw [Ledger.timesVacated_strike]
    by_cases hi : g.index = i <;> simp [hi]
  have honce : (l.removed ++ [g]).Nodup := by
    rw [← List.concat_eq_append]
    exact .concat hstanding h.once
  refine {
    tidy := tidy_vacate h.tidy _
    distinct := h.distinct
    once := honce
    known := fun g' hg' => ?known
    contains := fun g' => ?contains
    generation := fun i => ?generation
    past := fun g' hg' => ?past
    size := ?size }
  case known =>
    obtain hg' | hg' := List.mem_append.1 hg'
    · exact h.known hg'
    · rwa [List.mem_singleton.1 hg']
  case contains =>
    have hcontains := h.contains g'
    unfold Arena.contains at hcontains ⊢
    rw [get?_vacate_of_contains hg]
    by_cases heq : g' = g
    · simp [heq, Ledger.strike]
    · simp [heq, Ledger.strike, hcontains]
  case generation =>
    rw [handleAt_vacate hat, htimes, h.generation]
    by_cases hi : g.index = i
    · -- here the bound is needed: the generation must not come round to one issued before
      have hlt := hbound i
      rw [htimes, if_pos hi] at hlt
      rw [if_pos hi, if_pos hi, nextGeneration, Nat.mod_eq_of_lt hlt]
    · rw [if_neg hi, if_neg hi]
  case past =>
    rw [htimes]
    obtain hg' | hg' := List.mem_append.1 hg'
    · have hpast := h.past g' hg'
      split <;> omega
    · rw [List.mem_singleton.1 hg', if_pos rfl, hown]
      exact Nat.lt_succ_self _
  case size =>
    rw [size_vacate hat, h.size, Ledger.outstanding_strike h.distinct, List.length_erase_of_mem]
    exact Ledger.mem_outstanding.2 ⟨hissued, hstanding⟩

end Logged

end Arena

end WeightedAutomata
