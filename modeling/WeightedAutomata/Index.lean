import Std.Data.TreeMap

/-!
Slot numbers filed under keys: in each bucket in the order in which they were added, and the
buckets in the order of their keys. Empty buckets are not kept.
-/

namespace WeightedAutomata

structure Index (κ : Type) [Ord κ] where
  buckets : Std.TreeMap κ (Array Nat)

namespace Index

variable {κ : Type} [Ord κ]

def empty : Index κ := ⟨{}⟩

instance : Inhabited (Index κ) := ⟨empty⟩

def find (x : Index κ) (k : κ) : Array Nat := x.buckets.getD k #[]

/-- Files a slot under a key, after those already there. -/
def add (x : Index κ) (k : κ) (slot : Nat) : Index κ :=
  ⟨x.buckets.alter k fun
    | none => some #[slot]
    | some bucket => some (bucket.push slot)⟩

def remove (x : Index κ) (k : κ) (slot : Nat) : Index κ :=
  ⟨x.buckets.alter k fun
    | none => none
    | some bucket =>
      let rest := bucket.erase slot
      if rest.isEmpty then none else some rest⟩

/-- The buckets under their keys, in the order of the keys. -/
def toList (x : Index κ) : List (κ × List Nat) := x.buckets.toList.map fun (k, b) => (k, b.toList)

section Lawful

variable [Std.TransOrd κ]

@[simp] theorem find_empty (k : κ) : (empty : Index κ).find k = #[] :=
  Std.TreeMap.getD_emptyc

variable [Std.LawfulEqOrd κ] [DecidableEq κ]

/-- Filing a slot lengthens its own bucket and leaves the others alone. -/
theorem find_add (x : Index κ) (k k' : κ) (slot : Nat) :
    (x.add k slot).find k' = if k = k' then (x.find k').push slot else x.find k' := by
  unfold find add
  simp only [Std.TreeMap.getD_eq_getD_getElem?, Std.TreeMap.getElem?_alter,
    Std.compare_eq_iff_eq]
  by_cases h : k = k'
  · subst h
    cases x.buckets[k]? <;> simp
  · simp [h]

/-- Taking a slot out shortens its own bucket and leaves the others alone. -/
theorem find_remove (x : Index κ) (k k' : κ) (slot : Nat) :
    (x.remove k slot).find k' = if k = k' then (x.find k').erase slot else x.find k' := by
  unfold find remove
  simp only [Std.TreeMap.getD_eq_getD_getElem?, Std.TreeMap.getElem?_alter,
    Std.compare_eq_iff_eq]
  by_cases h : k = k'
  · subst h
    cases x.buckets[k]? with
    | none => simp
    | some b =>
      by_cases he : (b.erase slot).isEmpty
      · simp [Array.isEmpty_iff.1 he]
      · simp [he]
  · simp [h]

end Lawful

end Index

end WeightedAutomata
