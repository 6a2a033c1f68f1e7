import WeightedAutomata.Proofs.Automaton.Chronicle
import WeightedAutomata.Proofs.Grouping

/-!
The lists that an automaton keeps of its transitions agree.

Every list of a state is a selection, a sorting or a grouping of the transitions in force, in the
order in which they were added.
-/

namespace WeightedAutomata

/-! ### Indexes -/

namespace Index

variable {κ : Type} [Ord κ]

def keys (x : Index κ) : List κ := x.toList.map Prod.fst

lemma keys_eq (x : Index κ) : x.keys = x.buckets.toList.map Prod.fst := by
  unfold keys toList
  rw [List.map_map]
  rfl

variable [Std.TransOrd κ] {x : Index κ} {k : κ}

lemma pairwise_keys : x.keys.Pairwise fun k k' => compare k k' = .lt := by
  rw [keys_eq, List.pairwise_map]
  exact Std.TreeMap.ordered_keys_toList

lemma mem_keys [Std.LawfulEqOrd κ] (h : x.find k ≠ #[]) : k ∈ x.keys := by
  rw [keys_eq, List.mem_map]
  unfold find at h
  rw [Std.TreeMap.getD_eq_getD_getElem?] at h
  cases hb : x.buckets[k]? with
  | none => simp [hb] at h
  | some b => exact ⟨(k, b), Std.TreeMap.mem_toList_iff_getElem?_eq_some.2 hb, rfl⟩

lemma toList_eq [Std.LawfulEqOrd κ] : x.toList = x.keys.map fun k => (k, (x.find k).toList) := by
  rw [keys_eq, List.map_map, toList]
  refine List.map_congr_left fun p hp => ?_
  have hfind := Std.TreeMap.mem_toList_iff_getElem?_eq_some.1 hp
  simp [find, Std.TreeMap.getD_eq_getD_getElem?, hfind]

end Index

variable {L I O : Type} {r : Range} [LabelOver L I O] [Alphabet I] [Alphabet O]

namespace Automaton

/-- All lists of transitions agree with `ts`, and so with each other. -/
structure IndexesAgree (a : Automaton L r I O) (ts : List (Transition L r)) : Prop where
  /-- `ts` are the transitions in force. -/
  inForce : ∀ t, t ∈ ts ↔ a.transition? t.id = some t
  nodup : ts.Nodup
  /-- The list of a state has its own transitions, in the order of `ts`. -/
  outgoing : ∀ s, a.contains s → (a.transitionsFrom s).toList = ts.filter (·.source = s)
  reading : ∀ s k, a.contains s → (a.transitionsReading s k).toList =
    (a.transitionsFrom s).toList.filter (Label.input ·.label = k)
  /-- The merge sort is stable: of equal weights the one added first comes first. -/
  byWeight : ∀ s, a.contains s → a.transitionsByWeight s =
    (a.transitionsFrom s).toList.mergeSort fun t u => decide (t.weight ≤ u.weight)
  writing : Label.isTransducer L = true → ∀ s k, a.contains s → (a.transitionsWriting s k).toList =
    (a.transitionsFrom s).toList.filter (Label.output ·.label = k)
  /-- Each output's transitions stand together, in their order, whichever output comes first. -/
  byOutput : Label.isTransducer L = true → ∀ s listed, a.contains s → a.ListedByOutput s listed →
    listed.Perm (a.transitionsFrom s).toList ∧
    ∀ k, (a.transitionsFrom s).toList.filter (Label.output ·.label = k) <:+: listed
  all : a.allTransitions.Perm (a.stateIds.flatMap fun s => (a.transitionsFrom s).toList)

variable {a : Automaton L r I O} {ts : List (Transition L r)}

namespace Records

lemma filterMap_at? (h : Records a ts) {own : List (Transition L r)} (hown : own ⊆ ts) :
    (slotsOf own).filterMap a.transitions.at? = own := by
  induction own with
  | nil => rfl
  | cons t own ih =>
    have ht : a.transitions.at? t.id.index = some t := h.at?_eq (hown List.mem_cons_self)
    have hrest := ih fun u hu => hown (List.mem_cons_of_mem _ hu)
    rw [slotsOf, List.map_cons, List.filterMap_cons_some ht]
    exact congrArg (t :: ·) hrest

lemma toList_inSlots (h : Records a ts) {own : List (Transition L r)} (hown : own ⊆ ts)
    {slots : Array Nat} (hslots : slots.toList = slotsOf own) :
    (a.inSlots slots).toList = own := by
  unfold inSlots
  rw [LazyList.toList_filterMap, LazyList.toList_ofArray, hslots, h.filterMap_at? hown]

end Records

lemma mem_keys_of_mem {κ : Type} [Ord κ] [Std.TransOrd κ] [Std.LawfulEqOrd κ] [DecidableEq κ]
    {own : List (Transition L r)} {x : Index κ} {key : Transition L r → κ}
    (hx : ∀ k, (x.find k).toList = slotsOf (own.filter (key · = k))) {t : Transition L r}
    (ht : t ∈ own) : key t ∈ x.keys := by
  refine Index.mem_keys fun hempty => ?_
  have hslots := hx (key t)
  rw [hempty] at hslots
  have hmem : t.id.index ∈ slotsOf (own.filter (key · = key t)) :=
    List.mem_map_of_mem (by simp [ht])
  rw [← hslots] at hmem
  simp at hmem

omit [LabelOver L I O] in
lemma toList_transitionsFrom_of_not_contains {s : StateId} (hs : ¬ a.contains s) :
    (a.transitionsFrom s).toList = [] := by
  have hnone : a.states.get? s = none := Option.not_isSome_iff_eq_none.1 hs
  unfold transitionsFrom
  rw [hnone]
  rfl

namespace Consistent

lemma toList_transitionsFrom (h : Consistent a ts) {s : StateId} (hs : a.contains s) :
    (a.transitionsFrom s).toList = ts.filter (·.source = s) := by
  obtain ⟨d, hd⟩ := Option.isSome_iff_exists.1 hs
  unfold transitionsFrom
  rw [hd]
  exact h.toList_inSlots (List.filter_subset_self _) (h.files s d hd).outgoing

lemma toList_transitionsReading (h : Consistent a ts) (s : StateId) (k : Symbol I) :
    (a.transitionsReading s k).toList =
      (a.transitionsFrom s).toList.filter (Label.input ·.label = k) := by
  cases hd : a.states.get? s with
  | none => simp [transitionsReading, transitionsFrom, hd]
  | some d =>
    have hs : a.contains s := Option.isSome_iff_exists.2 ⟨d, hd⟩
    rw [h.toList_transitionsFrom hs]
    unfold transitionsReading
    rw [hd]
    exact h.toList_inSlots (fun t ht => List.mem_of_mem_filter (List.mem_of_mem_filter ht))
      ((h.files s d hd).byInput k)

lemma toList_transitionsWriting (h : Consistent a ts) (htrans : Label.isTransducer L = true)
    {s : StateId} (hs : a.contains s) (k : Symbol O) : (a.transitionsWriting s k).toList =
      (a.transitionsFrom s).toList.filter (Label.output ·.label = k) := by
  rw [h.toList_transitionsFrom hs]
  obtain ⟨d, hd⟩ := Option.isSome_iff_exists.1 hs
  unfold transitionsWriting
  rw [hd]
  exact h.toList_inSlots (fun t ht => List.mem_of_mem_filter (List.mem_of_mem_filter ht))
    ((h.files s d hd).byOutput htrans k)

lemma transitionsByWeight_eq (h : Consistent a ts) {s : StateId} (hs : a.contains s) :
    a.transitionsByWeight s =
      (a.transitionsFrom s).toList.mergeSort fun t u => decide (t.weight ≤ u.weight) := by
  rw [h.toList_transitionsFrom hs]
  obtain ⟨d, hd⟩ := Option.isSome_iff_exists.1 hs
  unfold transitionsByWeight
  rw [hd]
  change d.byWeight.toList.filterMap _ = _
  rw [(h.files s d hd).byWeight,
    h.filterMap_at? fun t ht => List.mem_of_mem_filter (mem_lightestFirst.1 ht)]
  rfl

lemma transitionsByOutput_eq (h : Consistent a ts) (htrans : Label.isTransducer L = true)
    {s : StateId} (hs : a.contains s) :
    ∃ ks : List (Symbol O), ks.Nodup ∧
      (∀ t ∈ (a.transitionsFrom s).toList, Label.output t.label ∈ ks) ∧
      a.transitionsByOutput s = ks.map fun k =>
        (k, (a.transitionsFrom s).toList.filter (Label.output ·.label = k)) := by
  rw [h.toList_transitionsFrom hs]
  obtain ⟨d, hd⟩ := Option.isSome_iff_exists.1 hs
  have houtput := (h.files s d hd).byOutput htrans
  -- a group stands under each key, and the index keeps its keys in increasing order
  have hdistinct : d.byOutput.keys.Nodup :=
    Index.pairwise_keys.imp fun hlt heq => by
      rw [heq, Std.compare_self] at hlt
      cases hlt
  refine ⟨d.byOutput.keys, hdistinct, fun t ht => mem_keys_of_mem houtput ht, ?_⟩
  unfold transitionsByOutput
  rw [hd]
  change d.byOutput.toList.map _ = _
  rw [Index.toList_eq, List.map_map]
  refine List.map_congr_left fun k _ => congrArg (k, ·) ?_
  rw [houtput k]
  exact h.filterMap_at? fun t ht => List.mem_of_mem_filter (List.mem_of_mem_filter ht)

/-- Groups in any order are groups of the same keys in that order. -/
lemma listedByOutput_eq (h : Consistent a ts) (htrans : Label.isTransducer L = true)
    {s : StateId} (hs : a.contains s) {listed : List (Transition L r)}
    (hlisted : a.ListedByOutput s listed) :
    ∃ ks : List (Symbol O), ks.Nodup ∧
      (∀ t ∈ (a.transitionsFrom s).toList, Label.output t.label ∈ ks) ∧
      listed = grouped (Label.output ·.label) ks (a.transitionsFrom s).toList := by
  obtain ⟨ks, hks, hcover, hgroups⟩ := h.transitionsByOutput_eq htrans hs
  obtain ⟨groups, hperm, rfl⟩ := hlisted
  rw [hgroups] at hperm
  have hkeys : (groups.map Prod.fst).Perm ks := by
    simpa [Function.comp_def] using hperm.map Prod.fst
  refine ⟨groups.map Prod.fst, hkeys.nodup_iff.2 hks, fun t ht => hkeys.mem_iff.2 (hcover t ht), ?_⟩
  unfold grouped
  rw [List.flatMap_map]
  refine List.flatMap_congr fun p hp => ?_
  obtain ⟨k, -, rfl⟩ := List.mem_map.1 (hperm.mem_iff.1 hp)
  rfl

lemma nodup (h : Consistent a ts) : ts.Nodup := h.slots.of_map _

lemma nodup_transitionsFrom (h : Consistent a ts) (s : StateId) :
    (a.transitionsFrom s).toList.Nodup := by
  cases hd : a.states.get? s with
  | none => simp [transitionsFrom, hd]
  | some d =>
    rw [h.toList_transitionsFrom (Option.isSome_iff_exists.2 ⟨d, hd⟩)]
    exact h.nodup.filter _

lemma perm_allTransitions (h : Consistent a ts) : a.allTransitions.Perm ts := by
  have hid : a.allTransitions.map Transition.id = a.transitions.handles := by
    unfold allTransitions Arena.handles
    rw [List.map_map]
    refine List.map_congr_left fun p hp => ?_
    exact ((h.inForce p.1 p.2).1 (Arena.mem_toList.1 hp)).2
  -- distinct handles belong to distinct transitions, so equal members make a permutation
  have hnodup : a.allTransitions.Nodup :=
    List.Nodup.of_map Transition.id (hid ▸ Arena.nodup_handles a.transitions)
  rw [List.perm_ext_iff_of_nodup hnodup h.nodup]
  intro t
  unfold allTransitions
  rw [List.mem_map]
  constructor
  · rintro ⟨p, hp, rfl⟩
    exact ((h.inForce p.1 p.2).1 (Arena.mem_toList.1 hp)).1
  · intro ht
    exact ⟨(t.id, t), Arena.mem_toList.2 ((h.inForce t.id t).2 ⟨ht, rfl⟩), rfl⟩

lemma perm_flatMap_transitionsFrom (h : Consistent a ts) :
    (a.stateIds.flatMap fun s => (a.transitionsFrom s).toList).Perm ts := by
  have hgroups : (a.stateIds.flatMap fun s => (a.transitionsFrom s).toList) =
      grouped Transition.source a.stateIds ts :=
    List.flatMap_congr fun s hs => h.toList_transitionsFrom (Arena.mem_handles.1 hs)
  rw [hgroups]
  exact grouped_perm (Arena.nodup_handles _) fun t ht => Arena.mem_handles.2 (h.source t ht)

lemma indexesAgree (h : Consistent a ts) : IndexesAgree a ts where
  inForce t := by simp [h.inForce t.id t]
  nodup := h.nodup
  outgoing _ hs := h.toList_transitionsFrom hs
  reading s k _ := h.toList_transitionsReading s k
  byWeight _ hs := h.transitionsByWeight_eq hs
  writing htrans _ k hs := h.toList_transitionsWriting htrans hs k
  byOutput htrans s listed hs hlisted := by
    obtain ⟨ks, hks, hcover, rfl⟩ := h.listedByOutput_eq htrans hs hlisted
    exact ⟨grouped_perm hks hcover, filter_infix_grouped hcover⟩
  all := h.perm_allTransitions.trans h.perm_flatMap_transitionsFrom.symm

end Consistent

/-- **All lists of transitions agree**, whatever operations the automaton comes from: some run of
calls leads to it too, and with every such run the lists agree with the transitions in the order in
which the run has added them. -/
theorem indexes_agree (ops : List (Operation L r)) :
    (∃ calls : List (Call L r), new.call calls = reach ops) ∧
      ∀ calls : List (Call L r), new.call calls = reach ops →
        IndexesAgree (reach ops) (inOrderAdded calls) := by
  obtain ⟨calls, hcalls⟩ := exists_calls ops
  refine ⟨⟨calls, hcalls.symm⟩, fun calls hcalls => ?_⟩
  rw [← hcalls]
  exact (consistent_call calls).indexesAgree

/-- Two parallel transitions and a loop; the first is removed and its slot is used again. -/
def reusedSlot : List (Call Pair .magnitude) :=
  [.addState true,
    .addTransition ⟨0, 0⟩ ⟨1, 0⟩ (.concrete "a" "x") 1,
    .addTransition ⟨0, 0⟩ ⟨1, 0⟩ (.concrete "a" "y") 0,
    .removeTransition ⟨0, 0⟩,
    .removeState ⟨1, 0⟩,
    .addTransition ⟨0, 0⟩ ⟨0, 0⟩ (.concrete "a" "y") 0,
    .addTransition ⟨0, 0⟩ ⟨2, 0⟩ (.concrete "b" "y") 1]

theorem indexes_agree_reused_slot :
    new.call reusedSlot = reach (reusedSlot.map .call) ∧
      (inOrderAdded reusedSlot).map (·.id) = [⟨1, 0⟩, ⟨0, 1⟩] ∧
      IndexesAgree (reach (reusedSlot.map .call)) (inOrderAdded reusedSlot) :=
  ⟨rfl, by decide, (indexes_agree (reusedSlot.map .call)).2 reusedSlot rfl⟩

end Automaton

end WeightedAutomata
